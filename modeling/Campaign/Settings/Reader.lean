import Campaign.Number.Word
import Campaign.Settings.Basic
import Campaign.Toml.Reader

/-!
# Settings from a document

A section is a table, or a list of the values of its fields in order. Fields and sections that are
left out have their defaults, names and items that are not known are passed over, and a field that
is given must have a value of its kind. A section may also be written as a date, which names no
field.
-/

namespace Campaign

open Risk Toml

/-- The fields that a section gives. -/
abbrev Section := String → Option Value

/-- The section with fields of the given names that a value is. -/
def Section.of? (names : List String) : Value → Option Section
  | .table _ entries => some fun name => entries.lookup name
  | .list items | .tables items => some fun name => (names.zip items).lookup name
  | .moment => some fun _ => none
  | _ => none

/-- The value of a field, or its default. -/
def Section.field? {α : Type} (s : Section) (name : String) (default : α)
    (read : Value → Option α) : Option α :=
  match s name with
  | none => some default
  | some value => read value

def Toml.Value.string? : Value → Option String
  | .string s => some s
  | _ => none

/-- A double, which may be written as an integer. -/
def Toml.Value.float? : Value → Option Float
  | .float x => some x
  | .integer n => some (nearest n)
  | _ => none

def Toml.Value.integer? : Value → Option Int
  | .integer n => some n
  | _ => none

/-- An integer that is not below zero and not above a limit. -/
def Toml.Value.natural? (limit : Nat) : Value → Option Nat
  | .integer n => if 0 ≤ n && n ≤ limit then some n.toNat else none
  | _ => none

/-- Whether a value holds nothing. -/
def Toml.Value.isVoid : Value → Bool
  | .table _ [] => true
  | .list [] => true
  | .tables [] => true
  | _ => false

/-- The timing with a name, spelt as it is here. -/
def Timing.ofName? : String → Option Timing
  | "fixed" => some .fixed
  | "auto" => some .auto
  | _ => none

/-- The timing that a value names: its name, or a table that holds nothing but its name, with
nothing in it. -/
def Timing.ofValue? : Value → Option Timing
  | .string name => ofName? name
  | .table _ [(name, value)] => if value.isVoid then ofName? name else none
  | _ => none

def LogSettings.ofValue? (value : Value) : Option LogSettings := do
  let s ← Section.of? ["level", "dir"] value
  let default : LogSettings := {}
  return {
    level := ← s.field? "level" default.level Value.string?
    directory := ← s.field? "dir" default.directory fun v => v.string?.map some }

def LaunchSettings.ofValue? (value : Value) : Option LaunchSettings := do
  let s ← Section.of? ["timing", "min_delay_secs", "max_delay_secs", "auto_delay_secs",
    "confirm_below_health"] value
  let default : LaunchSettings := {}
  return {
    timing := ← s.field? "timing" default.timing Timing.ofValue?
    shortestDelay := ← s.field? "min_delay_secs" default.shortestDelay Value.float?
    longestDelay := ← s.field? "max_delay_secs" default.longestDelay Value.float?
    autoDelay := ← s.field? "auto_delay_secs" default.autoDelay Value.float?
    confirmBelow :=
      ← s.field? "confirm_below_health" default.confirmBelow (Value.natural? halfWordMax) }

/-- The account that a section gives, which needs a name. -/
def Risk.Account.ofValue? (value : Value) : Option Account := do
  let s ← Section.of? ["id", "daily_limit", "used_last_24h", "last_activity"] value
  return {
    id := ← (s "id").bind Value.string?
    dailyLimit := ← s.field? "daily_limit" 0 (Value.natural? wordMax)
    usedLastDay := ← s.field? "used_last_24h" 0.0 Value.float?
    lastActivity := ← s.field? "last_activity" none fun v => v.integer?.map some }

def Risk.Account.listOfValue? : Value → Option (List Account)
  | .list items | .tables items => items.mapM Account.ofValue?
  | _ => none

def Settings.ofTable? (t : Table) : Option Settings := do
  return {
    logging := ← Section.field? t.get? "logging" {} LogSettings.ofValue?
    launch := ← Section.field? t.get? "fleet" {} LaunchSettings.ofValue?
    accounts := ← Section.field? t.get? "accounts" [] Account.listOfValue? }

def Settings.read? (text : String) : Option Settings :=
  (Toml.read? text.toList).bind Settings.ofTable?

end Campaign
