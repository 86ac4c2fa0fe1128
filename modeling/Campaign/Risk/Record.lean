import Campaign.Json.Basic
import Campaign.Number.Decimal
import Campaign.Number.Word
import Campaign.Risk.Fleet

/-!
# Risk records as JSON

A record is an object with a value for each field, or the list of its values in the order of the
fields. Unknown names in an object are ignored, but a list has no more values than there are
fields. A number of messages takes an integer in range and nothing else, a double takes any number,
and only a time may be `null`.
-/

namespace Campaign.Risk

/-- The fields of a record that a value gives. -/
structure Fields where
  value? : String → Option Json
  /-- Whether the fields are told apart by their order. -/
  positional : Bool

/-- The fields of a record with the given names that a JSON value gives. -/
def Fields.of? (names : List String) : Json → Option Fields
  | .object members => some ⟨fun name => Json.get? name (.object members), false⟩
  | .array items =>
    if items.length ≤ names.length then some ⟨fun name => (names.zip items).lookup name, true⟩
    else none
  | _ => none

/-- A field that must be given. -/
def Fields.required? {α : Type} (f : Fields) (name : String) (read : Json → Option α) : Option α :=
  (f.value? name).bind read

/-- A field that has a default. -/
def Fields.orElse? {α : Type} (f : Fields) (name : String) (default : α)
    (read : Json → Option α) : Option α :=
  match f.value? name with
  | none => some default
  | some value => read value

/-- A value that may be `null`. -/
def nullable? {α : Type} (read : Json → Option α) : Json → Option (Option α)
  | .null => some none
  | value => (read value).map some

/-- An integer between two bounds. -/
def readInteger? (least greatest : Int) : Json → Option Int
  | .integer n => if least ≤ n && n ≤ greatest then some n else none
  | _ => none

/-- A natural number not above a limit. -/
def readNatural? (limit : Nat) (value : Json) : Option Nat :=
  (readInteger? 0 limit value).map Int.toNat

def readTime? : Json → Option Int := readInteger? int64Min int64Max

def readDouble? : Json → Option Float
  | .integer n => some (nearest n)
  | .real x => some x
  | _ => none

def readString? : Json → Option String
  | .string s => some s
  | _ => none

def Account.ofJson? (value : Json) : Option Account := do
  let f ← Fields.of? ["id", "daily_limit", "used_last_24h", "last_activity"] value
  return {
    id := ← f.required? "id" readString?
    dailyLimit := ← f.orElse? "daily_limit" 0 (readNatural? wordMax)
    usedLastDay := ← f.orElse? "used_last_24h" 0.0 readDouble?
    lastActivity := ← f.orElse? "last_activity" none (nullable? readTime?) }

/-- The delay that a value describes. In a list its kind comes first. -/
def Delay.ofJson? : Json → Option Delay
  | .array (mode :: items) => ofMode mode (.array items)
  | .object members => do
    let mode ← Json.get? "mode" (.object members)
    ofMode mode (.object members)
  | _ => none
where
  /-- The delay of a kind from its bounds. -/
  ofMode (mode rest : Json) : Option Delay := do
    match ← readString? mode with
    | "fixed" =>
      let f ← Fields.of? ["min_secs", "max_secs"] rest
      return .fixed (← f.required? "min_secs" readDouble?) (← f.required? "max_secs" readDouble?)
    | "automatic" =>
      let f ← Fields.of? ["delay_secs"] rest
      return .automatic (← f.required? "delay_secs" readDouble?)
    | _ => none

/-- The input that a value describes. In an object the time may be left out. -/
def Input.ofJson? (value : Json) : Option Input := do
  let f ← Fields.of? ["planned_messages", "average_delay_secs", "content_variation_score",
    "daily_limit", "messages_used_last_24h", "last_activity"] value
  return {
    plannedMessages := ← f.required? "planned_messages" (readNatural? wordMax)
    averageDelay := ← f.required? "average_delay_secs" readDouble?
    contentScore := ← f.required? "content_variation_score" (readNatural? wordMax)
    dailyLimit := ← f.required? "daily_limit" (readNatural? wordMax)
    usedLastDay := ← f.required? "messages_used_last_24h" readDouble?
    lastActivity := ←
      if f.positional then f.required? "last_activity" (nullable? readTime?)
      else f.orElse? "last_activity" none (nullable? readTime?) }

def Breakdown.ofJson? (value : Json) : Option Breakdown := do
  let f ← Fields.of? ["total_risk", "load_penalty", "speed_penalty", "content_penalty",
    "bonus_factor"] value
  return {
    totalRisk := ← f.required? "total_risk" (readNatural? halfWordMax)
    loadPenalty := ← f.required? "load_penalty" (readNatural? halfWordMax)
    speedPenalty := ← f.required? "speed_penalty" (readNatural? halfWordMax)
    contentPenalty := ← f.required? "content_penalty" (readNatural? halfWordMax)
    bonusFactor := ← f.required? "bonus_factor" readDouble? }

def Plan.ofJson? (value : Json) : Option Plan := do
  let f ← Fields.of? ["risky_recipients", "delay", "content_variation_score",
    "confirm_below_health"] value
  return {
    recipients := ← f.required? "risky_recipients" (readNatural? wordMax)
    delay := ← f.required? "delay" Delay.ofJson?
    contentScore := ← f.required? "content_variation_score" (readNatural? wordMax)
    confirmBelow := ← f.required? "confirm_below_health" (readNatural? halfWordMax) }

def Level.ofLabel? : String → Option Level
  | "good" => some .good
  | "caution" => some .caution
  | "danger" => some .danger
  | _ => none

/-- The band that a value names: its name, or an object whose only member is the name with
`null`. -/
def Level.ofJson? : Json → Option Level
  | .string label => ofLabel? label
  | .object [(label, .null)] => ofLabel? label
  | _ => none

def Breakdown.toJson (b : Breakdown) : Json :=
  .object [("total_risk", .integer b.totalRisk), ("load_penalty", .integer b.loadPenalty),
    ("speed_penalty", .integer b.speedPenalty), ("content_penalty", .integer b.contentPenalty),
    ("bonus_factor", .real b.bonusFactor)]

def AccountReport.toJson (r : AccountReport) : Json :=
  .object [("account_id", .string r.id), ("planned_messages", .integer r.plannedMessages),
    ("breakdown", r.breakdown.toJson), ("health", .integer r.health)]

def Assessment.toJson (a : Assessment) : Json :=
  .object [("accounts", .array (a.reports.map AccountReport.toJson)),
    ("fleet_health", .integer a.health), ("requires_confirmation", .bool a.requiresConfirmation)]

end Campaign.Risk
