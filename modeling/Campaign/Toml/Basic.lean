/-!
# TOML documents

The values of the data format, and tables under construction. A table remembers how it came about,
because that decides what may still be added to it: a header may open a table that another header
passed through, a dotted key may add to tables made by dotted keys, and a table written between
braces is closed for good.
-/

namespace Campaign.Toml

/-- How a table came about. -/
inductive Origin where
  /-- It has a header, or is the document itself. -/
  | declared
  /-- A header passed through it on the way to a table inside it. -/
  | implied
  /-- A dotted key passed through it. -/
  | dotted
  /-- It is written between braces. -/
  | inline
  deriving Repr, DecidableEq

inductive Value where
  | string (value : String)
  | integer (value : Int)
  | float (value : Float)
  | boolean (value : Bool)
  /-- A date, a time, or both. -/
  | moment
  /-- A list of values, as written between brackets. -/
  | list (items : List Value)
  | table (origin : Origin) (entries : List (String × Value))
  /-- The tables that repeated headers add to a list. -/
  | tables (elements : List Value)
  deriving Inhabited

structure Table where
  origin : Origin
  entries : List (String × Value)

namespace Table

def toValue (t : Table) : Value := .table t.origin t.entries

def get? (t : Table) (name : String) : Option Value := t.entries.lookup name

/-- The table with a value for a name, in its place or at the end. -/
def set (t : Table) (name : String) (value : Value) : Table :=
  let replaced := t.entries.map fun entry => if entry.1 == name then (name, value) else entry
  { t with entries := if (t.get? name).isSome then replaced else t.entries ++ [(name, value)] }

/-- The table that a path enters at an entry, and how to put it back: a new one where there is no
entry, and the last of a list of tables. A dotted key enters no table that has a header. -/
def enter? (dotted : Bool) : Option Value → Option (Table × (Table → Value))
  | none => some (⟨if dotted then .dotted else .implied, []⟩, toValue)
  | some (.table origin entries) =>
    if origin = .inline || (dotted && origin = .declared) then none
    else some (⟨origin, entries⟩, toValue)
  | some (.tables elements) =>
    match elements.getLast? with
    | some (.table origin entries) =>
      some (⟨origin, entries⟩, fun t => .tables (elements.dropLast ++ [t.toValue]))
    | _ => none
  | some _ => none

/-- Changes the table at the end of a path. -/
def modifyAt? (dotted : Bool) (change : Table → Option Table) : List String → Table → Option Table
  | [], t => change t
  | name :: path, t => do
    let (child, restore) ← enter? dotted (t.get? name)
    let child ← child.modifyAt? dotted change path
    return t.set name (restore child)

/-- Adds a value under a dotted key, whose last part must be new in its table. Of the tables the key
passes through, the last must come from dotted keys. -/
def add? (path : List String) (name : String) (value : Value) (t : Table) : Option Table :=
  t.modifyAt? true (fun t =>
    if (!path.isEmpty && t.origin ≠ .dotted) || (t.get? name).isSome then none
    else some (t.set name value)) path

/-- Opens the table of a header: a new one, or one that other headers passed through. -/
def declare? (path : List String) (name : String) (t : Table) : Option Table :=
  t.modifyAt? false (fun t =>
    match t.get? name with
    | none => some (t.set name (.table .declared []))
    | some (.table .implied entries) => some (t.set name (.table .declared entries))
    | some _ => none) path

/-- Adds a table to the list that a repeated header names. -/
def declareElement? (path : List String) (name : String) (t : Table) : Option Table :=
  t.modifyAt? false (fun t =>
    match t.get? name with
    | none => some (t.set name (.tables [.table .declared []]))
    | some (.tables elements) => some (t.set name (.tables (elements ++ [.table .declared []])))
    | some _ => none) path

end Table

end Campaign.Toml
