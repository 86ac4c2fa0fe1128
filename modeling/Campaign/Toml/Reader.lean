import Campaign.Toml.Basic
import Campaign.Toml.Scalar
import Campaign.Toml.Text

/-!
# Reading TOML

A document is a sequence of lines: headers, each of which opens the table that the following keys
belong to, keys with their values, comments and blank lines. Values nest to a limited depth, and a
path has a limited number of keys.
-/

namespace Campaign.Toml

/-- The most values that may be nested in each other, and the most keys of a path. -/
def maxNesting : Nat := 79

mutual

/-- A value that may hold others to a depth of `levels`. -/
def readValue? : (fuel levels : Nat) → List Char → Option (Value × List Char)
  | 0, _, _ => none
  | fuel + 1, levels, text =>
    match text with
    | '[' :: rest =>
      match levels with
      | 0 => none
      | levels + 1 => (readItems? fuel levels rest).map fun (items, rest) => (.list items, rest)
    | '{' :: rest =>
      match levels with
      | 0 => none
      | levels + 1 =>
        match skipSpaces rest with
        | '}' :: rest => some (.table .inline [], rest)
        | rest =>
          (readEntries? fuel levels ⟨.inline, []⟩ rest).map fun (t, rest) => (t.toValue, rest)
    | text =>
      if text.head? = some '"' || text.head? = some '\'' then
        (readString? text).map fun (chars, rest) => (.string (String.ofList chars), rest)
      else readWord? text

/-- The items of a list up to its closing bracket. -/
def readItems? : (fuel levels : Nat) → List Char → Option (List Value × List Char)
  | 0, _, _ => none
  | fuel + 1, levels, text =>
    match skipGap text with
    | ']' :: rest => some ([], rest)
    | text => do
      let (item, rest) ← readValue? fuel levels text
      match skipGap rest with
      | ',' :: rest => (readItems? fuel levels rest).map fun (items, rest) => (item :: items, rest)
      | ']' :: rest => some ([item], rest)
      | _ => none

/-- The entries of a table between braces up to its closing brace, added to those before. -/
def readEntries? : (fuel levels : Nat) → Table → List Char → Option (Table × List Char)
  | 0, _, _, _ => none
  | fuel + 1, levels, table, text => do
    let (path, rest) ← readPath? maxNesting text
    match rest with
    | '=' :: rest =>
      let (value, rest) ← readValue? fuel levels (skipSpaces rest)
      let table ← table.add? path.dropLast (path.getLast?.getD "") value
      match skipSpaces rest with
      | ',' :: rest => readEntries? fuel levels table rest
      | '}' :: rest => some (table, rest)
      | _ => none
    | _ => none

end

/-- A document up to some line. -/
structure Document where
  root : Table
  /-- The path of the table that keys belong to. -/
  path : List String

/-- Adds a key and its value to the table that keys belong to. -/
def Document.add? (d : Document) (path : List String) (value : Value) : Option Document := do
  let root ← d.root.modifyAt? false (·.add? path.dropLast (path.getLast?.getD "") value) d.path
  return { d with root }

/-- Opens the table of a header. -/
def Document.declare? (d : Document) (path : List String) : Option Document := do
  return ⟨← d.root.declare? path.dropLast (path.getLast?.getD ""), path⟩

/-- Adds the table of a repeated header. -/
def Document.declareElement? (d : Document) (path : List String) : Option Document := do
  return ⟨← d.root.declareElement? path.dropLast (path.getLast?.getD ""), path⟩

/-- One line of a document, which may run on inside a value, and what follows it. -/
def readLine? (d : Document) (text : List Char) : Option (Document × List Char) :=
  match text with
  | '#' :: _ => (lineEnd? text).map fun rest => (d, rest)
  | '\n' :: _ | '\r' :: _ => (newline? text).map fun rest => (d, rest)
  | '[' :: '[' :: rest => do
    let (path, rest) ← readPath? maxNesting rest
    match rest with
    | ']' :: ']' :: rest => return (← d.declareElement? path, ← lineEnd? rest)
    | _ => none
  | '[' :: rest => do
    let (path, rest) ← readPath? maxNesting rest
    match rest with
    | ']' :: rest => return (← d.declare? path, ← lineEnd? rest)
    | _ => none
  | text => do
    let (path, rest) ← readPath? maxNesting text
    match rest with
    | '=' :: rest =>
      let (value, rest) ← readValue? (2 * text.length) maxNesting (skipSpaces rest)
      return (← d.add? path value, ← lineEnd? rest)
    | _ => none

def readLines? : (lines : Nat) → Document → List Char → Option Document
  | 0, _, _ => none
  | lines + 1, d, text =>
    match skipSpaces text with
    | [] => some d
    | text => do
      let (d, rest) ← readLine? d text
      readLines? lines d rest

/-- The table that a text is, with or without a byte order mark in front. -/
def read? (text : List Char) : Option Table :=
  let text := match text with
    | '\uFEFF' :: rest => rest
    | text => text
  (readLines? (text.length + 1) ⟨⟨.declared, []⟩, []⟩ text).map Document.root

end Campaign.Toml
