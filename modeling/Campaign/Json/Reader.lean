import Campaign.Json.Basic
import Campaign.Number.Decimal

/-!
# Reading JSON

A text is a JSON value with blanks around it and nothing else. Each reader takes a text apart from
the left and returns what is left of it.
-/

namespace Campaign.Json

/-- The text without the blanks in front. -/
def skipBlanks (text : List Char) : List Char :=
  text.dropWhile fun c => c = ' ' || c = '\n' || c = '\r' || c = '\t'

/-- The character that a one-letter escape stands for. -/
def shortEscape? : Char → Option Char
  | '"' => some '"'
  | '\\' => some '\\'
  | '/' => some '/'
  | 'b' => some '\x08'
  | 'f' => some '\x0c'
  | 'n' => some '\n'
  | 'r' => some '\r'
  | 't' => some '\t'
  | _ => none

/-- The code units of a string up to its closing quote, with what follows the quote. An escape of
four hexadecimal digits gives a unit, which may be half of a surrogate pair. -/
def readUnits? : List Char → Option (List Nat × List Char)
  | [] => none
  | '"' :: rest => some ([], rest)
  | '\\' :: 'u' :: a :: b :: c :: d :: rest =>
    if [a, b, c, d].all isHexDigit then
      (readUnits? rest).map fun (units, rest) => (ofDigits 16 [a, b, c, d] :: units, rest)
    else none
  | '\\' :: c :: rest =>
    match shortEscape? c with
    | some e => (readUnits? rest).map fun (units, rest) => (e.toNat :: units, rest)
    | none => none
  | c :: rest =>
    if c.toNat < 0x20 || c = '\\' then none
    else (readUnits? rest).map fun (units, rest) => (c.toNat :: units, rest)

/-- The characters of code units, in which the halves of a surrogate pair stand together. -/
def ofUnits? : List Nat → Option (List Char)
  | [] => some []
  | [unit] => if unit.isValidChar then some [Char.ofNat unit] else none
  | high :: low :: rest =>
    if 0xD800 ≤ high && high < 0xDC00 then
      if 0xDC00 ≤ low && low < 0xE000 then
        (ofUnits? rest).map (Char.ofNat (0x10000 + (high - 0xD800) * 0x400 + (low - 0xDC00)) :: ·)
      else none
    else if high.isValidChar then (ofUnits? (low :: rest)).map (Char.ofNat high :: ·)
    else none

/-- A string whose opening quote has been read. -/
def readString? (text : List Char) : Option (String × List Char) := do
  let (units, rest) ← readUnits? text
  let chars ← ofUnits? units
  return (String.ofList chars, rest)

/-- The fraction of a numeral, if it has one: a point and digits. -/
def readFraction? : List Char → Option (List Char × List Char)
  | '.' :: rest =>
    let (digits, rest) := rest.span Char.isDigit
    if digits.isEmpty then none else some (digits, rest)
  | rest => some ([], rest)

/-- The exponent of a numeral, if it has one, as it is written. -/
def takeExponent? : List Char → Option (List Char × List Char)
  | c :: rest =>
    if c = 'e' || c = 'E' then
      let sign := rest.takeWhile fun c => c = '+' || c = '-'
      let (digits, after) := (rest.drop sign.length).span Char.isDigit
      if digits.isEmpty || 1 < sign.length then none else some (c :: sign ++ digits, after)
    else some ([], c :: rest)
  | [] => some ([], [])

def readNumber? (text : List Char) : Option (Json × List Char) := do
  let (negative, unsigned) := match text with
    | '-' :: rest => (true, rest)
    | rest => (false, rest)
  let (whole, rest) := unsigned.span Char.isDigit
  guard (!whole.isEmpty && (whole.length = 1 || whole.head? ≠ some '0'))
  let (fraction, rest) ← readFraction? rest
  let (exponent, rest) ← takeExponent? rest
  let power ← readExponent? exponent
  let magnitude := ofDigits 10 whole
  if fraction.isEmpty && exponent.isEmpty && !(negative && magnitude = 0) then
    return (.integer (if negative then -(magnitude : Int) else magnitude), rest)
  else return (.real (Decimal.ofParts negative whole fraction power).toFloat, rest)

mutual

/-- A value, taking apart at most `fuel` nested or neighbouring values. -/
def readValue? : (fuel : Nat) → List Char → Option (Json × List Char)
  | 0, _ => none
  | fuel + 1, text =>
    match skipBlanks text with
    | 'n' :: 'u' :: 'l' :: 'l' :: rest => some (.null, rest)
    | 't' :: 'r' :: 'u' :: 'e' :: rest => some (.bool true, rest)
    | 'f' :: 'a' :: 'l' :: 's' :: 'e' :: rest => some (.bool false, rest)
    | '"' :: rest => (readString? rest).map fun (s, rest) => (.string s, rest)
    | '[' :: rest =>
      match skipBlanks rest with
      | ']' :: rest => some (.array [], rest)
      | rest => (readItems? fuel rest).map fun (items, rest) => (.array items, rest)
    | '{' :: rest =>
      match skipBlanks rest with
      | '}' :: rest => some (.object [], rest)
      | rest => (readMembers? fuel rest).map fun (members, rest) => (.ofMembers members, rest)
    | text => readNumber? text

def readItems? : (fuel : Nat) → List Char → Option (List Json × List Char)
  | 0, _ => none
  | fuel + 1, text => do
    let (item, rest) ← readValue? fuel text
    match skipBlanks rest with
    | ',' :: rest => (readItems? fuel rest).map fun (items, rest) => (item :: items, rest)
    | ']' :: rest => some ([item], rest)
    | _ => none

def readMembers? : (fuel : Nat) → List Char → Option (List (String × Json) × List Char)
  | 0, _ => none
  | fuel + 1, text =>
    match skipBlanks text with
    | '"' :: rest => do
      let (name, rest) ← readString? rest
      match skipBlanks rest with
      | ':' :: rest =>
        let (value, rest) ← readValue? fuel rest
        match skipBlanks rest with
        | ',' :: rest =>
          (readMembers? fuel rest).map fun (members, rest) => ((name, value) :: members, rest)
        | '}' :: rest => some ([(name, value)], rest)
        | _ => none
      | _ => none
    | _ => none

end

/-- The value that a text is. -/
def read? (text : List Char) : Option Json :=
  match readValue? (2 * text.length + 2) text with
  | some (value, rest) => if (skipBlanks rest).isEmpty then some value else none
  | none => none

end Campaign.Json
