import Campaign.Json.Basic
import Campaign.Number.Shortest

/-!
# Writing JSON

Values are written over several lines, two spaces to a level, or on one line in ASCII. Quotes,
backslashes and control characters are escaped; on one line so is every character outside ASCII,
one past the basic plane as a surrogate pair. A double is written with the fewest digits that
read back, positionally from `1e-5` to `1e16` and with an exponent elsewhere; one that is not finite
is `null`.
-/

namespace Campaign.Json

def hexDigit (n : Nat) : Char := Nat.digitChar n

/-- A code unit as an escape of four hexadecimal digits. -/
def unitEscape (unit : Nat) : List Char :=
  ['\\', 'u', hexDigit (unit / 4096), hexDigit (unit / 256 % 16), hexDigit (unit / 16 % 16),
    hexDigit (unit % 16)]

/-- A character as it stands inside quotes. -/
def escape (c : Char) : List Char :=
  if c = '"' then ['\\', '"']
  else if c = '\\' then ['\\', '\\']
  else if c = '\n' then ['\\', 'n']
  else if c = '\r' then ['\\', 'r']
  else if c = '\t' then ['\\', 't']
  else if c = '\x08' then ['\\', 'b']
  else if c = '\x0c' then ['\\', 'f']
  else if c.toNat < 0x20 then unitEscape c.toNat
  else [c]

/-- A character as it stands inside quotes in ASCII. -/
def asciiEscape (c : Char) : List Char :=
  let n := c.toNat
  if n < 0x7F then escape c
  else if n < 0x10000 then unitEscape n
  else unitEscape (0xD800 + (n - 0x10000) / 0x400) ++ unitEscape (0xDC00 + (n - 0x10000) % 0x400)

/-- A string in quotes, each of its characters as it stands there. -/
def quoteWith (escape : Char → List Char) (s : String) : String :=
  String.ofList ('"' :: s.toList.flatMap escape ++ ['"'])

def quote (s : String) : String := quoteWith escape s

/-- A decimal without its sign. The point stands after `digits + exponent` digits; where that is
more than sixteen or less than minus four, one digit stands before the point and an exponent
follows. -/
def decimalText (d : Decimal) : String :=
  let digits := Nat.toDigits 10 d.coefficient
  let point : Int := digits.length + d.exponent
  let text :=
    if d.coefficient = 0 then ['0', '.', '0']
    else if 0 ≤ d.exponent && point ≤ 16 then
      digits ++ List.replicate d.exponent.toNat '0' ++ ['.', '0']
    else if 0 < point && point ≤ 16 then
      digits.take point.toNat ++ '.' :: digits.drop point.toNat
    else if -5 < point && point ≤ 0 then
      '0' :: '.' :: List.replicate (-point).toNat '0' ++ digits
    else
      let exponent := 'e' :: (toString (point - 1)).toList
      match digits with
      | [digit] => digit :: exponent
      | digit :: more => digit :: '.' :: more ++ exponent
      | [] => []
  String.ofList text

/-- A double as a number. -/
def realText (x : Float) : String :=
  if x.isFinite then
    let d := Shortest.ofFloat x
    (if d.negative then "-" else "") ++ decimalText d
  else "null"

/-- The text of a value that has no parts. -/
def scalarText : Json → String
  | null => "null"
  | bool value => if value then "true" else "false"
  | integer value => toString value
  | real value => realText value
  | string value => quote value
  | array _ | object _ => ""

/-- Opens a list or object, separates its parts and closes it, each part on a line of its own. -/
def bracket (opening closing : String) (depth : Nat) (parts : List String) : String :=
  let margin (depth : Nat) := "\n" ++ String.ofList (List.replicate (2 * depth) ' ')
  if parts.isEmpty then opening ++ closing
  else
    opening ++ margin (depth + 1) ++ (("," ++ margin (depth + 1)).intercalate parts) ++
      margin depth ++ closing

mutual

/-- A value over several lines, at a depth. -/
def prettyAt (depth : Nat) : Json → String
  | array items => bracket "[" "]" depth (prettyItems (depth + 1) items)
  | object members => bracket "\x7b" "\x7d" depth (prettyMembers (depth + 1) members)
  | value => scalarText value

def prettyItems (depth : Nat) : List Json → List String
  | [] => []
  | item :: items => prettyAt depth item :: prettyItems depth items

def prettyMembers (depth : Nat) : List (String × Json) → List String
  | [] => []
  | (name, value) :: members =>
    (quote name ++ ": " ++ prettyAt depth value) :: prettyMembers depth members

end

def pretty (value : Json) : String := prettyAt 0 value

mutual

def compact : Json → String
  | string value => quoteWith asciiEscape value
  | array items => "[" ++ ",".intercalate (compactItems items) ++ "]"
  | object members => "\x7b" ++ ",".intercalate (compactMembers members) ++ "\x7d"
  | value => scalarText value

def compactItems : List Json → List String
  | [] => []
  | item :: items => item.compact :: compactItems items

def compactMembers : List (String × Json) → List String
  | [] => []
  | (name, value) :: members =>
    (quoteWith asciiEscape name ++ ":" ++ value.compact) :: compactMembers members

end

end Campaign.Json
