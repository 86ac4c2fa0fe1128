/-!
# Numbers as text

Decimal numerals, the integers and doubles they stand for, and the double nearest to an integer. A
numeral is read exactly and rounded once, to the nearest double with ties to the even one.
-/

namespace Campaign

/-- The double nearest to an integer. -/
def nearest (n : Int) : Float := .ofModel (.ofInt n)

/-- The value of a hexadecimal digit. -/
def digitValue (c : Char) : Nat :=
  if c.isDigit then c.toNat - '0'.toNat
  else if 'a' ≤ c && c ≤ 'f' then c.toNat - 'a'.toNat + 10
  else c.toNat - 'A'.toNat + 10

/-- Whether a character is a hexadecimal digit. -/
def isHexDigit (c : Char) : Bool :=
  c.isDigit || ('a' ≤ c && c ≤ 'f') || ('A' ≤ c && c ≤ 'F')

/-- The natural number that digits spell in a base. -/
def ofDigits (base : Nat) (digits : List Char) : Nat :=
  digits.foldl (fun n c => n * base + digitValue c) 0

/-- A number `± coefficient * 10 ^ exponent`. -/
structure Decimal where
  /-- Whether the sign is minus, which zero may have too. -/
  negative : Bool
  coefficient : Nat
  exponent : Int

namespace Decimal

/-- The decimal with digits before and after its point and an exponent. -/
def ofParts (negative : Bool) (whole fraction : List Char) (exponent : Int) : Decimal :=
  ⟨negative, ofDigits 10 (whole ++ fraction), exponent - fraction.length⟩

/-- The nearest double. -/
def toFloat (d : Decimal) : Float :=
  let magnitude :=
    if 0 ≤ d.exponent then Float.ofScientific d.coefficient false d.exponent.toNat
    else Float.ofScientific d.coefficient true (-d.exponent).toNat
  if d.negative then -magnitude else magnitude

end Decimal

/-- A sign, if there is one, and what follows; whether it is a minus sign. -/
def takeSign : List Char → Bool × List Char
  | '-' :: rest => (true, rest)
  | '+' :: rest => (false, rest)
  | rest => (false, rest)

/-- The exponent of a numeral: nothing, or an `e` with an optional sign and digits. -/
def readExponent? : List Char → Option Int
  | [] => some 0
  | c :: rest =>
    if c = 'e' || c = 'E' then
      let (negative, digits) := takeSign rest
      if digits.isEmpty || !digits.all Char.isDigit then none
      else some (if negative then -(ofDigits 10 digits : Int) else ofDigits 10 digits)
    else none

/-- A double from its text: an optional sign before a decimal numeral, `inf`, `infinity` or `nan`,
the words in any case. The numeral has digits on at least one side of its point, and may leave out
the point and the exponent. -/
def readFloat? (text : List Char) : Option Float :=
  let (negative, unsigned) := takeSign text
  let signed (x : Float) := if negative then -x else x
  let word := unsigned.map Char.toLower
  if word = "inf".toList || word = "infinity".toList then some (signed (1.0 / 0.0))
  else if word = "nan".toList then some (0.0 / 0.0)
  else
    let (whole, rest) := unsigned.span Char.isDigit
    let (fraction, rest) :=
      match rest with
      | '.' :: rest => rest.span Char.isDigit
      | rest => ([], rest)
    if whole.isEmpty && fraction.isEmpty then none
    else (readExponent? rest).map fun e => (Decimal.ofParts negative whole fraction e).toFloat

/-- A natural number no greater than a limit from its text, which may have a plus sign. -/
def readNat? (limit : Nat) (text : List Char) : Option Nat :=
  let digits := match text with
    | '+' :: rest => rest
    | rest => rest
  if digits.isEmpty || !digits.all Char.isDigit then none
  else if ofDigits 10 digits ≤ limit then some (ofDigits 10 digits) else none

/-- An integer between two limits from its text, which may have a sign. -/
def readInt? (least greatest : Int) (text : List Char) : Option Int :=
  let (negative, digits) := takeSign text
  if digits.isEmpty || !digits.all Char.isDigit then none
  else
    let n : Int := if negative then -(ofDigits 10 digits : Int) else ofDigits 10 digits
    if least ≤ n && n ≤ greatest then some n else none

end Campaign
