import Campaign.Number.Decimal
import Campaign.Number.Word
import Campaign.Toml.Basic

/-!
# Words of TOML

Numbers, dates, times and truth values are words: the run of characters that such a value can hold
is read as one of them or not at all. A date may have its time after a single blank.
-/

namespace Campaign.Toml

/-- The digits of a word without its underscores, each of which stands between two digits. -/
def plainDigits? (isDigit : Char → Bool) : List Char → Option (List Char)
  | [] => none
  | [c] => if isDigit c then some [c] else none
  | c :: d :: rest =>
    if !isDigit c then none
    else if d = '_' then (plainDigits? isDigit rest).map (c :: ·)
    else (plainDigits? isDigit (d :: rest)).map (c :: ·)

/-- The digits of a decimal integer, which starts with a zero only if it is zero. -/
def decimalDigits? (text : List Char) : Option (List Char) :=
  if text.head? = some '0' && text.length ≠ 1 then none else plainDigits? Char.isDigit text

def isOctalDigit (c : Char) : Bool := '0' ≤ c && c ≤ '7'

def isBinaryDigit (c : Char) : Bool := c = '0' || c = '1'

/-- An integer of 64 bits. -/
def integer? (text : List Char) : Option Int := do
  let n : Int ← match text with
    | '0' :: 'x' :: digits => (plainDigits? isHexDigit digits).map fun d => (ofDigits 16 d : Int)
    | '0' :: 'o' :: digits => (plainDigits? isOctalDigit digits).map fun d => (ofDigits 8 d : Int)
    | '0' :: 'b' :: digits => (plainDigits? isBinaryDigit digits).map fun d => (ofDigits 2 d : Int)
    | text =>
      let (negative, digits) := takeSign text
      (decimalDigits? digits).map fun d =>
        if negative then -(ofDigits 10 d : Int) else (ofDigits 10 d : Int)
  if int64Min ≤ n && n ≤ int64Max then some n else none

def isDigitOrUnderscore (c : Char) : Bool := c.isDigit || c = '_'

/-- The digits after a point, none without a point, and what follows. -/
def fraction? : List Char → Option (List Char × List Char)
  | '.' :: rest =>
    let (digits, rest) := rest.span isDigitOrUnderscore
    (plainDigits? Char.isDigit digits).map (·, rest)
  | rest => some ([], rest)

/-- The exponent that ends a number, zero where there is none. -/
def exponent? : List Char → Option Int
  | [] => some 0
  | c :: rest =>
    if c = 'e' || c = 'E' then
      let (negative, digits) := takeSign rest
      (plainDigits? Char.isDigit digits).map fun d =>
        if negative then -(ofDigits 10 d : Int) else (ofDigits 10 d : Int)
    else none

/-- A double: a decimal number with a point, an exponent or both, or a word for one that is not
finite. A number too great for a double is refused, one too far below zero is not. -/
def float? (text : List Char) : Option Float := do
  let (negative, unsigned) := takeSign text
  if unsigned = "inf".toList then
    return if negative then -(1.0 / 0.0) else 1.0 / 0.0
  if unsigned = "nan".toList then
    return 0.0 / 0.0
  let (whole, rest) := unsigned.span isDigitOrUnderscore
  guard (!rest.isEmpty)
  let whole ← decimalDigits? whole
  let (fraction, rest) ← fraction? rest
  let exponent ← exponent? rest
  let x := (Decimal.ofParts negative whole fraction exponent).toFloat
  if x.isInf && !negative then none else return x

def twoDigits? (least greatest : Nat) (a b : Char) : Option Nat :=
  let n := ofDigits 10 [a, b]
  if a.isDigit && b.isDigit && least ≤ n && n ≤ greatest then some n else none

def daysInMonth (year month : Nat) : Nat :=
  let leap := year % 4 = 0 && (year % 100 ≠ 0 || year % 400 = 0)
  if month = 2 then if leap then 29 else 28
  else if month = 4 || month = 6 || month = 9 || month = 11 then 30
  else 31

def date? : List Char → Option (List Char)
  | y1 :: y2 :: y3 :: y4 :: '-' :: m1 :: m2 :: '-' :: d1 :: d2 :: rest => do
    guard ([y1, y2, y3, y4].all Char.isDigit)
    let month ← twoDigits? 1 12 m1 m2
    let _ ← twoDigits? 1 (daysInMonth (ofDigits 10 [y1, y2, y3, y4]) month) d1 d2
    return rest
  | _ => none

def time? : List Char → Option (List Char)
  | h1 :: h2 :: ':' :: m1 :: m2 :: ':' :: s1 :: s2 :: rest => do
    let _ ← twoDigits? 0 23 h1 h2
    let _ ← twoDigits? 0 59 m1 m2
    let _ ← twoDigits? 0 60 s1 s2
    match rest with
    | '.' :: c :: rest => if c.isDigit then return rest.dropWhile Char.isDigit else none
    | rest => return rest
  | _ => none

/-- Whether a text is nothing or an offset from universal time. -/
def isOffset : List Char → Bool
  | [] => true
  | [c] => c = 'Z' || c = 'z'
  | [sign, h1, h2, ':', m1, m2] =>
    (sign = '+' || sign = '-') && (twoDigits? 0 23 h1 h2).isSome && (twoDigits? 0 59 m1 m2).isSome
  | _ => false

/-- Whether a text is a time of day, with an offset or without. -/
def isTimeWithOffset (text : List Char) : Bool := (time? text).any isOffset

def isDate (text : List Char) : Bool := (date? text).any List.isEmpty

/-- Whether a text is a time of day, or a date with or without one. -/
def isMoment (text : List Char) : Bool :=
  (time? text).any List.isEmpty ||
    match date? text with
    | some [] => true
    | some (c :: rest) => (c = 'T' || c = 't') && isTimeWithOffset rest
    | none => false

/-- Whether a character may stand in a word. -/
def isWordChar (c : Char) : Bool :=
  c.isAlphanum || c = '+' || c = '-' || c = '_' || c = '.' || c = ':'

/-- What follows a time of day that stands after a date and a blank, or the text itself. -/
def skipTime (text : List Char) : List Char :=
  match text with
  | ' ' :: rest =>
    let (word, after) := rest.span isWordChar
    if isTimeWithOffset word then after else text
  | _ => text

/-- A word as a value. -/
def readWord? (text : List Char) : Option (Value × List Char) :=
  let (word, rest) := text.span isWordChar
  if word = "true".toList then some (.boolean true, rest)
  else if word = "false".toList then some (.boolean false, rest)
  else if isDate word then some (.moment, skipTime rest)
  else if isMoment word then some (.moment, rest)
  else
    match float? word, integer? word with
    | some x, _ => some (.float x, rest)
    | none, some n => some (.integer n, rest)
    | none, none => none

end Campaign.Toml
