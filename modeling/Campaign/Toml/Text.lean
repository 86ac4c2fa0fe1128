import Campaign.Number.Decimal

/-!
# Strings, keys and blanks of TOML

Strings stand between double quotes, with escapes, or between single quotes, as they are; three
quotes instead of one let a string run over lines. A key is a bare word or a string on one line, and
several keys with dots between them make a path.
-/

namespace Campaign.Toml

/-- Whether a character is a blank within a line. -/
def isSpace (c : Char) : Bool := c = ' ' || c = '\t'

/-- The text without the blanks in front. -/
def skipSpaces (text : List Char) : List Char := text.dropWhile isSpace

/-- Whether a character may stand in a comment, or unescaped in a string if it is no delimiter. -/
def isPlain (c : Char) : Bool := c = '\t' || (0x20 ≤ c.toNat && c.toNat ≠ 0x7F)

/-- What follows the end of a line. -/
def newline? : List Char → Option (List Char)
  | '\n' :: rest => some rest
  | '\r' :: '\n' :: rest => some rest
  | _ => none

/-- The text without the comment in front, if there is one. -/
def skipComment : List Char → List Char
  | '#' :: rest => rest.dropWhile isPlain
  | rest => rest

/-- What follows a line that holds nothing more than blanks and a comment. -/
def lineEnd? (text : List Char) : Option (List Char) :=
  match skipComment (skipSpaces text) with
  | [] => some []
  | rest => newline? rest

/-- The text without the blanks, line ends and comments in front, line by line. -/
def skipLines : (lines : Nat) → List Char → List Char
  | 0, text => text
  | lines + 1, text =>
    let rest := skipComment (skipSpaces text)
    match newline? rest with
    | some rest => skipLines lines rest
    | none => rest

/-- The text without the blanks, line ends and comments in front. -/
def skipGap (text : List Char) : List Char := skipLines (text.length + 1) text

def push (c : Char) (string : Option (List Char × List Char)) : Option (List Char × List Char) :=
  string.map fun (chars, rest) => (c :: chars, rest)

/-- The character that a one-letter escape stands for. -/
def shortEscape? : Char → Option Char
  | '"' => some '"'
  | '\\' => some '\\'
  | 'b' => some '\x08'
  | 't' => some '\t'
  | 'n' => some '\n'
  | 'f' => some '\x0c'
  | 'r' => some '\r'
  | _ => none

/-- The character with a number in hexadecimal digits. -/
def codeEscape? (digits : List Char) : Option Char :=
  let n := ofDigits 16 digits
  if digits.all isHexDigit && n.isValidChar then some (Char.ofNat n) else none

/-- Ends a string of several lines, whose three closing quotes have been read: quotes after them, up
to two, belong to it. -/
def closeLong (quote : Char) : List Char → List Char × List Char
  | [] => ([], [])
  | c :: rest =>
    if c ≠ quote then ([], c :: rest)
    else
      match rest with
      | d :: after => if d = quote then ([quote, quote], after) else ([quote], rest)
      | [] => ([quote], [])

/-- Where a string stands with respect to a backslash at the end of a line. -/
inductive Joining where
  /-- Apart from one. -/
  | off
  /-- Between one and the end of its line. -/
  | before
  /-- Past the end of its line, where blanks and line ends are passed over. -/
  | after
  deriving DecidableEq

/-- Whether a text starts with a blank or the end of a line. -/
def startsGap (text : List Char) : Bool := text.head?.any fun c => isSpace c || c = '\n' || c = '\r'

/-- A string whose opening double quotes have been read, up to its closing ones. -/
def readBasic? (long : Bool) : Joining → List Char → Option (List Char × List Char)
  | _, [] => none
  | joining, c :: rest =>
    if joining = .before then
      if isSpace c then readBasic? long .before rest
      else if c = '\n' then readBasic? long .after rest
      else if c = '\r' then
        match rest with
        | '\n' :: rest => readBasic? long .after rest
        | _ => none
      else none
    else if joining = .after && (isSpace c || c = '\n') then readBasic? long .after rest
    else if c = '\r' then
      match rest with
      | '\n' :: rest =>
        if !long then none
        else if joining = .after then readBasic? long .after rest
        else push '\n' (readBasic? long .off rest)
      | _ => none
    else if c = '\n' then if long then push '\n' (readBasic? long .off rest) else none
    else if c = '"' then
      if !long then some ([], rest)
      else
        match rest with
        | '"' :: '"' :: rest => some (closeLong '"' rest)
        | _ => push '"' (readBasic? long .off rest)
    else if c = '\\' && long && startsGap rest then readBasic? long .before rest
    else if c = '\\' then
      match rest with
      | 'u' :: a :: b :: c :: d :: rest =>
        match codeEscape? [a, b, c, d] with
        | some code => push code (readBasic? long .off rest)
        | none => none
      | 'U' :: a :: b :: c :: d :: e :: f :: g :: h :: rest =>
        match codeEscape? [a, b, c, d, e, f, g, h] with
        | some code => push code (readBasic? long .off rest)
        | none => none
      | d :: after =>
        match shortEscape? d with
        | some code => push code (readBasic? long .off after)
        | none => none
      | [] => none
    else if isPlain c then push c (readBasic? long .off rest)
    else none

/-- A string whose opening single quotes have been read, up to its closing ones. -/
def readLiteral? (long : Bool) : List Char → Option (List Char × List Char)
  | [] => none
  | c :: rest =>
    if c = '\'' then
      if !long then some ([], rest)
      else
        match rest with
        | '\'' :: '\'' :: rest => some (closeLong '\'' rest)
        | _ => push '\'' (readLiteral? long rest)
    else if c = '\r' then
      match rest with
      | '\n' :: rest => if long then push '\n' (readLiteral? long rest) else none
      | _ => none
    else if c = '\n' then if long then push '\n' (readLiteral? long rest) else none
    else if isPlain c then push c (readLiteral? long rest)
    else none

/-- The text without the line end in front, if there is one. -/
def skipNewline (text : List Char) : List Char := (newline? text).getD text

/-- A string, if the text starts with one. -/
def readString? : List Char → Option (List Char × List Char)
  | '"' :: '"' :: '"' :: rest => readBasic? true .off (skipNewline rest)
  | '"' :: rest => readBasic? false .off rest
  | '\'' :: '\'' :: '\'' :: rest => readLiteral? true (skipNewline rest)
  | '\'' :: rest => readLiteral? false rest
  | _ => none

/-- Whether a character may stand in a bare key. -/
def isBare (c : Char) : Bool := c.isAlphanum || c = '_' || c = '-'

def readKey? : List Char → Option (String × List Char)
  | '"' :: rest => (readBasic? false .off rest).map fun (chars, rest) => (String.ofList chars, rest)
  | '\'' :: rest => (readLiteral? false rest).map fun (chars, rest) => (String.ofList chars, rest)
  | text =>
    let (bare, rest) := text.span isBare
    if bare.isEmpty then none else some (String.ofList bare, rest)

/-- A path of at most `parts` keys with dots between them, and blanks around each. -/
def readPath? : (parts : Nat) → List Char → Option (List String × List Char)
  | 0, _ => none
  | parts + 1, text => do
    let (key, rest) ← readKey? (skipSpaces text)
    match skipSpaces rest with
    | '.' :: rest => (readPath? parts rest).map fun (path, rest) => (key :: path, rest)
    | rest => some ([key], rest)

end Campaign.Toml
