import Campaign.Text.Bytes

/-!
# Matching braces

An opening brace is matched by the closing brace that first brings the balance of braces back to
where it was. `findClose?` looks for that brace from one position; `closes` answers for every
position of a text in a single pass, which keeps the opening braces that wait for a closing one on a
stack.
-/

namespace Campaign.Brace

open Text

/-- How many bytes it takes to read past the closing brace that matches the one just opened, when
`inner` further braces are open. -/
def closeWithin? : Nat → List Char → Option Nat
  | _, [] => none
  | inner, c :: rest =>
    if c = '}' then
      match inner with
      | 0 => some 1
      | inner + 1 => (closeWithin? inner rest).map (· + 1)
    else (closeWithin? (if c = '{' then inner + 1 else inner) rest).map (· + c.utf8Size)

/-- The byte position just after the brace that matches the one opened at a position; nothing when
no brace opens there or it is never closed. -/
def findClose? (text : List Char) (start : Nat) : Option Nat :=
  match fromByte? text start with
  | some ('{' :: rest) => (closeWithin? 0 rest).map (start + 1 + ·)
  | _ => none

/-- Whether a single matched pair of braces encloses the whole text. -/
def isWrapped (text : List Char) : Bool := findClose? text 0 == some (byteLength text)

/-- What a pass over a text knows behind the part that it has read. -/
structure Pass where
  /-- The byte position after that part. -/
  position : Nat
  /-- The byte positions of the opening braces that wait for a partner, the last one first. -/
  waiting : List Nat
  /-- For each byte of the text, the end of the group that opens there. -/
  ends : Array (Option Nat)

/-- A closing brace is the partner of the last opening brace that waits, if any does. -/
def Pass.step (p : Pass) (c : Char) : Pass :=
  let after := p.position + c.utf8Size
  if c = '{' then { p with position := after, waiting := p.position :: p.waiting }
  else if c = '}' then
    match p.waiting with
    | [] => { p with position := after }
    | start :: waiting => ⟨after, waiting, p.ends.setIfInBounds start (some after)⟩
  else { p with position := after }

/-- A pass over a text of some length, before its start. -/
def Pass.start (length : Nat) : Pass := ⟨0, [], Array.replicate length none⟩

/-- For each byte of a text, the position after the brace that matches the one opened there. -/
def closes (text : List Char) : List (Option Nat) :=
  (text.foldl Pass.step (.start (byteLength text))).ends.toList

end Campaign.Brace
