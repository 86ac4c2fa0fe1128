import Campaign.Random.Source
import Campaign.Template.Basic

/-!
# Random expansion

A random expansion resolves groups from the inside out and from left to right: a group's
alternatives are expanded first, all of them, and then one is chosen. Only so many groups are
resolved; the groups after that are written back with the separators they had.
-/

namespace Campaign

/-- The most groups resolved in one expansion. -/
def maxResolved : Nat := 100

/-- Where a random expansion stands. -/
structure Walk where
  source : Source
  resolved : Nat
  truncated : Bool

/-- Resolves a group whose alternatives are expanded, or writes it back when enough groups have
been resolved. -/
def Walk.resolve? (w : Walk) (alternatives : Pieces (List Char)) : Option (List Char × Walk) :=
  if w.resolved < maxResolved then do
    let (i, source) ← w.source.choose? alternatives.toList.length
    return (alternatives.toList.getD i [], { w with source, resolved := w.resolved + 1 })
  else some ('{' :: alternatives.join ++ ['}'], { w with truncated := true })

namespace Template

/-- Expands each piece of a template, which has several pieces only inside a group. -/
def walk? (inside : Bool) : Template → Walk → Option (Pieces (List Char) × Walk)
  | empty, w => some (.single [], w)
  | char c rest, w => do
    let (right, w) ← rest.walk? inside w
    return (if cuts inside c then right.cut [] c else right.mapFirst (c :: ·), w)
  | group content rest, w => do
    let (alternatives, w) ← content.walk? true w
    let (shown, w) ← w.resolve? alternatives
    let (right, w) ← rest.walk? inside w
    return (right.mapFirst (shown ++ ·), w)

end Template

/-- The outcome of a random expansion. -/
structure Sample where
  text : List Char
  resolved : Nat
  truncated : Bool

/-- A random expansion of a template and the source after it; nothing when a choice never
settles. -/
def Template.sample? (t : Template) (source : Source) : Option (Sample × Source) := do
  let (pieces, w) ← t.walk? false ⟨source, 0, false⟩
  return (⟨pieces.first, w.resolved, w.truncated⟩, w.source)

/-- A random expansion of a text. A text without an opening brace and one that nests too deep are
their own expansions. -/
def sampleText? (text : List Char) (source : Source) : Option (List Char × Source) :=
  if '{' ∈ text then
    match Template.parse text with
    | .ok t => (t.sample? source).map fun (s, source) => (s.text, source)
    | .error _ => some (text, source)
  else some (text, source)

end Campaign
