import Campaign.Number.Word
import Campaign.Template.Basic

/-!
# Counting variations

The number of texts a template can expand to: groups multiply, alternatives add. The count is kept
in a 64-bit counter that stays at its greatest value once it would pass it. An alternative and a
group count for at least one each, and a text without an opening brace is not read at all.
-/

namespace Campaign

/-- The sum, or the greatest counter when it is past that. -/
def saturatingAdd (a b : Nat) : Nat := min (a + b) wordMax

/-- The product, or the greatest counter when it is past that. -/
def saturatingMul (a b : Nat) : Nat := min (a * b) wordMax

namespace Template

/-- The variations of a group from those of its alternatives. -/
def groupVariations (alternatives : Pieces Nat) : Nat :=
  max 1 ((alternatives.toList.map (max 1)).foldl saturatingAdd 0)

/-- The variations of each piece of a template, which has several pieces only inside a group. -/
def pieceVariations (inside : Bool) : Template → Pieces Nat
  | empty => .single 1
  | char c rest =>
    if cuts inside c then (rest.pieceVariations inside).cut 1 c else rest.pieceVariations inside
  | group content rest =>
    (rest.pieceVariations inside).mapFirst
      (saturatingMul (groupVariations (content.pieceVariations true)))

def variations (t : Template) : Nat := (t.pieceVariations false).first

end Template

/-- The number of variations of a text, one for a text that nests too deep. -/
def countVariations (text : List Char) : Nat :=
  if '{' ∈ text then
    match Template.parse text with
    | .ok t => t.variations
    | .error _ => 1
  else 1

end Campaign
