import Campaign.Brace.Close
import Campaign.Brace.Split
import Campaign.Text.Blank

/-!
# Folding alternatives into one text

Several alternatives are kept as one text by putting them into a group, and taken out again by
splitting that group at its top level. Taking out trims the alternatives and drops blank ones.
-/

namespace Campaign

open Text Brace

/-- One text for a list of alternatives: a group of them, or the only one as it is. -/
def fold : List (List Char) → List Char
  | [] => []
  | [only] => only
  | many => '{' :: ['/'].intercalate many ++ ['}']

/-- The alternatives that a text holds: those of the group that encloses it, or else the text as a
whole, trimmed and without blank ones. -/
def unfold (text : List Char) : List (List Char) :=
  let trimmed := trim text
  if trimmed.isEmpty then []
  else if isWrapped trimmed then
    ((split trimmed.tail.dropLast).toList.map trim).filter (!·.isEmpty)
  else [trimmed]

end Campaign
