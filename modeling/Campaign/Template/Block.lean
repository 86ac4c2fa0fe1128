import Campaign.Template.Count

/-!
# Blocks

A text cut at the top level into literal runs and groups. A group is shown as written, with its
alternatives as written and the number of its own variations.
-/

namespace Campaign

/-- A piece of a segmented text. -/
inductive Block where
  | literal (text : List Char)
  /-- A group as written, its alternatives as written, and the number of its variations. -/
  | group (raw : List Char) (alternatives : List (List Char)) (count : Nat)
  deriving Repr, DecidableEq

namespace Block

/-- The text that a block covers. -/
def raw : Block → List Char
  | literal text => text
  | group raw _ _ => raw

def isGroup : Block → Bool
  | literal _ => false
  | group _ _ _ => true

/-- Puts a literal character in front of blocks, joining it to a literal run. -/
def consChar (c : Char) : List Block → List Block
  | literal text :: blocks => literal (c :: text) :: blocks
  | blocks => literal [c] :: blocks

end Block

namespace Template

def blocks : Template → List Block
  | empty => []
  | char c rest => Block.consChar c rest.blocks
  | group content rest =>
    .group ('{' :: content.render ++ ['}']) content.pieces.toList
      (groupVariations (content.pieceVariations true)) :: rest.blocks

end Template

/-- The blocks of a text. A text that nests too deep is one literal run. -/
def segment (text : List Char) : List Block :=
  match Template.parse text with
  | .ok t => t.blocks
  | .error _ => if text.isEmpty then [] else [.literal text]

theorem Block.flatMap_raw_consChar (c : Char) (blocks : List Block) :
    (Block.consChar c blocks).flatMap Block.raw = c :: blocks.flatMap Block.raw := by
  unfold Block.consChar
  split <;> simp [Block.raw]

/-- Blocks lose nothing of the template's text. -/
theorem Template.flatMap_raw_blocks (t : Template) : t.blocks.flatMap Block.raw = t.render := by
  induction t with
  | empty => rfl
  | char c rest ih => simp [Template.blocks, Template.render, Block.flatMap_raw_consChar, ih]
  | group content rest _ ih => simp [Template.blocks, Template.render, Block.raw, ih]

end Campaign
