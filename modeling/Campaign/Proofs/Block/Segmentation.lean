import Campaign.Proofs.Count.Variations
import Campaign.Proofs.Template.Depth
import Campaign.Proofs.Template.Splitting
import Campaign.Template.Block
import Mathlib.Data.List.Chain

/-!
# Segmentation

The blocks of a text are the literal runs and the groups at its top level. Each of them, cut out
and read alone, is a template that has this one block: a literal run has no pair of braces, because
in it the loose closing braces come before the opening ones, and a group is as deep alone as it was
in the text. So blocks are stable, and their counts multiply to the count of the text.
-/

namespace Campaign

open Brace

namespace Block

/-- The variations of a group; a literal run has none to count. -/
def count? : Block → Option Nat
  | literal _ => none
  | group _ _ count => some count

/-- A character in front of blocks joins a literal run or becomes one of its own. -/
theorem consChar_cases (c : Char) (blocks : List Block) :
    (∃ text later, blocks = literal text :: later ∧
        consChar c blocks = literal (c :: text) :: later) ∨
      ((∀ b ∈ blocks.head?, b.isGroup) ∧ consChar c blocks = literal [c] :: blocks) := by
  cases blocks with
  | nil => exact Or.inr ⟨by simp, rfl⟩
  | cons b blocks =>
      cases b with
      | literal text => exact Or.inl ⟨text, blocks, rfl, rfl⟩
      | group raw alternatives count => exact Or.inr ⟨by simp [isGroup], rfl⟩

/-- Whether two blocks can stand next to each other. -/
def Adjacent (a b : Block) : Prop := a.isGroup ∨ b.isGroup

theorem isChain_consChar (c : Char) {blocks : List Block} (h : blocks.IsChain Adjacent) :
    (consChar c blocks).IsChain Adjacent := by
  rcases consChar_cases c blocks with ⟨text, later, rfl, hcons⟩ | ⟨hhead, hcons⟩
  · rw [hcons]
    rw [List.isChain_cons] at h ⊢
    exact h
  · rw [hcons, List.isChain_cons]
    exact ⟨fun b hb => Or.inr (hhead b hb), h⟩

theorem filterMap_count_consChar (c : Char) (blocks : List Block) :
    (consChar c blocks).filterMap count? = blocks.filterMap count? := by
  rcases consChar_cases c blocks with ⟨text, later, rfl, hcons⟩ | ⟨_, hcons⟩ <;> rw [hcons] <;> rfl

/-- The blocks of a text lose nothing of it, no two literal runs meet, each block is the only one
of its own text, and the counts agree with the count of the text. -/
structure Segments (text : List Char) (blocks : List Block) : Prop where
  flatMap_raw : blocks.flatMap raw = text
  raw_ne_nil : ∀ b ∈ blocks, b.raw ≠ []
  isChain : blocks.IsChain Adjacent
  segment_raw : ∀ b ∈ blocks, segment b.raw = [b]
  group_eq : ∀ raw alternatives count, group raw alternatives count ∈ blocks → ∃ inner,
    raw = '{' :: inner ++ ['}'] ∧ alternatives = (split inner).toList ∧
      count = countVariations raw
  product_eq : (blocks.filterMap count?).foldl saturatingMul 1 = countVariations text

end Block

theorem segment_of_ok {text : List Char} {t : Template} (h : Template.parse text = .ok t) :
    segment text = t.blocks := by
  rw [segment, h]

/-- A text that nests too deep is one literal block, and it is not empty. -/
theorem segment_of_error {text : List Char} {e : Template.NestingError}
    (h : Template.parse text = .error e) : text ≠ [] ∧ segment text = [.literal text] := by
  have hne : text ≠ [] := by
    rintro rfl
    cases h
  refine ⟨hne, ?_⟩
  rw [segment, h]
  exact if_neg (by rwa [List.isEmpty_iff])

open Block

namespace Template

/-- No two literal runs of a template meet. -/
theorem isChain_blocks (t : Template) : t.blocks.IsChain Adjacent := by
  induction t with
  | empty => exact List.isChain_nil
  | char c rest ih => exact isChain_consChar c ih
  | group content rest _ ih => exact List.isChain_cons.mpr ⟨fun _ _ => Or.inl rfl, ih⟩

/-- A block of one template is the only block of another, which has loose braces and groups only
where the first one has them. -/
structure Isolates (t : Template) (b : Block) (alone : Template) : Prop where
  blocks_eq : alone.blocks = [b]
  render_eq : alone.render = b.raw
  depth_le : alone.depth ≤ t.depth
  opening : t.Opening → alone.Opening
  canonical : t.Canonical → alone.Canonical

namespace Isolates

variable {content rest alone : Template} {b : Block}

theorem behind_char (h : rest.Isolates b alone) (c : Char) : (char c rest).Isolates b alone :=
  ⟨h.blocks_eq, h.render_eq, h.depth_le, fun ht => h.opening ht.2, fun ht => h.canonical ht.2⟩

theorem behind_group (h : rest.Isolates b alone) (content : Template) :
    (group content rest).Isolates b alone :=
  ⟨h.blocks_eq, h.render_eq, Nat.le_trans h.depth_le (Nat.le_max_right _ _),
    fun ht => h.opening ht.2, fun ht => h.canonical ht.2⟩

/-- A run with a character more is as canonical as what it stands in, whose loose closing braces
come first. -/
theorem joined {text : List Char} (h : rest.Isolates (literal text) alone) (c : Char) :
    (char c rest).Isolates (literal (c :: text)) (char c alone) := by
  refine ⟨?_, congrArg (c :: ·) h.render_eq, h.depth_le, ?_, ?_⟩
  · rw [blocks, h.blocks_eq]
    rfl
  · exact fun ht => ⟨ht.1, h.opening ht.2⟩
  · exact fun ht => ⟨fun hc => h.opening (ht.1 hc), h.canonical ht.2⟩

theorem single (c : Char) (rest : Template) :
    (char c rest).Isolates (literal [c]) (char c empty) :=
  ⟨rfl, rfl, Nat.zero_le _, fun ht => ⟨ht.1, trivial⟩, fun _ => ⟨fun _ => trivial, trivial⟩⟩

theorem of_group (content rest : Template) :
    (group content rest).Isolates
      (.group ('{' :: content.render ++ ['}']) content.pieces.toList
        (groupVariations (content.pieceVariations true))) (group content empty) := by
  refine ⟨rfl, rfl, ?_, fun ht => ⟨ht.1, trivial⟩, fun ht => ⟨ht.1, trivial⟩⟩
  rw [depth, depth, depth]
  omega

end Isolates

/-- Every block of a template can be isolated. -/
theorem exists_isolates {t : Template} {b : Block} (hb : b ∈ t.blocks) :
    ∃ alone, t.Isolates b alone := by
  induction t generalizing b with
  | empty => cases hb
  | char c rest ih =>
      rw [blocks] at hb
      -- The character joins a literal block behind it and is a block of its own otherwise.
      rcases consChar_cases c rest.blocks with ⟨text, later, heq, hcons⟩ | ⟨_, hcons⟩
      · rw [heq] at ih
        rw [hcons] at hb
        rcases List.mem_cons.mp hb with rfl | hb
        · obtain ⟨alone, h⟩ := ih List.mem_cons_self
          exact ⟨char c alone, h.joined c⟩
        · obtain ⟨alone, h⟩ := ih (List.mem_cons_of_mem _ hb)
          exact ⟨alone, h.behind_char c⟩
      · rw [hcons] at hb
        rcases List.mem_cons.mp hb with rfl | hb
        · exact ⟨char c empty, .single c rest⟩
        · obtain ⟨alone, h⟩ := ih hb
          exact ⟨alone, h.behind_char c⟩
  | group content rest _ ih =>
      rcases List.mem_cons.mp hb with rfl | hb
      · exact ⟨group content empty, .of_group content rest⟩
      · obtain ⟨alone, h⟩ := ih hb
        exact ⟨alone, h.behind_group content⟩

/-- How many texts each group at the top of a template expands to. -/
def groupChoices : Template → List Nat
  | empty => []
  | char _ rest => rest.groupChoices
  | group content rest =>
    (content.alternatives.toList.map fun a => a.allExpansions.length).sum :: rest.groupChoices

theorem groupChoices_pos (t : Template) : ∀ n ∈ t.groupChoices, 0 < n := by
  induction t with
  | empty => exact List.forall_mem_nil _
  | char c rest ih => exact ih
  | group content rest _ ih =>
      exact List.forall_mem_cons.mpr
        ⟨content.alternatives.sum_map_pos length_allExpansions_pos, ih⟩

/-- A template expands to as many texts as its groups have choices, multiplied. -/
theorem prod_groupChoices (t : Template) : t.groupChoices.prod = t.allExpansions.length := by
  induction t with
  | empty => rw [allExpansions_empty]; rfl
  | char c rest ih => rw [length_allExpansions_char]; exact ih
  | group content rest _ ih =>
      rw [groupChoices, List.prod_cons, ih, length_allExpansions_group]

/-- A group counts what its alternatives expand to together. -/
theorem groupVariations_content (content : Template) :
    groupVariations (content.pieceVariations true) =
      clamp (content.alternatives.toList.map fun a => a.allExpansions.length).sum := by
  rw [pieceVariations_eq, sections_true, groupVariations_map_clamp length_allExpansions_pos]

/-- The counts of the blocks are those of the groups at the top. -/
theorem filterMap_count_blocks (t : Template) :
    t.blocks.filterMap count? = t.groupChoices.map clamp := by
  induction t with
  | empty => rfl
  | char c rest ih => rw [blocks, filterMap_count_consChar, ih, groupChoices]
  | group content rest _ ih =>
      rw [blocks, groupVariations_content, groupChoices, List.map_cons, ← ih]
      rfl

/-- The counts of the blocks, multiplied in the counter, make the count of the template. -/
theorem product_blocks (t : Template) :
    (t.blocks.filterMap count?).foldl saturatingMul 1 = t.variations := by
  have hproduct := foldl_saturatingMul_clamp t.groupChoices_pos Nat.one_pos
  rw [Nat.one_mul, prod_groupChoices] at hproduct
  rw [filterMap_count_blocks, variations_eq]
  exact hproduct

/-- A block that comes first and is a group is the group that the template starts with. -/
theorem exists_content_of_blocks {t : Template} {raw : List Char}
    {alternatives : List (List Char)} {count : Nat} {later : List Block}
    (h : t.blocks = .group raw alternatives count :: later) :
    ∃ content rest, t = group content rest ∧ raw = '{' :: content.render ++ ['}'] ∧
      alternatives = content.pieces.toList ∧
        count = groupVariations (content.pieceVariations true) := by
  cases t with
  | empty => cases h
  | char c rest =>
      rw [blocks] at h
      rcases consChar_cases c rest.blocks with ⟨text, later, _, hcons⟩ | ⟨_, hcons⟩ <;>
        cases hcons.symm.trans h
  | group content rest =>
      obtain ⟨hraw, halternatives, hcount⟩ := Block.group.inj (List.cons.inj h).1
      exact ⟨content, rest, rfl, hraw.symm, halternatives.symm, hcount.symm⟩

section Parsed

variable {text : List Char} {t : Template} (h : parse text = .ok t) {b : Block} (hb : b ∈ t.blocks)
include h hb

/-- A block's own text parses, to a template that has this block only. -/
theorem exists_parse_of_mem_blocks :
    ∃ alone, parse b.raw = .ok alone ∧ alone.blocks = [b] ∧ alone.Canonical := by
  obtain ⟨alone, halone⟩ := exists_isolates hb
  have hcanonical := halone.canonical (canonical_of_parse h)
  have hdepth := Nat.le_trans halone.depth_le (parse_eq_ok_iff_depth.mp h).2
  exact ⟨alone, halone.render_eq ▸ hcanonical.parse_render hdepth, halone.blocks_eq, hcanonical⟩

/-- The text of a block, segmented again, is this block alone. -/
theorem segment_raw_of_mem_blocks : segment b.raw = [b] := by
  obtain ⟨u, hparse, hblocks, _⟩ := exists_parse_of_mem_blocks h hb
  rw [segment_of_ok hparse, hblocks]

theorem raw_ne_nil_of_mem_blocks : b.raw ≠ [] := by
  intro hnil
  have hsegment := segment_raw_of_mem_blocks h hb
  rw [hnil] at hsegment
  cases hsegment

/-- A group among the blocks has the pieces and the count of its own text. -/
theorem group_eq_of_mem_blocks {raw : List Char} {alternatives : List (List Char)} {count : Nat}
    (heq : b = .group raw alternatives count) : ∃ inner, raw = '{' :: inner ++ ['}'] ∧
      alternatives = (split inner).toList ∧ count = countVariations raw := by
  obtain ⟨u, hparse, hblocks, hcanonical⟩ := exists_parse_of_mem_blocks h hb
  rw [heq] at hparse hblocks
  obtain ⟨content, rest, rfl, hraw, halternatives, hcount⟩ := exists_content_of_blocks hblocks
  refine ⟨content.render, hraw, ?_, ?_⟩
  · rw [halternatives, hcanonical.1.split_render]
    rfl
  · -- The product of the counts of one block is its count, which the counter can hold.
    have hproduct := product_blocks (group content rest)
    have hle : count ≤ wordMax := by
      rw [hcount, groupVariations_content]
      exact Nat.min_le_right _ _
    have hcounted : countVariations raw = min (1 * count) wordMax := by
      rw [hblocks] at hproduct
      exact (countVariations_of_ok hparse).trans hproduct.symm
    omega

end Parsed

end Template

/-- Segmentation loses nothing, is stable on its own blocks and agrees with splitting and counting,
for texts that nest too deep as well. -/
theorem segment_segments (text : List Char) : Segments text (segment text) := by
  cases hparse : Template.parse text with
  | ok t =>
      rw [segment_of_ok hparse]
      exact {
        flatMap_raw := by rw [t.flatMap_raw_blocks, Template.render_of_parse hparse]
        raw_ne_nil := fun _ hb => Template.raw_ne_nil_of_mem_blocks hparse hb
        isChain := t.isChain_blocks
        segment_raw := fun _ hb => Template.segment_raw_of_mem_blocks hparse hb
        group_eq := fun _ _ _ hb => Template.group_eq_of_mem_blocks hparse hb rfl
        product_eq := by rw [t.product_blocks, countVariations_of_ok hparse] }
  | error e =>
      obtain ⟨hne, hsegment⟩ := segment_of_error hparse
      rw [hsegment]
      exact {
        flatMap_raw := List.append_nil text
        raw_ne_nil := List.forall_mem_singleton.mpr hne
        isChain := List.isChain_singleton _
        segment_raw := List.forall_mem_singleton.mpr hsegment
        group_eq := fun _ _ _ hb => Block.noConfusion (List.mem_singleton.mp hb)
        product_eq := (countVariations_of_error hparse).symm }

end Campaign
