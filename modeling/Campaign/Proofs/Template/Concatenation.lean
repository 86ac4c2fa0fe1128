import Campaign.Proofs.Block.Segmentation
import Campaign.Proofs.Sample.Resuming
import Campaign.Proofs.Template.Literals

/-!
# One text after another

Two texts that are read apart are also counted, enumerated, segmented and expanded apart: the counts
multiply, the expansions of the first are followed by those of the second, the blocks follow one
another, and a random expansion of both draws for the first and then for the second.
-/

namespace Campaign

open Brace Template

/-- Blocks after blocks. Two literal runs that meet at the seam become one. -/
def Block.splice (left right : List Block) : List Block :=
  match left.getLast?, right with
  | some (literal text), literal more :: later => left.dropLast ++ literal (text ++ more) :: later
  | _, _ => left ++ right

namespace Block

theorem splice_nil (right : List Block) : splice [] right = right := by
  cases right <;> rfl

theorem splice_singleton_group (raw : List Char) (alternatives : List (List Char)) (count : Nat)
    (right : List Block) :
    splice [group raw alternatives count] right = group raw alternatives count :: right := by
  cases right <;> rfl

/-- Splicing looks at the last block on the left only. -/
theorem splice_cons_cons (b c : Block) (left right : List Block) :
    splice (b :: c :: left) right = b :: splice (c :: left) right := by
  unfold splice
  rw [List.getLast?_cons_cons, List.dropLast_cons_of_ne_nil (List.cons_ne_nil c left)]
  split <;> rfl

theorem splice_group_cons (raw : List Char) (alternatives : List (List Char)) (count : Nat)
    (left right : List Block) :
    splice (group raw alternatives count :: left) right =
      group raw alternatives count :: splice left right := by
  cases left with
  | nil => rw [splice_singleton_group, splice_nil]
  | cons b left => exact splice_cons_cons _ b left right

/-- A character in front of the first blocks is in front of all. -/
theorem splice_consChar (c : Char) (left right : List Block) :
    splice (consChar c left) right = consChar c (splice left right) := by
  -- Only the last block of the first list meets the second one, so one block is a case apart.
  match left with
  | [] =>
      rw [splice_nil]
      cases right with
      | nil => rfl
      | cons b right => cases b <;> rfl
  | [literal text] =>
      cases right with
      | nil => rfl
      | cons b right => cases b <;> rfl
  | literal text :: b :: left =>
      rw [consChar, splice_cons_cons, splice_cons_cons]
      rfl
  | group raw alternatives count :: left =>
      rw [splice_group_cons, consChar, consChar, splice_cons_cons, splice_group_cons]
      all_goals exact fun _ _ h => Block.noConfusion (List.cons.inj h).1

end Block

namespace Template

/-- The blocks of one template after another are theirs, but for a literal run that crosses the
seam. -/
theorem blocks_append (a b : Template) :
    (a.append b).blocks = Block.splice a.blocks b.blocks := by
  induction a with
  | empty => exact (Block.splice_nil b.blocks).symm
  | char c rest ih => rw [append, blocks, blocks, ih, Block.splice_consChar]
  | group content rest _ ih => rw [append, blocks, blocks, ih, Block.splice_group_cons]

/-- A walk over one template after another walks over the first and then over the second. -/
theorem walk?_append (a b : Template) (w : Walk) :
    (a.append b).walk? false w = (a.walk? false w).bind fun (left, w) =>
      (b.walk? false w).map fun (right, w) => (right.mapFirst (left.first ++ ·), w) := by
  -- Along the first template: outside all groups a walk has one piece, so the pieces join.
  induction a generalizing w with
  | empty =>
      rw [append, walk?, Option.bind_some]
      dsimp only
      cases b.walk? false w <;> rfl
  | char c rest ih =>
      rw [append, walk?, walk?, ih]
      cases rest.walk? false w with
      | none => rfl
      | some r =>
          obtain ⟨left, next⟩ := r
          dsimp only [bind, pure, Option.bind_some]
          cases b.walk? false next <;> rfl
  | group content rest _ ih =>
      rw [append, walk?, walk?]
      dsimp only [bind, pure]
      rw [Option.bind_assoc]
      apply Option.bind_congr
      rintro ⟨alternatives, inner⟩ _
      dsimp only
      rw [Option.bind_assoc]
      apply Option.bind_congr
      rintro ⟨chosen, resolved⟩ _
      dsimp only
      rw [ih]
      cases rest.walk? false resolved with
      | none => rfl
      | some r =>
          obtain ⟨left, next⟩ := r
          dsimp only [Option.bind_some]
          cases b.walk? false next with
          | none => rfl
          | some r => simp [Pieces.mapFirst]

/-- With room for the groups of both, a random expansion of one template after another expands the
first and then, on the same source, the second. -/
theorem sample?_append {a b : Template} (hroom : a.groupCount + b.groupCount ≤ maxResolved)
    (source : Source) :
    (a.append b).sample? source = (a.sample? source).bind fun (first, source) =>
      (b.sample? source).map fun (second, source) =>
        (⟨first.text ++ second.text, first.resolved + second.resolved,
          first.truncated || second.truncated⟩, source) := by
  have ha : a.groupCount ≤ maxResolved := Nat.le_of_add_right_le hroom
  have hb : b.groupCount ≤ maxResolved := Nat.le_of_add_left_le hroom
  rw [sample?, walk?_append, walk?_eq_chooseAll? (w := ⟨source, 0, false⟩) (by rwa [Nat.zero_add]),
    sample?_eq_chooseAll? ha]
  cases source.chooseAll? a.groupSizes with
  | none => rfl
  | some r =>
      obtain ⟨choices, next⟩ := r
      dsimp only [Option.map_some, Option.bind_some]
      rw [Nat.zero_add, walk?_eq_chooseAll? (w := ⟨next, a.groupCount, false⟩) hroom,
        sample?_eq_chooseAll? hb]
      cases next.chooseAll? b.groupSizes <;> rfl

end Template

/-- When the expansions of a text are those of two others crossed, its count is their product. -/
theorem countVariations_of_enumeration_eq_cross {a b text : List Char}
    (h : enumeration text = cross (enumeration a) (enumeration b)) :
    countVariations text = saturatingMul (countVariations a) (countVariations b) := by
  rw [countVariations_eq_clamp, countVariations_eq_clamp, countVariations_eq_clamp, h, length_cross,
    saturatingMul_clamp (length_enumeration_pos a) (length_enumeration_pos b)]

/-- Two texts with the templates they are read as do not mix when one follows the other. -/
structure Concatenates (a b : List Char) (s t : Template) : Prop where
  parse_eq : parse (a ++ b) = .ok (s.append t)
  countVariations_eq :
    countVariations (a ++ b) = saturatingMul (countVariations a) (countVariations b)
  enumeration_eq : enumeration (a ++ b) = cross (enumeration a) (enumeration b)
  segment_eq : segment (a ++ b) = Block.splice (segment a) (segment b)
  sample?_eq : s.groupCount + t.groupCount ≤ maxResolved → ∀ source,
    (s.append t).sample? source = (s.sample? source).bind fun (first, source) =>
      (t.sample? source).map fun (second, source) =>
        (⟨first.text ++ second.text, first.resolved + second.resolved,
          first.truncated || second.truncated⟩, source)
  sampleText?_eq : s.groupCount + t.groupCount ≤ maxResolved → ∀ source,
    sampleText? (a ++ b) source = (sampleText? a source).bind fun (first, source) =>
      (sampleText? b source).map fun (second, source) => (first ++ second, source)

/-- Texts that parse do not mix one after the other, unless the first has a loose opening brace and
the second a loose closing one. -/
theorem concatenates_of_parse {a b : List Char} {s t : Template} (ha : parse a = .ok s)
    (hb : parse b = .ok t) (h : ¬ ('{' ∈ looseBraces a ∧ '}' ∈ looseBraces b)) :
    Concatenates a b s t := by
  obtain ⟨hs, hsdepth⟩ := parse_eq_ok_iff_depth.mp ha
  obtain ⟨ht, htdepth⟩ := parse_eq_ok_iff_depth.mp hb
  have hparse : parse (a ++ b) = .ok (s.append t) := by
    apply parse_eq_ok_iff_depth.mpr
    rw [ofText_append h, hs, ht, depth_append]
    exact ⟨rfl, Nat.max_le.mpr ⟨hsdepth, htdepth⟩⟩
  have hcross : enumeration (a ++ b) = cross (enumeration a) (enumeration b) := by
    rw [enumeration_of_ok hparse, enumeration_of_ok ha, enumeration_of_ok hb, allExpansions_append]
  refine ⟨hparse, countVariations_of_enumeration_eq_cross hcross, hcross, ?_, sample?_append, ?_⟩
  · rw [segment_of_ok hparse, segment_of_ok ha, segment_of_ok hb, blocks_append]
  · intro hroom source
    rw [sampleText?_of_ok hparse, sampleText?_of_ok ha, sample?_append hroom]
    cases s.sample? source with
    | none => rfl
    | some r =>
        obtain ⟨first, next⟩ := r
        dsimp only [Option.map_some, Option.bind_some]
        rw [sampleText?_of_ok hb]
        cases t.sample? next <;> rfl

/-- Two texts with loose braces on the allowed sides, and a source for their groups. -/
theorem concatenates_of_parse_open :
    parse ['}', '{', 'a', '|', 'b', '}', '{'] = .ok
      (.char '}' (.group (.char 'a' (.char '|' (.char 'b' .empty))) (.char '{' .empty))) ∧
    parse ['c', '{', 'd', '/', '}', '{'] = .ok
      (.char 'c' (.group (.char 'd' (.char '/' .empty)) (.char '{' .empty))) ∧
    ¬ ('{' ∈ looseBraces ['}', '{', 'a', '|', 'b', '}', '{'] ∧
      '}' ∈ looseBraces ['c', '{', 'd', '/', '}', '{']) ∧
    Concatenates ['}', '{', 'a', '|', 'b', '}', '{'] ['c', '{', 'd', '/', '}', '{']
      (.char '}' (.group (.char 'a' (.char '|' (.char 'b' .empty))) (.char '{' .empty)))
      (.char 'c' (.group (.char 'd' (.char '/' .empty)) (.char '{' .empty))) ∧
    sampleText? (['}', '{', 'a', '|', 'b', '}', '{'] ++ ['c', '{', 'd', '/', '}', '{'])
        (Source.ofStep 0 1) =
      (sampleText? ['}', '{', 'a', '|', 'b', '}', '{'] (Source.ofStep 0 1)).bind
        fun (first, source) => (sampleText? ['c', '{', 'd', '/', '}', '{'] source).map
          fun (second, source) => (first ++ second, source) := by
  have hloose : ¬ ('{' ∈ looseBraces ['}', '{', 'a', '|', 'b', '}', '{'] ∧
      '}' ∈ looseBraces ['c', '{', 'd', '/', '}', '{']) := by
    decide
  have h := concatenates_of_parse (a := ['}', '{', 'a', '|', 'b', '}', '{'])
    (b := ['c', '{', 'd', '/', '}', '{']) rfl rfl hloose
  exact ⟨rfl, rfl, hloose, h, h.sampleText?_eq (by decide) _⟩

end Campaign
