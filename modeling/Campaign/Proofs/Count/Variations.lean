import Campaign.Proofs.Expansion.Enumeration
import Campaign.Template.Count
import Mathlib.Algebra.Ring.Nat

/-!
# The counter and the enumeration

The counter clamps at every sum and every product, the enumeration lists texts and cuts at every
group. Both come from the plain enumeration: the counter holds its length, clamped once. A clamped
product is the product of clamped factors only because no factor is zero.
-/

namespace Campaign

/-- A number as a counter holds it. -/
def clamp (n : Nat) : Nat := min n wordMax

section Clamp

variable {a b : Nat}

theorem clamp_pos (ha : 0 < a) : 0 < clamp a :=
  Nat.lt_min.mpr ⟨ha, by decide⟩

theorem clamp_of_le (ha : a ≤ wordMax) : clamp a = a :=
  Nat.min_eq_left ha

theorem clamp_of_ge (ha : wordMax ≤ a) : clamp a = wordMax :=
  Nat.min_eq_right ha

/-- Adding in the counter is adding and clamping. -/
theorem saturatingAdd_clamp (a b : Nat) : saturatingAdd (clamp a) (clamp b) = clamp (a + b) := by
  simp only [saturatingAdd, clamp]
  omega

/-- Multiplying in the counter is multiplying and clamping, as long as no factor is zero. -/
theorem saturatingMul_clamp (ha : 0 < a) (hb : 0 < b) :
    saturatingMul (clamp a) (clamp b) = clamp (a * b) := by
  have hleft : a ≤ a * b := Nat.le_mul_of_pos_right a hb
  have hright : b ≤ a * b := Nat.le_mul_of_pos_left b ha
  -- A factor past the greatest counter takes both products past it.
  rcases Nat.le_total wordMax a with hpast | ha'
  · rw [clamp_of_ge hpast, clamp_of_ge (Nat.le_trans hpast hleft)]
    exact Nat.min_eq_right (Nat.le_mul_of_pos_right _ (clamp_pos hb))
  rcases Nat.le_total wordMax b with hpast | hb'
  · rw [clamp_of_ge hpast, clamp_of_ge (Nat.le_trans hpast hright)]
    exact Nat.min_eq_right (Nat.le_mul_of_pos_left _ (clamp_pos ha))
  · rw [clamp_of_le ha', clamp_of_le hb']
    rfl

theorem saturatingMul_comm (a b : Nat) : saturatingMul a b = saturatingMul b a :=
  congrArg clamp (Nat.mul_comm a b)

theorem saturatingMul_clamp_right (a b : Nat) : saturatingMul a (clamp b) = saturatingMul a b := by
  rcases Nat.le_total b wordMax with hb | hpast
  · rw [clamp_of_le hb]
  rcases Nat.eq_zero_or_pos a with rfl | ha
  · rw [saturatingMul, saturatingMul, Nat.zero_mul, Nat.zero_mul]
  · have hword : wordMax ≤ a * wordMax := Nat.le_mul_of_pos_left _ ha
    have hmul : wordMax ≤ a * b := Nat.le_trans hword (Nat.mul_le_mul_left a hpast)
    rw [clamp_of_ge hpast, saturatingMul, saturatingMul, Nat.min_eq_right hword,
      Nat.min_eq_right hmul]

/-- Products in the counter may be taken in any order, zeros among the factors or not. -/
theorem saturatingMul_assoc (a b c : Nat) :
    saturatingMul (saturatingMul a b) c = saturatingMul a (saturatingMul b c) := by
  calc saturatingMul (saturatingMul a b) c
      = saturatingMul c (clamp (a * b)) := saturatingMul_comm _ c
    _ = clamp (c * (a * b)) := saturatingMul_clamp_right c (a * b)
    _ = clamp (a * (b * c)) := by rw [Nat.mul_comm c, Nat.mul_assoc]
    _ = saturatingMul a (clamp (b * c)) := (saturatingMul_clamp_right a (b * c)).symm

/-- A sum in the counter is the sum, clamped once. -/
theorem foldl_saturatingAdd_clamp (counts : List Nat) (total : Nat) :
    (counts.map clamp).foldl saturatingAdd (clamp total) = clamp (total + counts.sum) := by
  induction counts generalizing total with
  | nil => simp
  | cons count counts ih =>
      rw [List.map_cons, List.foldl_cons, saturatingAdd_clamp, ih, List.sum_cons, Nat.add_assoc]

/-- A product in the counter is the product, clamped once. -/
theorem foldl_saturatingMul_clamp {counts : List Nat} (hcounts : ∀ count ∈ counts, 0 < count)
    {total : Nat} (htotal : 0 < total) :
    (counts.map clamp).foldl saturatingMul (clamp total) = clamp (total * counts.prod) := by
  induction counts generalizing total with
  | nil => simp
  | cons count counts ih =>
      obtain ⟨hcount, hcounts⟩ := List.forall_mem_cons.mp hcounts
      rw [List.map_cons, List.foldl_cons, saturatingMul_clamp htotal hcount,
        ih hcounts (Nat.mul_pos htotal hcount), List.prod_cons, Nat.mul_assoc]

end Clamp

theorem length_cross (as bs : List (List Char)) :
    (cross as bs).length = as.length * bs.length := by
  induction as with
  | nil => simp [cross]
  | cons a as ih =>
      rw [cross_cons, List.length_append, List.length_map, ih, List.length_cons, Nat.succ_mul,
        Nat.add_comm]

theorem Pieces.sum_map_pos {α : Type} {count : α → Nat} (hpos : ∀ a, 0 < count a) (p : Pieces α) :
    0 < (p.toList.map count).sum := by
  rw [Pieces.toList, List.map_cons, List.sum_cons]
  exact Nat.add_pos_left (hpos p.first) _

namespace Template

/-- The guards of a group change nothing when every alternative counts for something. -/
theorem groupVariations_map_clamp {α : Type} {count : α → Nat} (hpos : ∀ a, 0 < count a)
    (p : Pieces α) :
    groupVariations (p.map fun a => clamp (count a)) = clamp (p.toList.map count).sum := by
  have hguard : ((p.map fun a => clamp (count a)).toList).map (max 1) =
      (p.toList.map count).map clamp := by
    rw [Pieces.toList_map, List.map_map, List.map_map]
    apply List.map_congr_left
    intro a _
    exact Nat.max_eq_right (clamp_pos (hpos a))
  have hfold : ((p.toList.map count).map clamp).foldl saturatingAdd 0 =
      clamp (p.toList.map count).sum := by
    have hrun := foldl_saturatingAdd_clamp (p.toList.map count) 0
    rwa [Nat.zero_add] at hrun
  rw [groupVariations, hguard, hfold]
  exact Nat.max_eq_right (clamp_pos (p.sum_map_pos hpos))

/-- A template has at least one expansion. -/
theorem length_allExpansions_pos (t : Template) : 0 < t.allExpansions.length :=
  List.length_pos_iff.mpr t.allExpansions_ne_nil

theorem length_allExpansions_char (c : Char) (rest : Template) :
    (char c rest).allExpansions.length = rest.allExpansions.length := by
  rw [allExpansions_char, List.length_map]

/-- A group multiplies what follows it by what its alternatives expand to together. -/
theorem length_allExpansions_group (content rest : Template) :
    (group content rest).allExpansions.length =
      (content.alternatives.toList.map fun a => a.allExpansions.length).sum *
        rest.allExpansions.length := by
  rw [allExpansions_group, length_cross, List.length_flatten, List.map_map]
  rfl

/-- The counter of each section holds the number of its expansions. -/
theorem pieceVariations_eq (inside : Bool) (t : Template) :
    t.pieceVariations inside =
      (t.sections inside).map fun a => clamp a.allExpansions.length := by
  have hone : clamp (empty.allExpansions).length = 1 := by
    rw [allExpansions_empty]
    rfl
  induction t generalizing inside with
  | empty => rw [sections_empty, pieceVariations, Pieces.map_single, hone]
  | char c rest ih =>
      rw [sections_char, pieceVariations, ih]
      split
      next => rw [Pieces.map_cut, hone]
      next => simp only [Pieces.map, Pieces.mapFirst, length_allExpansions_char]
  | group content rest ihcontent ihrest =>
      rw [sections_group, pieceVariations, ihrest, ihcontent, sections_true,
        groupVariations_map_clamp length_allExpansions_pos]
      symm
      apply Pieces.map_mapFirst
      intro a
      have hchoices := content.alternatives.sum_map_pos length_allExpansions_pos
      rw [length_allExpansions_group, saturatingMul_clamp hchoices a.length_allExpansions_pos]

/-- The counter of a template holds the number of its expansions. -/
theorem variations_eq (t : Template) : t.variations = clamp t.allExpansions.length := by
  rw [variations, pieceVariations_eq]
  rfl

/-- A template without groups expands to its own text only. -/
theorem allExpansions_of_groupCount_eq_zero {t : Template} (h : t.groupCount = 0) :
    t.allExpansions = [t.render] := by
  induction t with
  | empty => exact allExpansions_empty
  | char c rest ih => rw [allExpansions_char, ih h]; rfl
  | group content rest => cases h

/-- Without an opening brace there is no group. -/
theorem groupCount_eq_zero_of_not_mem {t : Template} (h : '{' ∉ t.render) : t.groupCount = 0 := by
  induction t with
  | empty => rfl
  | char c rest ih => exact ih fun hmem => h (List.mem_cons_of_mem c hmem)
  | group content rest => exact absurd List.mem_cons_self h

end Template

theorem enumeration_of_ok {text : List Char} {t : Template} (h : Template.parse text = .ok t) :
    enumeration text = t.allExpansions := by
  rw [enumeration, h]

theorem enumeration_of_error {text : List Char} {e : Template.NestingError}
    (h : Template.parse text = .error e) : enumeration text = [text] := by
  rw [enumeration, h]

theorem length_enumeration_pos (text : List Char) : 0 < (enumeration text).length := by
  cases hparse : Template.parse text with
  | ok t =>
      rw [enumeration_of_ok hparse]
      exact t.length_allExpansions_pos
  | error e =>
      rw [enumeration_of_error hparse]
      exact Nat.one_pos

/-- A text without an opening brace expands to itself, whether or not it is read. -/
theorem enumeration_of_not_mem {text : List Char} (h : '{' ∉ text) : enumeration text = [text] := by
  cases hparse : Template.parse text with
  | ok t =>
      rw [← Template.render_of_parse hparse] at h
      rw [enumeration_of_ok hparse, Template.allExpansions_of_groupCount_eq_zero
        (Template.groupCount_eq_zero_of_not_mem h), Template.render_of_parse hparse]
  | error e => exact enumeration_of_error hparse

/-- The counter of a text holds the number of its expansions, also where it does not read it. -/
theorem countVariations_eq_clamp (text : List Char) :
    countVariations text = clamp (enumeration text).length := by
  rw [countVariations]
  split
  next =>
    cases hparse : Template.parse text with
    | ok t =>
        rw [enumeration_of_ok hparse]
        exact t.variations_eq
    | error e =>
        rw [enumeration_of_error hparse]
        rfl
  next hopen =>
    rw [enumeration_of_not_mem hopen]
    rfl

theorem countVariations_of_ok {text : List Char} {t : Template}
    (h : Template.parse text = .ok t) : countVariations text = t.variations := by
  rw [countVariations_eq_clamp, enumeration_of_ok h, Template.variations_eq]

theorem countVariations_of_error {text : List Char} {e : Template.NestingError}
    (h : Template.parse text = .error e) : countVariations text = 1 := by
  rw [countVariations_eq_clamp, enumeration_of_error h]
  rfl

/-- A bounded enumeration has as many texts as the counter says, up to the bound. -/
theorem length_expand {limit : Nat} (hlimit : limit ≤ wordMax) (text : List Char) :
    (expand limit text).length = min limit (countVariations text) := by
  have hlength : (expand limit text).length = min limit (enumeration text).length := by
    cases hparse : Template.parse text with
    | ok t =>
        rw [expand, hparse, enumeration_of_ok hparse]
        dsimp only
        rw [t.expansions_eq_take, List.length_take]
    | error e =>
        rw [expand, hparse, enumeration_of_error hparse]
        exact List.length_take
  rw [hlength, countVariations_eq_clamp, clamp]
  omega

/-- A nested group with a loose brace behind it, under the greatest limit. -/
theorem length_expand_nested :
    wordMax ≤ wordMax ∧
      (expand wordMax ['{', 'a', '|', '{', 'b', '/', '}', '}', '{']).length =
        min wordMax (countVariations ['{', 'a', '|', '{', 'b', '/', '}', '}', '{']) :=
  ⟨Nat.le_refl wordMax, length_expand (Nat.le_refl wordMax) _⟩

end Campaign
