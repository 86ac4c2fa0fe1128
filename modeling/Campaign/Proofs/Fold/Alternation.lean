import Campaign.Proofs.Fold.RoundTrip
import Campaign.Proofs.Template.Nesting
import Campaign.Proofs.Template.Residue

/-!
# Folding is alternation

A group expands to what its alternatives expand to, one after another, and an alternative is read
alone as it is read in its group. A text that is one group therefore lists the expansions of its
alternatives in their order, and its count is their sum. Folding several self-contained texts makes
such a group, which is one level deeper than the deepest of them.
-/

namespace Campaign

open Text Brace Template

/-- The variations of several texts together, in a counter that stays at its greatest value. -/
def totalVariations (texts : List (List Char)) : Nat :=
  (texts.map countVariations).foldl saturatingAdd 0

/-- A text parses and stands for several texts: it expands to what they expand to, one text after
another, and counts as much as they do together. -/
structure Alternates (text : List Char) (texts : List (List Char)) : Prop where
  exists_parse : ∃ t, parse text = .ok t
  expand_eq : ∀ limit, expand limit text = (texts.map enumeration).flatten.take limit
  countVariations_eq : countVariations text = totalVariations texts

theorem totalVariations_eq_clamp (texts : List (List Char)) :
    totalVariations texts = clamp (texts.map fun text => (enumeration text).length).sum := by
  have hcounts : texts.map countVariations =
      (texts.map fun text => (enumeration text).length).map clamp := by
    rw [List.map_map]
    exact List.map_congr_left fun text _ => countVariations_eq_clamp text
  have hsum := foldl_saturatingAdd_clamp (texts.map fun text => (enumeration text).length) 0
  rw [Nat.zero_add] at hsum
  rw [totalVariations, hcounts]
  exact hsum

/-- A text that expands to what several texts expand to, in order, stands for them. -/
theorem Alternates.of_enumeration_eq {text : List Char} {texts : List (List Char)} {t : Template}
    (hparse : parse text = .ok t) (h : enumeration text = (texts.map enumeration).flatten) :
    Alternates text texts := by
  refine ⟨⟨t, hparse⟩, ?_, ?_⟩
  · intro limit
    rw [(expand_eq_take_enumeration limit text).1, h]
  · rw [countVariations_eq_clamp, h, List.length_flatten, List.map_map, totalVariations_eq_clamp]
    rfl

namespace Template

theorem allExpansions_group_empty (content : Template) :
    (group content empty).allExpansions =
      (content.alternatives.toList.map allExpansions).flatten := by
  rw [allExpansions_group, allExpansions_empty]
  simp [cross]

/-- A template is no deeper than its alternatives. -/
theorem depth_le_of_alternatives {t : Template} {allowed : Nat}
    (h : ∀ a ∈ t.alternatives.toList, a.depth ≤ allowed) : t.depth ≤ allowed := by
  induction t with
  | empty => exact Nat.zero_le allowed
  | char c rest ih =>
      apply ih
      rw [alternatives] at h
      split at h
      next => exact (List.forall_mem_cons.mp h).2
      next =>
        obtain ⟨hfirst, hothers⟩ := List.forall_mem_cons.mp h
        exact List.forall_mem_cons.mpr ⟨hfirst, hothers⟩
  | group content rest _ ih =>
      obtain ⟨hfirst, hothers⟩ := List.forall_mem_cons.mp h
      obtain ⟨hcontent, hfirst⟩ := Nat.max_le.mp hfirst
      exact Nat.max_le.mpr ⟨hcontent, ih (List.forall_mem_cons.mpr ⟨hfirst, hothers⟩)⟩

section Balanced

variable {content : Template} (hcontent : content.Balanced)
include hcontent

/-- An alternative is read alone as it is read in its group. -/
theorem Balanced.parse_alternative (hdepth : content.depth ≤ maxDepth) {a : Template}
    (ha : a ∈ content.alternatives.toList) : parse a.render = .ok a := by
  apply (hcontent.of_mem_alternatives ha).canonical.parse_render
  exact Nat.le_trans (part_of_mem_alternatives ha).depth_le hdepth

theorem Balanced.ofText_group :
    ofText ('{' :: content.render ++ ['}']) = group content empty :=
  ofText_eq_iff.mpr ⟨⟨hcontent, trivial⟩, rfl⟩

/-- A text that is one group stands for the alternatives of the group. -/
theorem Balanced.alternates_group (hdepth : content.depth < maxDepth) :
    Alternates ('{' :: content.render ++ ['}']) (content.alternatives.toList.map render) := by
  have hparse : parse ('{' :: content.render ++ ['}']) = .ok (group content empty) :=
    parse_eq_ok_iff_depth.mpr
      ⟨hcontent.ofText_group, Nat.max_le.mpr ⟨hdepth, Nat.zero_le maxDepth⟩⟩
  have halternatives : (content.alternatives.toList.map render).map enumeration =
      content.alternatives.toList.map allExpansions := by
    rw [List.map_map]
    apply List.map_congr_left
    intro a ha
    exact enumeration_of_ok (hcontent.parse_alternative (Nat.le_of_lt hdepth) ha)
  apply Alternates.of_enumeration_eq hparse
  rw [enumeration_of_ok hparse, allExpansions_group_empty, halternatives]

end Balanced

end Template

/-- A text whose bytes have few pairs around them is not deep. -/
theorem depth_le_of_nesting_le {text : List Char} {allowed : Nat}
    (h : ∀ i, nesting text i ≤ allowed) : (ofText text).depth ≤ allowed := by
  cases hfound : (ofText text).tooDeep? allowed 0 with
  | none => exact tooDeep?_eq_none_iff.mp hfound
  | some found =>
      have hnesting := (isLeast_of_tooDeep? hfound).1.2
      have hle := h found
      omega

/-- Folding is alternation: self-contained texts that parse, and that leave room for one more pair
of braces when there are several, fold to a text which stands for all of them. -/
theorem alternates_fold {texts : List (List Char)} (hne : texts ≠ [])
    (hself : ∀ text ∈ texts, SelfContained text)
    (hparse : ∀ text ∈ texts, ∃ t, parse text = .ok t)
    (hnesting : 2 ≤ texts.length → ∀ text ∈ texts, ∀ i, nesting text i ≤ 255) :
    Alternates (fold texts) texts := by
  match texts with
  | [] => exact absurd rfl hne
  | [only] =>
      obtain ⟨t, ht⟩ := hparse only (List.mem_singleton_self only)
      exact .of_enumeration_eq ht (List.append_nil _).symm
  | first :: second :: more =>
      obtain ⟨content, hcontent, hfold, halternatives⟩ := exists_content_of_selfContained hself
      have hdepth : content.depth ≤ 255 := by
        apply depth_le_of_alternatives
        intro a ha
        have hmem : a.render ∈ first :: second :: more := halternatives ▸ List.mem_map_of_mem ha
        rw [← (hcontent.of_mem_alternatives ha).canonical.ofText_render]
        exact depth_le_of_nesting_le (hnesting (Nat.le_add_left 2 more.length) _ hmem)
      rw [hfold, ← halternatives]
      exact hcontent.alternates_group (Nat.lt_succ_of_le hdepth)

/-- A fold of a text with nested groups, a blank and the empty text. -/
theorem alternates_fold_nested :
    (∀ text ∈ [['a', '{', 'b', '|', '{', '/', 'c', '}', '}'], [' '], []], SelfContained text) ∧
    Alternates (fold [['a', '{', 'b', '|', '{', '/', 'c', '}', '}'], [' '], []])
      [['a', '{', 'b', '|', '{', '/', 'c', '}', '}'], [' '], []] ∧
    expand 4 ['{', 'a', '{', 'b', '|', '{', '/', 'c', '}', '}', '/', ' ', '/', '}'] =
      [['a', 'b'], ['a'], ['a', 'c'], [' ']] := by
  have hself : ∀ text ∈ [['a', '{', 'b', '|', '{', '/', 'c', '}', '}'], [' '], []],
      SelfContained text := by
    decide
  refine ⟨hself, alternates_fold (List.cons_ne_nil _ _) hself ?_ ?_, by decide⟩
  · simp only [List.forall_mem_cons]
    exact ⟨⟨_, rfl⟩, ⟨_, rfl⟩, ⟨_, rfl⟩, List.forall_mem_nil _⟩
  · -- No more pairs can be around a byte than the text has bytes.
    intro _ text htext i
    have hlength : byteLength text ≤ 255 := by
      revert text
      decide
    rw [← List.length_range (n := byteLength text)] at hlength
    exact Nat.le_trans List.countP_le_length hlength

end Campaign
