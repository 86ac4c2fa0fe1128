import Campaign.Proofs.Block.Segmentation
import Campaign.Proofs.Sample.Resuming
import Campaign.Proofs.Template.Literals

/-!
# Expansions are normal forms

An expansion has nothing left to expand. What is chosen in a group has no braces, so the braces of
an expansion are the loose ones of its text, the closing ones still first, and no two of them can
make up a group. A text that nests too deep is its own expansion and stays as it is.
-/

namespace Campaign

open Brace Template

/-- Counting, segmenting, enumerating and expanding at random all leave a text as it is. -/
structure NormalForm (text : List Char) : Prop where
  countVariations_eq : countVariations text = 1
  segment_eq : segment text = if text = [] then [] else [.literal text]
  expand_eq : ∀ limit, 1 ≤ limit → expand limit text = [text]
  /-- Nothing is drawn. -/
  sampleText?_eq : ∀ source, sampleText? text source = some (text, source)

namespace Template

/-- The braces of an expansion are those outside the groups of the template. -/
theorem Canonical.filter_isBrace_of_mem {t : Template} (h : t.Canonical) {text : List Char}
    (htext : text ∈ t.allExpansions) : text.filter isBrace = t.outer.filter isBrace := by
  induction t using allExpansions.induct generalizing text with
  | case1 =>
      rw [allExpansions_empty] at htext
      rw [List.mem_singleton.mp htext]
      rfl
  | case2 c rest ih =>
      rw [allExpansions_char] at htext
      obtain ⟨tail, htail, rfl⟩ := List.mem_map.mp htext
      rw [outer, List.filter_cons, List.filter_cons, ih h.2 htail]
  | case3 content rest ihcontent ihrest =>
      rw [allExpansions_group] at htext
      obtain ⟨chosen, hchosen, htext⟩ := List.mem_flatMap.mp htext
      obtain ⟨tail, htail, rfl⟩ := List.mem_map.mp htext
      obtain ⟨texts, htexts, hchosen⟩ := List.mem_flatten.mp hchosen
      obtain ⟨a, ha, rfl⟩ := List.mem_map.mp htexts
      -- An alternative of a balanced content has no brace outside its groups.
      have hbalanced := h.1.of_mem_alternatives ha
      have hnone : a.outer.filter isBrace = [] := by
        apply List.filter_eq_nil_iff.mpr
        intro c hc hbrace
        have hplain := hbalanced.canonical.balanced_iff.mp hbalanced c hc
        exact (isBrace_iff.mp hbrace).elim hplain.1 hplain.2
      rw [List.filter_append, ihcontent a ha hbalanced.canonical hchosen, hnone, ihrest h.2 htail]
      rfl

/-- A text with the braces of a canonical template outside its groups has no groups. -/
theorem Canonical.parse_of_filter_isBrace {t : Template} (h : t.Canonical) {text : List Char}
    (htext : text.filter isBrace = t.outer.filter isBrace) :
    parse text = .ok (Template.chars text empty) := by
  have houter : (text.filter isBrace).Pairwise fun a b => a = '{' → b ≠ '}' := by
    rw [htext]
    exact h.pairwise_outer.filter _
  have hpairwise : text.Pairwise fun a b => a = '{' → b ≠ '}' := by
    apply (List.pairwise_filter.mp houter).imp
    rintro a b himp rfl rfl
    exact himp rfl rfl rfl rfl
  have hrender : (Template.chars text empty).render = text := by
    rw [render_chars, render, List.append_nil]
  have hparse := (canonical_chars_empty hpairwise).parse_render (by rw [depth_chars]; decide)
  rwa [hrender] at hparse

theorem groupCount_chars (run : List Char) (t : Template) :
    (chars run t).groupCount = t.groupCount := by
  induction run with
  | nil => rfl
  | cons c run ih => exact ih

/-- Without groups there is one literal block, or none for the empty text. -/
theorem blocks_of_groupCount_eq_zero {t : Template} (h : t.groupCount = 0) :
    t.blocks = if t.render = [] then [] else [.literal t.render] := by
  induction t with
  | empty => rfl
  | char c rest ih =>
      rw [blocks, ih h, render, if_neg (List.cons_ne_nil _ _)]
      by_cases hrest : rest.render = []
      · rw [if_pos hrest, hrest]
        rfl
      · rw [if_neg hrest]
        rfl
  | group content rest => cases h

end Template

namespace NormalForm

/-- A text that parses without groups is a normal form. -/
theorem of_groupCount_eq_zero {text : List Char} {t : Template} (hparse : parse text = .ok t)
    (hcount : t.groupCount = 0) : NormalForm text := by
  have hrender := render_of_parse hparse
  have hexpansions : t.allExpansions = [text] := by
    rw [allExpansions_of_groupCount_eq_zero hcount, hrender]
  refine ⟨?_, ?_, ?_, ?_⟩
  · rw [countVariations_of_ok hparse, variations_eq, hexpansions]
    rfl
  · rw [segment_of_ok hparse, blocks_of_groupCount_eq_zero hcount, hrender]
  · intro limit hlimit
    rw [expand, hparse]
    dsimp only
    rw [expansions_eq_take, hexpansions]
    exact List.take_of_length_le hlimit
  · intro source
    rw [sampleText?_of_ok hparse, sample?_of_groupCount_eq_zero hcount, hrender]
    rfl

theorem of_error {text : List Char} {e : NestingError} (hparse : parse text = .error e) :
    NormalForm text := by
  obtain ⟨hne, hsegment⟩ := segment_of_error hparse
  refine ⟨countVariations_of_error hparse, ?_, ?_, sampleText?_of_error hparse⟩
  · rw [hsegment, if_neg hne]
  · intro limit hlimit
    rw [expand, hparse]
    exact List.take_of_length_le hlimit

end NormalForm

/-- An expansion is a normal form. When the text parses, the braces of the expansion are the loose
ones of the text in their order, so it has none when all of them are matched. -/
theorem normalForm_of_mem_expand {limit : Nat} {text shown : List Char}
    (hshown : shown ∈ expand limit text) :
    NormalForm shown ∧ ∀ t, Template.parse text = .ok t →
      shown.filter isBrace = looseBraces text ∧
        ((∀ position c, Text.charAt? text position = some c → ¬ Loose text position c) →
          '{' ∉ shown ∧ '}' ∉ shown) := by
  rw [expand] at hshown
  cases hparse : parse text with
  | ok t =>
      rw [hparse] at hshown
      dsimp only at hshown
      rw [t.expansions_eq_take] at hshown
      have hcanonical := canonical_of_parse hparse
      have hbraces := hcanonical.filter_isBrace_of_mem (List.mem_of_mem_take hshown)
      have hcount : (chars shown empty).groupCount = 0 := groupCount_chars shown empty
      -- The loose braces are all that is left, so what is shown is read without a group.
      refine ⟨.of_groupCount_eq_zero (hcanonical.parse_of_filter_isBrace hbraces) hcount, ?_⟩
      intro _ _
      have hloose : shown.filter isBrace = looseBraces text := by
        rw [hbraces, looseBraces_eq, (parse_eq_ok_iff.mp hparse).1]
      refine ⟨hloose, ?_⟩
      intro hmatched
      rw [looseBraces_eq_nil_iff.mpr hmatched, List.filter_eq_nil_iff] at hloose
      exact ⟨fun hopen => hloose '{' hopen rfl, fun hclose => hloose '}' hclose rfl⟩
  | error e =>
      rw [hparse] at hshown
      obtain rfl := List.mem_singleton.mp (List.mem_of_mem_take hshown)
      exact ⟨.of_error hparse, fun _ h => by cases h⟩

/-- An expansion between two loose braces, and one without any. -/
theorem normalForm_of_mem_expand_loose :
    ['}', 'c', '{'] ∈ expand 5 ['}', '{', 'a', '|', '{', 'b', '/', 'c', '}', '}', '{'] ∧
    NormalForm ['}', 'c', '{'] ∧
    ['}', 'c', '{'].filter isBrace =
      looseBraces ['}', '{', 'a', '|', '{', 'b', '/', 'c', '}', '}', '{'] ∧
    ['b'] ∈ expand 2 ['{', 'a', '|', 'b', '}'] ∧
    looseBraces ['{', 'a', '|', 'b', '}'] = [] ∧
    '{' ∉ ['b'] ∧ '}' ∉ ['b'] := by
  have hmem : ['}', 'c', '{'] ∈
      expand 5 ['}', '{', 'a', '|', '{', 'b', '/', 'c', '}', '}', '{'] := by
    decide
  have hmatched : ['b'] ∈ expand 2 ['{', 'a', '|', 'b', '}'] := by
    decide
  have hnone : looseBraces ['{', 'a', '|', 'b', '}'] = [] := rfl
  obtain ⟨hnormal, hbraces⟩ := normalForm_of_mem_expand hmem
  obtain ⟨_, hplain⟩ := (normalForm_of_mem_expand hmatched).2 _ rfl
  exact ⟨hmem, hnormal, (hbraces _ rfl).1, hmatched, hnone,
    hplain (looseBraces_eq_nil_iff.mp hnone)⟩

end Campaign
