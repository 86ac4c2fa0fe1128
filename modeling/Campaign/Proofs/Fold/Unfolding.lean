import Campaign.Proofs.Block.Segmentation
import Campaign.Proofs.Fold.Alternation

/-!
# Unfolding and segmentation

Unfolding looks for the brace that closes the first one and splits what is between, segmentation
reads the whole text as a template. They see the same group: a pair of braces encloses a text just
when the text is one group block, and unfolding takes the alternatives of that block. Trimming them
changes no count, so the count of the text is that of what is kept and one for each blank
alternative that is dropped.
-/

namespace Campaign

open Text Brace Template

/-- The alternatives that the blocks show, if they are one group. -/
def groupAlternatives : List Block → List (List Char)
  | [.group _ alternatives _] => alternatives
  | _ => []

/-- How many of the texts are blank. -/
def blankCount (texts : List (List Char)) : Nat := texts.countP fun text => (trim text).isEmpty

/-- Unfolding a text agrees with what its trimmed form is segmented into. -/
structure UnfoldsAsSegmented (text : List Char) : Prop where
  isWrapped_iff : isWrapped (trim text) ↔
    ∃ raw alternatives count, segment (trim text) = [.group raw alternatives count]
  unfold_group : ∀ raw alternatives count,
    segment (trim text) = [.group raw alternatives count] → unfold text = kept alternatives
  unfold_other : (¬ ∃ raw alternatives count,
    segment (trim text) = [.group raw alternatives count]) → unfold text = [trim text]
  /-- An alternative that is dropped counts for one. -/
  countVariations_eq : countVariations text = saturatingAdd (totalVariations (unfold text))
    (blankCount (groupAlternatives (segment (trim text))))

namespace Template

theorem length_allExpansions_chars (run : List Char) (t : Template) :
    (chars run t).allExpansions.length = t.allExpansions.length := by
  induction run with
  | nil => rfl
  | cons c run ih =>
      rw [← ih]
      exact length_allExpansions_char c (chars run t)

end Template

section Trim

variable (text : List Char)

/-- Blank edges make no text deeper and are part of each of its expansions. -/
theorem length_enumeration_trim : (enumeration (trim text)).length = (enumeration text).length := by
  obtain ⟨before, after, htext, hbefore, hafter⟩ := exists_trim text
  have hread := ofText_between hbefore hafter (trim text)
  rw [← htext] at hread
  have hdepth : (ofText text).depth = (ofText (trim text)).depth := by
    rw [hread, depth_chars, depth_append, depth_chars]
    exact Nat.max_zero _
  by_cases hle : (ofText text).depth ≤ maxDepth
  · have hinner := parse_eq_ok_iff_depth.mpr ⟨rfl, hdepth ▸ hle⟩
    have houter := parse_eq_ok_iff_depth.mpr ⟨hread, hread ▸ hle⟩
    rw [enumeration_of_ok hinner, enumeration_of_ok houter, length_allExpansions_chars,
      allExpansions_append, length_cross, length_allExpansions_chars, allExpansions_empty]
    exact (Nat.mul_one _).symm
  · rw [Nat.not_le] at hle
    obtain ⟨e, hinner⟩ := exists_parse_error_iff.mpr (hdepth ▸ hle)
    obtain ⟨e', houter⟩ := exists_parse_error_iff.mpr hle
    rw [enumeration_of_error hinner, enumeration_of_error houter]
    rfl

/-- Blank edges do not change the count. -/
theorem countVariations_trim : countVariations (trim text) = countVariations text := by
  rw [countVariations_eq_clamp, length_enumeration_trim, ← countVariations_eq_clamp]

end Trim

theorem kept_cons (text : List Char) (texts : List (List Char)) :
    kept (text :: texts) = if (trim text).isEmpty then kept texts else trim text :: kept texts := by
  rw [kept, List.map_cons, List.filter_cons]
  cases (trim text).isEmpty <;> rfl

theorem blankCount_cons (text : List Char) (texts : List (List Char)) :
    blankCount (text :: texts) = blankCount texts + if (trim text).isEmpty then 1 else 0 :=
  List.countP_cons

/-- Each blank text has one expansion, and the others have those of their trimmed forms. -/
theorem sum_length_enumeration_kept (texts : List (List Char)) :
    (texts.map fun text => (enumeration text).length).sum =
      ((kept texts).map fun text => (enumeration text).length).sum + blankCount texts := by
  induction texts with
  | nil => rfl
  | cons text texts ih =>
      rw [List.map_cons, List.sum_cons, ih, kept_cons, blankCount_cons, ← length_enumeration_trim]
      split
      next hblank =>
        rw [List.isEmpty_iff.mp hblank, enumeration_of_not_mem List.not_mem_nil,
          List.length_singleton]
        omega
      next =>
        rw [List.map_cons, List.sum_cons]
        omega

/-- Texts count for as much as those of them that are kept, trimmed, and the number of the others. -/
theorem totalVariations_kept (texts : List (List Char)) :
    totalVariations texts = saturatingAdd (totalVariations (kept texts)) (blankCount texts) := by
  rw [totalVariations_eq_clamp, totalVariations_eq_clamp, sum_length_enumeration_kept]
  simp only [saturatingAdd, clamp]
  omega

section Segment

variable {text : List Char} {t : Template} (h : parse text = .ok t)
include h

/-- A text whose only block is a group is a pair of braces around the group's content. -/
theorem exists_content_of_segment {raw : List Char} {alternatives : List (List Char)} {count : Nat}
    (hsegment : segment text = [.group raw alternatives count]) :
    ∃ content : Template, content.Balanced ∧ t = group content empty ∧
      text = '{' :: content.render ++ ['}'] ∧
        alternatives = content.alternatives.toList.map render := by
  rw [segment_of_ok h] at hsegment
  obtain ⟨content, rest, rfl, _, halternatives, _⟩ := exists_content_of_blocks hsegment
  have hblocks : rest.blocks = [] := (List.cons.inj hsegment).2
  have hrender := rest.flatMap_raw_blocks
  rw [hblocks] at hrender
  obtain rfl : rest = empty := by
    apply eq_empty_of_byteLength
    rw [Template.byteLength_eq, ← hrender]
    rfl
  refine ⟨content, (canonical_of_parse h).1, rfl, (render_of_parse h).symm, ?_⟩
  rw [halternatives, pieces, Pieces.toList_map]

/-- A pair of braces is around a text exactly if the text is segmented into one group. -/
theorem isWrapped_iff_segment : isWrapped text ↔
    ∃ raw alternatives count, segment text = [.group raw alternatives count] := by
  constructor
  · intro hwrapped
    obtain ⟨content, hcontent, htext⟩ := isWrapped_iff.mp hwrapped
    rw [segment_of_ok h, ← (parse_eq_ok_iff.mp h).1, htext, hcontent.ofText_group]
    exact ⟨_, _, _, rfl⟩
  · rintro ⟨raw, alternatives, count, hsegment⟩
    obtain ⟨content, hcontent, _, htext, _⟩ := exists_content_of_segment h hsegment
    exact isWrapped_iff.mpr ⟨content, hcontent, htext⟩

end Segment

/-- For a text that is not blank and whose trimmed form parses, unfolding agrees with segmentation
and with counting. -/
theorem unfoldsAsSegmented_of_parse {text : List Char} {t : Template} (hne : trim text ≠ [])
    (hparse : parse (trim text) = .ok t) : UnfoldsAsSegmented text := by
  have hwrapped := isWrapped_iff_segment hparse
  have hother : (¬ ∃ raw alternatives count,
      segment (trim text) = [.group raw alternatives count]) → unfold text = [trim text] := by
    intro hnone
    rw [unfold_of_not_isWrapped (hwrapped.not.mpr hnone), kept_singleton hne]
  have hgroup : ∀ raw alternatives count,
      segment (trim text) = [.group raw alternatives count] → unfold text = kept alternatives := by
    intro raw alternatives count hsegment
    obtain ⟨content, hcontent, _, htext, rfl⟩ := exists_content_of_segment hparse hsegment
    exact unfold_of_trim_eq hcontent htext
  refine ⟨hwrapped, hgroup, hother, ?_⟩
  rw [← countVariations_trim]
  by_cases hone : ∃ raw alternatives count, segment (trim text) = [.group raw alternatives count]
  · obtain ⟨raw, alternatives, count, hsegment⟩ := hone
    obtain ⟨content, hcontent, rfl, htext, rfl⟩ := exists_content_of_segment hparse hsegment
    have hdepth : content.depth < maxDepth :=
      (Nat.max_le.mp (parse_eq_ok_iff_depth.mp hparse).2).1
    -- The group counts each alternative, those that unfolding drops as well.
    have hcount := (hcontent.alternates_group hdepth).countVariations_eq
    rw [hgroup _ _ _ hsegment, hsegment, groupAlternatives, ← totalVariations_kept, ← hcount, htext]
  · have hblocks : groupAlternatives (segment (trim text)) = [] := by
      unfold groupAlternatives
      split
      next hsegment => exact absurd ⟨_, _, _, hsegment⟩ hone
      next => rfl
    rw [hother hone, hblocks]
    simp [totalVariations_eq_clamp, countVariations_eq_clamp, saturatingAdd, clamp, blankCount]

/-- A group between blank edges with a nested group and a blank alternative. -/
theorem unfoldsAsSegmented_of_parse_blank :
    trim ['\t', '{', 'a', '{', 'b', '/', 'c', '}', '|', '\u2003', '/', ' ', 'd', '}', '\n'] =
      ['{', 'a', '{', 'b', '/', 'c', '}', '|', '\u2003', '/', ' ', 'd', '}'] ∧
    (∃ t, parse ['{', 'a', '{', 'b', '/', 'c', '}', '|', '\u2003', '/', ' ', 'd', '}'] = .ok t) ∧
    UnfoldsAsSegmented
      ['\t', '{', 'a', '{', 'b', '/', 'c', '}', '|', '\u2003', '/', ' ', 'd', '}', '\n'] ∧
    unfold ['\t', '{', 'a', '{', 'b', '/', 'c', '}', '|', '\u2003', '/', ' ', 'd', '}', '\n'] =
      [['a', '{', 'b', '/', 'c', '}'], ['d']] ∧
    countVariations
      ['\t', '{', 'a', '{', 'b', '/', 'c', '}', '|', '\u2003', '/', ' ', 'd', '}', '\n'] =
      saturatingAdd 3 1 := by
  have htrim :
      trim ['\t', '{', 'a', '{', 'b', '/', 'c', '}', '|', '\u2003', '/', ' ', 'd', '}', '\n'] =
        ['{', 'a', '{', 'b', '/', 'c', '}', '|', '\u2003', '/', ' ', 'd', '}'] := by
    decide
  have hunfolds := unfoldsAsSegmented_of_parse (htrim ▸ List.cons_ne_nil _ _) rfl
  exact ⟨htrim, ⟨_, rfl⟩, hunfolds, by decide, hunfolds.countVariations_eq⟩

end Campaign
