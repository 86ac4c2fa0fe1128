import Campaign.Proofs.Count.Scanning
import Campaign.Proofs.Template.Enclosed
import Campaign.Template.Fold

/-!
# Folding and unfolding

Unfolding a fold gives the alternatives back, trimmed and without blank ones, exactly when several
of them are self-contained or the only one is not enclosed by a pair of braces. What unfolding gives
is self-contained whenever there are several alternatives, so it can be folded and unfolded again
without a change, unless it is a single alternative with braces of its own around it.
-/

namespace Campaign

open Text Brace Template

/-- The texts trimmed, without those that are blank. -/
def kept (texts : List (List Char)) : List (List Char) := (texts.map trim).filter (!·.isEmpty)

/-- When alternatives can be folded and unfolded again. -/
def FoldsBack : List (List Char) → Prop
  | [] => True
  | [only] => ¬ isWrapped (trim only)
  | several => ∀ text ∈ several, SelfContained text

section Kept

variable {texts : List (List Char)} {text : List Char}

theorem mem_kept : text ∈ kept texts ↔ (∃ whole ∈ texts, trim whole = text) ∧ text ≠ [] := by
  rw [kept, List.mem_filter, List.mem_map, Bool.not_eq_true', List.isEmpty_eq_false_iff]

theorem kept_singleton (h : trim text ≠ []) : kept [text] = [trim text] := by
  rw [kept, List.map_singleton, List.filter_singleton, List.isEmpty_eq_false_iff.mpr h]
  rfl

theorem trim_of_mem_kept (h : text ∈ kept texts) : trim text = text := by
  obtain ⟨⟨whole, _, rfl⟩, _⟩ := mem_kept.mp h
  exact trim_trim whole

theorem kept_kept (texts : List (List Char)) : kept (kept texts) = kept texts := by
  have htrim : (kept texts).map trim = kept texts :=
    (List.map_congr_left fun _ htext => trim_of_mem_kept htext).trans (List.map_id _)
  have hblank : ∀ text ∈ kept texts, !text.isEmpty := fun _ htext => (List.mem_filter.mp htext).2
  rw [kept, htrim, List.filter_eq_self.mpr hblank]

/-- Texts are self-contained when what is kept of them is, since blank texts are so anyway. -/
theorem forall_selfContained_of_kept (h : ∀ text ∈ kept texts, SelfContained text) :
    ∀ text ∈ texts, SelfContained text := by
  intro text htext
  apply selfContained_trim_iff.mp
  by_cases hblank : trim text = []
  · rw [hblank]
    exact Enclosed.selfContained_render (t := empty) trivial
  · exact h _ (mem_kept.mpr ⟨⟨text, htext, rfl⟩, hblank⟩)

theorem length_le_intercalate (htext : text ∈ texts) :
    text.length ≤ (['/'].intercalate texts).length := by
  induction texts with
  | nil => cases htext
  | cons first more ih =>
      cases more with
      | nil =>
          rw [List.intercalate_singleton]
          exact Nat.le_of_eq (congrArg List.length (List.mem_singleton.mp htext))
      | cons second more =>
          rw [List.intercalate_cons_cons, List.length_append, List.length_append]
          rcases List.mem_cons.mp htext with rfl | htext
          · omega
          · have hle := ih htext
            omega

end Kept

theorem Template.eq_empty_of_byteLength {t : Template} (h : t.byteLength = 0) : t = empty := by
  cases t with
  | empty => rfl
  | char c rest =>
      have hpos := c.utf8Size_pos
      rw [Template.byteLength] at h
      omega
  | group content rest =>
      rw [Template.byteLength] at h
      omega

/-- A pair of braces encloses a text that is one group and nothing else. -/
theorem isWrapped_iff {text : List Char} :
    isWrapped text ↔ ∃ content : Template, content.Balanced ∧
      text = '{' :: content.render ++ ['}'] := by
  rw [isWrapped, beq_iff_eq]
  constructor
  · intro hclose
    obtain ⟨t, ht, rfl⟩ : ∃ t : Template, t.Canonical ∧ t.render = text :=
      ⟨_, canonical_ofText text, render_ofText text⟩
    cases t with
    | empty => cases hclose
    | char c rest =>
        rw [render, ht.findClose?_char] at hclose
        cases hclose
    | group content rest =>
        rw [← Template.byteLength_eq, render, List.cons_append, ht.1.findClose?_group,
          Template.byteLength] at hclose
        have hlength := Option.some.inj hclose
        -- The group takes up the whole text, so nothing follows it.
        obtain rfl : rest = .empty := eq_empty_of_byteLength (by omega)
        exact ⟨content, ht.1, rfl⟩
  · rintro ⟨content, hbalanced, rfl⟩
    rw [List.cons_append, hbalanced.findClose?_group, byteLength_cons, byteLength_append,
      ← Template.byteLength_eq, show byteLength ['}'] = 1 from rfl,
      show Char.utf8Size '{' = 1 from rfl]
    congr 1
    omega

/-- A text in braces unfolds to the alternatives of its group. -/
theorem unfold_of_trim_eq {text : List Char} {content : Template} (hcontent : content.Balanced)
    (htext : trim text = '{' :: content.render ++ ['}']) :
    unfold text = kept (content.alternatives.toList.map render) := by
  have hwrapped : isWrapped (trim text) := isWrapped_iff.mpr ⟨content, hcontent, htext⟩
  have hinner : (trim text).tail.dropLast = content.render := by
    rw [htext, List.cons_append, List.tail_cons, List.dropLast_concat]
  have hne : ¬ (trim text).isEmpty := by
    rw [htext]
    exact Bool.false_ne_true
  rw [unfold, if_neg hne, if_pos hwrapped, hinner, hcontent.split_render, Pieces.toList_map]
  rfl

/-- A text without braces around it unfolds to itself, trimmed, or to nothing. -/
theorem unfold_of_not_isWrapped {text : List Char} (h : ¬ isWrapped (trim text)) :
    unfold text = kept [text] := by
  rw [unfold, kept, if_neg h]
  by_cases hblank : (trim text).isEmpty <;> simp [hblank]

/-- A text unfolds to the alternatives of its group or to itself. -/
theorem unfold_cases (text : List Char) :
    (∃ content : Template, content.Balanced ∧ trim text = '{' :: content.render ++ ['}'] ∧
      unfold text = kept (content.alternatives.toList.map render)) ∨
    (¬ isWrapped (trim text) ∧ unfold text = kept [text]) := by
  by_cases hwrapped : isWrapped (trim text)
  · obtain ⟨content, hcontent, htext⟩ := isWrapped_iff.mp hwrapped
    exact Or.inl ⟨content, hcontent, htext, unfold_of_trim_eq hcontent htext⟩
  · exact Or.inr ⟨hwrapped, unfold_of_not_isWrapped hwrapped⟩

section Alternatives

variable {content : Template} {text : List Char}

/-- The alternatives that are kept of a balanced content are self-contained. -/
theorem selfContained_of_mem_kept (hcontent : content.Balanced)
    (htext : text ∈ kept (content.alternatives.toList.map render)) : SelfContained text := by
  obtain ⟨⟨whole, hwhole, rfl⟩, _⟩ := mem_kept.mp htext
  obtain ⟨a, ha, rfl⟩ := List.mem_map.mp hwhole
  have henclosed := (part_of_mem_alternatives ha).enclosed hcontent
  exact selfContained_trim_iff.mpr henclosed.selfContained_render

theorem length_le_of_mem_kept (hcontent : content.Balanced)
    (htext : text ∈ kept (content.alternatives.toList.map render)) :
    text.length ≤ content.render.length := by
  obtain ⟨⟨whole, hwhole, rfl⟩, _⟩ := mem_kept.mp htext
  rw [← Pieces.toList_map, ← hcontent.split_render] at hwhole
  exact Nat.le_trans (length_trim_le whole) (length_le_of_mem_splitFrom hwhole)

end Alternatives

/-- Unfolding takes the braces off a single alternative that a pair of them encloses. -/
theorem unfold_fold_singleton_iff (only : List Char) :
    unfold (fold [only]) = kept [only] ↔ ¬ isWrapped (trim only) := by
  change unfold only = kept [only] ↔ _
  constructor
  · intro h hwrapped
    obtain ⟨content, hcontent, htext⟩ := isWrapped_iff.mp hwrapped
    have hne : trim only ≠ [] := by
      rw [htext]
      exact List.cons_ne_nil _ _
    -- An alternative is shorter than the group that it is taken from.
    have hmem : trim only ∈ kept (content.alternatives.toList.map render) := by
      rw [← unfold_of_trim_eq hcontent htext, h, kept_singleton hne]
      exact List.mem_singleton_self _
    have hle := length_le_of_mem_kept hcontent hmem
    rw [htext, List.length_append, List.length_cons] at hle
    omega
  · exact unfold_of_not_isWrapped

section Several

variable {first second : List Char} {more : List (List Char)}

theorem trim_fold_several :
    trim (fold (first :: second :: more)) = fold (first :: second :: more) :=
  trim_of_not_isBlank (by decide) (by decide) _

/-- No text that is folded with others is as long as the fold. -/
theorem fold_several_not_mem_kept (first second : List Char) (more : List (List Char)) :
    fold (first :: second :: more) ∉ kept (first :: second :: more) := by
  intro hmem
  obtain ⟨⟨whole, hwhole, heq⟩, _⟩ := mem_kept.mp hmem
  have htrim := length_trim_le whole
  have hle := length_le_intercalate hwhole
  rw [heq] at htrim
  change ('{' :: ['/'].intercalate (first :: second :: more) ++ ['}']).length ≤ _ at htrim
  rw [List.length_append, List.length_cons] at htrim
  omega

/-- Self-contained texts are the alternatives of the group that they are folded into. -/
theorem exists_content_of_selfContained
    (h : ∀ text ∈ first :: second :: more, SelfContained text) :
    ∃ content : Template, content.Balanced ∧
      fold (first :: second :: more) = '{' :: content.render ++ ['}'] ∧
      content.alternatives.toList.map render = first :: second :: more := by
  have hrender : ((first :: second :: more).map ofText).map render = first :: second :: more := by
    rw [List.map_map]
    exact List.map_id'' render_ofText _
  have henclosed : ∀ t ∈ (first :: second :: more).map ofText, t.Enclosed := by
    intro t ht
    obtain ⟨text, htext, rfl⟩ := List.mem_map.mp ht
    exact selfContained_iff.mp (h text htext)
  have halternatives : (joined ((first :: second :: more).map ofText)).alternatives.toList =
      (first :: second :: more).map ofText :=
    toList_alternatives_joined (List.cons_ne_nil _ _) henclosed
  refine ⟨joined ((first :: second :: more).map ofText), balanced_joined henclosed, ?_, ?_⟩
  · rw [render_joined, hrender]
    rfl
  · rw [halternatives, hrender]

/-- Several alternatives come back from their fold exactly if each is self-contained. -/
theorem unfold_fold_several_iff :
    unfold (fold (first :: second :: more)) = kept (first :: second :: more) ↔
      ∀ text ∈ first :: second :: more, SelfContained text := by
  constructor
  · intro h
    rcases unfold_cases (fold (first :: second :: more)) with
      ⟨content, hcontent, _, hunfold⟩ | ⟨_, hunfold⟩
    · apply forall_selfContained_of_kept
      rw [← h, hunfold]
      exact fun text htext => selfContained_of_mem_kept hcontent htext
    · -- Without braces around it the fold would be one of the alternatives itself.
      refine absurd ?_ (fold_several_not_mem_kept first second more)
      rw [← h, hunfold, kept_singleton, trim_fold_several]
      · exact List.mem_singleton_self _
      · rw [trim_fold_several]
        exact List.cons_ne_nil _ _
  · intro h
    obtain ⟨content, hcontent, hfold, halternatives⟩ := exists_content_of_selfContained h
    rw [unfold_of_trim_eq hcontent (trim_fold_several.trans hfold), halternatives]

end Several

/-- Unfolding a fold gives the alternatives back, trimmed and without blank ones, for several
alternatives just when all of them are self-contained, for a single one just when no pair of braces
encloses it, and for none always. -/
theorem unfold_fold_eq_iff (texts : List (List Char)) :
    unfold (fold texts) = kept texts ↔ FoldsBack texts := by
  match texts with
  | [] => exact iff_of_true rfl trivial
  | [only] => exact unfold_fold_singleton_iff only
  | _ :: _ :: _ => exact unfold_fold_several_iff

/-- What a text unfolds to is trimmed and not blank. -/
theorem kept_unfold (text : List Char) : kept (unfold text) = unfold text := by
  rcases unfold_cases text with ⟨content, _, _, hunfold⟩ | ⟨_, hunfold⟩
  · rw [hunfold, kept_kept]
  · rw [hunfold, kept_kept]

/-- Several alternatives of one text are self-contained. -/
theorem selfContained_of_mem_unfold {text first second : List Char} {more : List (List Char)}
    (h : unfold text = first :: second :: more) :
    ∀ text ∈ first :: second :: more, SelfContained text := by
  rcases unfold_cases text with ⟨content, hcontent, _, hunfold⟩ | ⟨_, hunfold⟩
  · rw [← h, hunfold]
    exact fun text htext => selfContained_of_mem_kept hcontent htext
  · have hlength : (kept [text]).length ≤ 1 := List.length_filter_le _ _
    rw [← hunfold, h] at hlength
    exact absurd hlength (by simp)

/-- Folding and unfolding again changes nothing about what a text unfolds to, unless that is a
single alternative which a pair of braces encloses. -/
theorem unfold_fold_unfold_eq_iff (text : List Char) :
    unfold (fold (unfold text)) = unfold text ↔
      ¬ ∃ only, unfold text = [only] ∧ isWrapped only := by
  have hkept := kept_unfold text
  -- A single alternative is folded to itself, and several to a group around them.
  cases h : unfold text with
  | nil => exact iff_of_true rfl (by simp)
  | cons first more =>
      rw [h] at hkept
      cases more with
      | nil =>
          have hmem : first ∈ kept [first] := by
            rw [hkept]
            exact List.mem_singleton_self first
          have htrim := trim_of_mem_kept hmem
          have hsingle := unfold_fold_singleton_iff first
          rw [hkept, htrim] at hsingle
          rw [hsingle]
          simp
      | cons second more =>
          refine iff_of_true ?_ (by simp)
          rw [unfold_fold_several_iff.mpr (selfContained_of_mem_unfold h), hkept]

example : unfold "{{a|b}}".toList = ["{a|b}".toList] ∧ isWrapped "{a|b}".toList := by decide

end Campaign
