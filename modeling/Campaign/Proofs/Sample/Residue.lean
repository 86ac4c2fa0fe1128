import Campaign.Proofs.Template.Residue
import Campaign.Template.Sample

/-!
# What a random expansion leaves

A random expansion shows the sections of another template, the residue: the template with the
groups that were resolved replaced by their choices. The groups resolved are the first ones up to
the limit, whatever is drawn, and the residue has the others.
-/

namespace Campaign

open Brace Template

/-- A walk over one template has resolved all its groups but those of another, its residue. -/
structure Walk.Leaves (w : Walk) (t : Template) (after : Walk) (residue : Template) : Prop where
  isResidue : Residue t residue
  groupCount : after.resolved + residue.groupCount = w.resolved + t.groupCount
  resolved : after.resolved = min maxResolved (w.resolved + t.groupCount)
  truncated : after.truncated = (w.truncated || decide (maxResolved < w.resolved + t.groupCount))

/-- A group is resolved by one of its alternatives or, past the limit, written back. -/
theorem Walk.resolve?_cases {w after : Walk} {alternatives : Pieces (List Char)}
    {shown : List Char} (h : w.resolve? alternatives = some (shown, after)) :
    (w.resolved < maxResolved ∧ shown ∈ alternatives.toList ∧
      after.resolved = w.resolved + 1 ∧ after.truncated = w.truncated) ∨
    (maxResolved ≤ w.resolved ∧ shown = '{' :: alternatives.join ++ ['}'] ∧
      after.resolved = w.resolved ∧ after.truncated = true) := by
  unfold Walk.resolve? at h
  split at h
  next hlt =>
    obtain ⟨⟨i, source⟩, hchoose, heq⟩ := Option.bind_eq_some_iff.mp h
    cases heq
    have hi : i < alternatives.toList.length :=
      Source.choose?_lt (List.length_pos_iff.mpr alternatives.toList_ne_nil) hchoose
    refine Or.inl ⟨hlt, ?_, rfl, rfl⟩
    rw [List.getD_eq_getElem?_getD, List.getElem?_eq_getElem hi, Option.getD_some]
    exact List.getElem_mem hi
  next hge =>
    cases h
    exact Or.inr ⟨Nat.le_of_not_lt hge, rfl, rfl, rfl⟩

namespace Walk.Leaves

variable {w inner resolved after : Walk} {content rest core residue a : Template}

theorem empty (hw : w.resolved ≤ maxResolved) : w.Leaves .empty w .empty := by
  have hnot : ¬ maxResolved < w.resolved + Template.empty.groupCount := Nat.not_lt.mpr hw
  refine ⟨.empty, rfl, ?_, ?_⟩
  · exact (Nat.min_eq_right hw).symm
  · rw [decide_eq_false hnot, Bool.or_false]

theorem char (c : Char) (h : w.Leaves rest after residue) :
    w.Leaves (.char c rest) after (.char c residue) where
  isResidue := .char c h.isResidue
  groupCount := h.groupCount
  resolved := h.resolved
  truncated := h.truncated

/-- A walk that stays below the limit leaves no groups. -/
theorem groupCount_eq_zero (h : w.Leaves content inner core) (hlt : inner.resolved < maxResolved) :
    core.groupCount = 0 := by
  have hcount := h.groupCount
  have hresolved := h.resolved
  omega

/-- A group resolved below the limit leaves its choice, in which no group is left. -/
theorem chosen (hcore : w.Leaves content inner core) (ha : a ∈ core.alternatives.toList)
    (hlt : inner.resolved < maxResolved) (hresolved : resolved.resolved = inner.resolved + 1)
    (htruncated : resolved.truncated = inner.truncated)
    (hrest : resolved.Leaves rest after residue) :
    w.Leaves (.group content rest) after (a.append residue) := by
  have hnone := hcore.groupCount_eq_zero hlt
  have hcount : (Template.group content rest).groupCount =
      content.groupCount + rest.groupCount + 1 := rfl
  have hcoreCount := hcore.groupCount
  have hrestCount := hrest.groupCount
  have hrestResolved := hrest.resolved
  refine ⟨.chosen hcore.isResidue ha hrest.isResidue, ?_, ?_, ?_⟩
  · have hle := (part_of_mem_alternatives ha).groupCount_le
    rw [groupCount_append]
    omega
  · omega
  · have hnot : ¬ maxResolved < w.resolved + content.groupCount := by omega
    have htotal : resolved.resolved + rest.groupCount =
        w.resolved + (Template.group content rest).groupCount := by
      omega
    rw [hrest.truncated, htruncated, hcore.truncated, decide_eq_false hnot, Bool.or_false, htotal]

/-- A group past the limit is left with what is left of its content. -/
theorem writtenBack (hcore : w.Leaves content inner core) (hge : maxResolved ≤ inner.resolved)
    (hresolved : resolved.resolved = inner.resolved) (htruncated : resolved.truncated = true)
    (hrest : resolved.Leaves rest after residue) :
    w.Leaves (.group content rest) after (.group core residue) := by
  have hcount : (Template.group content rest).groupCount =
      content.groupCount + rest.groupCount + 1 := rfl
  have hcoreCount := hcore.groupCount
  have hcoreResolved := hcore.resolved
  have hrestCount := hrest.groupCount
  have hrestResolved := hrest.resolved
  refine ⟨.kept hcore.isResidue hrest.isResidue, ?_, ?_, ?_⟩
  · rw [Template.groupCount]
    omega
  · omega
  · have hmore : maxResolved < w.resolved + (Template.group content rest).groupCount := by omega
    rw [hrest.truncated, htruncated, decide_eq_true hmore, Bool.true_or, Bool.or_true]

end Walk.Leaves

namespace Template

/-- A walk over a character goes on behind it. -/
theorem walk?_char_eq_some {inside : Bool} {c : Char} {rest : Template} {w after : Walk}
    {shown : Pieces (List Char)} (h : (char c rest).walk? inside w = some (shown, after)) :
    ∃ right, rest.walk? inside w = some (right, after) ∧
      shown = if cuts inside c then right.cut [] c else right.mapFirst (c :: ·) := by
  obtain ⟨⟨right, _⟩, hrest, heq⟩ := Option.bind_eq_some_iff.mp h
  cases heq
  exact ⟨right, hrest, rfl⟩

/-- A walk over a group walks over its content, resolves it and goes on behind it. -/
theorem walk?_group_eq_some {inside : Bool} {content rest : Template} {w after : Walk}
    {shown : Pieces (List Char)} (h : (group content rest).walk? inside w = some (shown, after)) :
    ∃ alternatives inner chosen resolved right, content.walk? true w = some (alternatives, inner) ∧
      inner.resolve? alternatives = some (chosen, resolved) ∧
      rest.walk? inside resolved = some (right, after) ∧
      shown = right.mapFirst (chosen ++ ·) := by
  obtain ⟨⟨alternatives, inner⟩, hcontent, h⟩ := Option.bind_eq_some_iff.mp h
  obtain ⟨⟨chosen, resolved⟩, hresolve, h⟩ := Option.bind_eq_some_iff.mp h
  obtain ⟨⟨right, _⟩, hrest, heq⟩ := Option.bind_eq_some_iff.mp h
  cases heq
  exact ⟨alternatives, inner, chosen, resolved, right, hcontent, hresolve, hrest, rfl⟩

/-- A walk shows the sections of a residue. -/
theorem walk?_leaves {inside : Bool} {t : Template} {w after : Walk} {shown : Pieces (List Char)}
    (hw : w.resolved ≤ maxResolved) (h : t.walk? inside w = some (shown, after)) :
    ∃ residue, w.Leaves t after residue ∧ shown = (residue.sections inside).map render := by
  induction t generalizing inside w after shown with
  | empty =>
      cases h
      refine ⟨empty, .empty hw, ?_⟩
      rw [sections_empty]
      rfl
  | char c rest ih =>
      obtain ⟨right, hrest, rfl⟩ := walk?_char_eq_some h
      obtain ⟨residue, hleaves, rfl⟩ := ih hw hrest
      refine ⟨char c residue, hleaves.char c, ?_⟩
      rw [sections_char]
      split
      next => rw [Pieces.map_cut, render]
      next => rw [map_render_mapFirst_char]
  | group content rest ihcontent ihrest =>
      obtain ⟨alternatives, inner, chosen, resolved, right, hcontent, hresolve, hrest, rfl⟩ :=
        walk?_group_eq_some h
      obtain ⟨core, hcore, rfl⟩ := ihcontent hw hcontent
      rcases Walk.resolve?_cases hresolve with
        ⟨hlt, hchosen, hresolved, htruncated⟩ | ⟨hge, rfl, hresolved, htruncated⟩
      · obtain ⟨residue, hleaves, rfl⟩ := ihrest (by omega) hrest
        rw [Pieces.toList_map, sections_true] at hchosen
        obtain ⟨a, ha, rfl⟩ := List.mem_map.mp hchosen
        refine ⟨a.append residue, hcore.chosen ha hlt hresolved htruncated hleaves, ?_⟩
        rw [sections_append (part_of_mem_alternatives ha), map_render_mapFirst_append]
      · -- What is written back is the residue of the content between its braces.
        have hinner := hcore.resolved
        obtain ⟨residue, hleaves, rfl⟩ := ihrest (by omega) hrest
        refine ⟨group core residue, hcore.writtenBack hge hresolved htruncated hleaves, ?_⟩
        rw [sections_group, map_render_mapFirst_group, join_map_render_sections]

end Template

end Campaign
