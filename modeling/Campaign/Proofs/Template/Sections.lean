import Campaign.Proofs.Template.Canonical

/-!
# Sections of a template

A traversal of a template gives one result for each of its sections: the alternatives inside a
group, the template as a whole elsewhere. The equations here follow the recursion of such a
traversal, so that one induction shows what it gives for each section.
-/

namespace Campaign.Template

open Brace

/-- The parts that a traversal keeps apart. -/
def sections (inside : Bool) (t : Template) : Pieces Template :=
  if inside then t.alternatives else .single t

@[simp] theorem sections_true (t : Template) : t.sections true = t.alternatives := rfl

@[simp] theorem sections_false (t : Template) : t.sections false = .single t := rfl

theorem sections_empty (inside : Bool) : empty.sections inside = .single empty := by
  cases inside <;> rfl

/-- A separator inside a group cuts off an empty section in front, every other character joins the
first one. -/
theorem sections_char (inside : Bool) (c : Char) (rest : Template) :
    (char c rest).sections inside =
      if cuts inside c then (rest.sections inside).cut empty c
      else (rest.sections inside).mapFirst (char c) := by
  cases inside <;> rfl

/-- A group joins the first section whole. -/
theorem sections_group (inside : Bool) (content rest : Template) :
    (group content rest).sections inside = (rest.sections inside).mapFirst (group content) := by
  cases inside <;> rfl

/-- One template is left of another when some characters and groups at the top of it are left out,
and with them all separators. -/
inductive Part : Template → Template → Prop where
  | empty (t : Template) : Part empty t
  | char {a rest : Template} (c : Char) (hc : ¬ isSeparator c) (h : Part a rest) :
      Part (char c a) (char c rest)
  | group {a rest : Template} (content : Template) (h : Part a rest) :
      Part (group content a) (group content rest)
  | skipChar {a rest : Template} (c : Char) (h : Part a rest) : Part a (char c rest)
  | skipGroup {a rest : Template} (content : Template) (h : Part a rest) :
      Part a (group content rest)

/-- An alternative is what is left of the content of its group. -/
theorem part_of_mem_alternatives {t a : Template} (ha : a ∈ t.alternatives.toList) : Part a t := by
  induction t generalizing a with
  | empty => exact List.mem_singleton.mp ha ▸ .empty _
  | char c rest ih =>
      rw [alternatives] at ha
      split at ha
      next =>
        rcases List.mem_cons.mp ha with rfl | ha
        · exact .empty _
        · exact .skipChar c (ih ha)
      next hc =>
        rcases Pieces.mem_toList_of_mem_mapFirst ha with rfl | ha
        · exact .char c hc (ih rest.alternatives.first_mem_toList)
        · exact .skipChar c (ih ha)
  | group content rest _ ih =>
      rcases Pieces.mem_toList_of_mem_mapFirst ha with rfl | ha
      · exact .group content (ih rest.alternatives.first_mem_toList)
      · exact .skipGroup content (ih ha)

theorem Part.sizeOf_le {a t : Template} (h : Part a t) : sizeOf a ≤ sizeOf t := by
  induction h with
  | empty t => cases t <;> simp <;> omega
  | char c hc h ih => simpa using ih
  | group content h ih => simpa using ih
  | skipChar c h ih => exact Nat.le_trans ih (by simp)
  | skipGroup content h ih => exact Nat.le_trans ih (by simp)

/-- A part has no more groups than the whole. -/
theorem Part.groupCount_le {a t : Template} (h : Part a t) : a.groupCount ≤ t.groupCount := by
  induction h with
  | empty t => exact Nat.zero_le _
  | char c hc h ih => exact ih
  | group content h ih => exact Nat.succ_le_succ (Nat.add_le_add_left ih _)
  | skipChar c h ih => exact ih
  | skipGroup content h ih => exact Nat.le_succ_of_le (Nat.le_add_left_of_le ih)

/-- A part of a balanced template is balanced: groups are left out whole. -/
theorem Part.balanced {a t : Template} (h : Part a t) (ht : t.Balanced) : a.Balanced := by
  induction h with
  | empty t => trivial
  | char c hc h ih => exact ⟨ht.1, ht.2.1, ih ht.2.2⟩
  | group content h ih => exact ⟨ht.1, ih ht.2⟩
  | skipChar c h ih => exact ih ht.2.2
  | skipGroup content h ih => exact ih ht.2

/-- The alternatives of a balanced content are balanced. -/
theorem Balanced.of_mem_alternatives {t a : Template} (h : t.Balanced)
    (ha : a ∈ t.alternatives.toList) : a.Balanced :=
  (part_of_mem_alternatives ha).balanced h

/-- No alternative has a separator of its own, so what follows one stays in the same section. -/
theorem Part.alternatives_append {a t : Template} (h : Part a t) (after : Template) :
    (a.append after).alternatives = after.alternatives.mapFirst (a.append ·) := by
  induction h with
  | empty t => rfl
  | char c hc h ih =>
      rw [append, alternatives, if_neg hc, ih]
      rfl
  | group content h ih =>
      rw [append, alternatives, ih]
      rfl
  | skipChar c h ih => exact ih
  | skipGroup content h ih => exact ih

/-- A part in front lengthens the first section. -/
theorem sections_append {inside : Bool} {a content : Template} (h : Part a content)
    (after : Template) :
    (a.append after).sections inside = (after.sections inside).mapFirst (a.append ·) := by
  cases inside with
  | false => rfl
  | true => exact h.alternatives_append after

theorem map_render_mapFirst_char (c : Char) (p : Pieces Template) :
    (p.mapFirst (char c)).map render = (p.map render).mapFirst (c :: ·) := by
  apply Pieces.map_mapFirst
  intro a
  rfl

theorem map_render_mapFirst_append (a : Template) (p : Pieces Template) :
    (p.mapFirst (a.append ·)).map render = (p.map render).mapFirst (a.render ++ ·) :=
  Pieces.map_mapFirst (render_append a) p

theorem map_render_mapFirst_group (content : Template) (p : Pieces Template) :
    (p.mapFirst (group content)).map render =
      (p.map render).mapFirst ('{' :: content.render ++ ['}'] ++ ·) := by
  apply Pieces.map_mapFirst
  intro a
  simp [render]

/-- The sections and the separators between them are the whole of the text. -/
theorem join_map_render_sections (inside : Bool) (t : Template) :
    ((t.sections inside).map render).join = t.render := by
  induction t with
  | empty => rw [sections_empty]; rfl
  | char c rest ih =>
      rw [sections_char, render, ← ih]
      split
      next => rw [Pieces.map_cut, render, Pieces.join_cut, List.nil_append]
      next => rw [map_render_mapFirst_char, Pieces.join_mapFirst_cons]
  | group content rest _ ih =>
      rw [sections_group, map_render_mapFirst_group, Pieces.join_mapFirst_append, ih]
      simp [render]

end Campaign.Template
