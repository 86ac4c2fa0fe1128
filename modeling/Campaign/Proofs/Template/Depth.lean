import Campaign.Proofs.Template.Sections

/-!
# Depth of a template

The search for a group past the limit fails exactly when the template is no deeper than the limit,
wherever it stands.
-/

namespace Campaign.Template

/-- How many groups are around each other at most. -/
def depth : Template → Nat
  | empty => 0
  | char _ rest => rest.depth
  | group content rest => max (content.depth + 1) rest.depth

theorem depth_append (a b : Template) : (a.append b).depth = max a.depth b.depth := by
  induction a with
  | empty => exact (Nat.zero_max b.depth).symm
  | char c rest ih => exact ih
  | group content rest _ ih => rw [append, depth, depth, ih, Nat.max_assoc]

theorem Part.depth_le {a t : Template} (h : Part a t) : a.depth ≤ t.depth := by
  induction h with
  | empty t => exact Nat.zero_le _
  | char c hc h ih => exact ih
  | group content h ih =>
      rw [depth, depth]
      omega
  | skipChar c h ih => exact ih
  | skipGroup content h ih => exact Nat.le_trans ih (Nat.le_max_right _ _)

/-- The search for a group that is too deep finds none exactly if the depth is allowed. -/
theorem tooDeep?_eq_none_iff {t : Template} {allowed position : Nat} :
    t.tooDeep? allowed position = none ↔ t.depth ≤ allowed := by
  induction t generalizing allowed position with
  | empty => exact iff_of_true rfl (Nat.zero_le allowed)
  | char c rest ih => exact ih
  | group content rest ihcontent ihrest =>
      cases allowed with
      | zero => simp [tooDeep?, depth]
      | succ deeper =>
          have hcontent := @ihcontent deeper (position + 1)
          have hrest := @ihrest (deeper + 1) (position + content.byteLength + 2)
          rw [depth, Nat.max_le, Nat.succ_le_succ_iff, ← hcontent, ← hrest, tooDeep?]
          cases content.tooDeep? deeper (position + 1) <;> simp

/-- A text parses if its template is no deeper than the limit. -/
theorem parse_eq_ok_iff_depth {text : List Char} {t : Template} :
    parse text = .ok t ↔ ofText text = t ∧ t.depth ≤ maxDepth := by
  rw [parse_eq_ok_iff, tooDeep?_eq_none_iff]

/-- A canonical template that is not too deep is what its text parses as. -/
theorem Canonical.parse_render {t : Template} (h : t.Canonical) (hdepth : t.depth ≤ maxDepth) :
    parse t.render = .ok t :=
  parse_eq_ok_iff_depth.mpr ⟨h.ofText_render, hdepth⟩

end Campaign.Template
