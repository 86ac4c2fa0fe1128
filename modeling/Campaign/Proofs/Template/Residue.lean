import Campaign.Proofs.Expansion.Enumeration
import Campaign.Proofs.Template.Depth
import Mathlib.Data.List.Forall2

/-!
# Residues

Resolving some groups of a template, each after the groups inside it, leaves another template. The
residue keeps what makes a template readable again: its loose braces stand where they stood, it is
no deeper, and it expands only to what the template expands to.
-/

namespace Campaign

/-- Crossing lists of texts is associative. -/
theorem cross_assoc (as bs cs : List (List Char)) :
    cross as (cross bs cs) = cross (cross as bs) cs := by
  simp [cross, List.flatMap_assoc, List.map_flatMap, List.flatMap_map, Function.comp_def]

theorem cross_subset {as as' bs bs' : List (List Char)} (has : as ⊆ as') (hbs : bs ⊆ bs') :
    cross as bs ⊆ cross as' bs' := by
  intro text htext
  obtain ⟨a, ha, htext⟩ := List.mem_flatMap.mp htext
  exact List.mem_flatMap.mpr ⟨a, has ha, List.map_subset _ hbs htext⟩

namespace Template

/-- One template after another expands to every expansion of the first before every one of the
second. -/
theorem allExpansions_append (a b : Template) :
    (a.append b).allExpansions = cross a.allExpansions b.allExpansions := by
  induction a with
  | empty =>
      rw [allExpansions_empty, cross_singleton]
      exact (List.map_id _).symm
  | char c rest ih =>
      rw [append, allExpansions, ih, cross_assoc, ← allExpansions]
  | group content rest _ ih =>
      rw [append, allExpansions_group, ih, cross_assoc, ← allExpansions_group]

/-- One template is what is left of another when some groups give way to an alternative of what is
left of their content. -/
inductive Residue : Template → Template → Prop where
  | empty : Residue empty empty
  | char {rest left : Template} (c : Char) (hrest : Residue rest left) :
      Residue (char c rest) (char c left)
  | chosen {content core a rest left : Template} (hcontent : Residue content core)
      (ha : a ∈ core.alternatives.toList) (hrest : Residue rest left) :
      Residue (group content rest) (a.append left)
  | kept {content core rest left : Template} (hcontent : Residue content core)
      (hrest : Residue rest left) : Residue (group content rest) (group core left)

namespace Residue

variable {t left : Template}

theorem balanced (h : Residue t left) (ht : t.Balanced) : left.Balanced := by
  induction h with
  | empty => trivial
  | char c _ ih => exact ⟨ht.1, ht.2.1, ih ht.2.2⟩
  | chosen _ ha _ ihcontent ihrest =>
      exact ((ihcontent ht.1).of_mem_alternatives ha).append_balanced (ihrest ht.2)
  | kept _ _ ihcontent ihrest => exact ⟨ihcontent ht.1, ihrest ht.2⟩

theorem opening (h : Residue t left) (ht : t.Opening) : left.Opening := by
  induction h with
  | empty => trivial
  | char c _ ih => exact ⟨ht.1, ih ht.2⟩
  | chosen hcontent ha _ _ ihrest =>
      exact ((hcontent.balanced ht.1).of_mem_alternatives ha).append_opening
        (ihrest ht.2)
  | kept hcontent _ _ ihrest => exact ⟨hcontent.balanced ht.1, ihrest ht.2⟩

/-- Resolving groups leaves a canonical template canonical. -/
theorem canonical (h : Residue t left) (ht : t.Canonical) : left.Canonical := by
  induction h with
  | empty => trivial
  | char c hrest ih => exact ⟨fun hc => hrest.opening (ht.1 hc), ih ht.2⟩
  | chosen hcontent ha _ _ ihrest =>
      exact ((hcontent.balanced ht.1).of_mem_alternatives ha).append_canonical
        (ihrest ht.2)
  | kept hcontent _ _ ihrest => exact ⟨hcontent.balanced ht.1, ihrest ht.2⟩

theorem depth_le (h : Residue t left) : left.depth ≤ t.depth := by
  induction h with
  | empty => exact Nat.le_refl _
  | char c _ ih => exact ih
  | chosen _ ha _ ihcontent ihrest =>
      have hpart := (part_of_mem_alternatives ha).depth_le
      rw [depth_append, depth]
      omega
  | kept _ _ ihcontent ihrest =>
      rw [depth, depth]
      omega

/-- The alternatives of a residue are residues of the alternatives, one for one. -/
theorem alternatives (h : Residue t left) :
    List.Forall₂ Residue t.alternatives.toList left.alternatives.toList := by
  induction h with
  | empty => exact .cons .empty .nil
  | char c _ ih =>
      rw [Template.alternatives, Template.alternatives]
      split
      next => exact .cons .empty ih
      next =>
        obtain ⟨hfirst, hothers⟩ := List.forall₂_cons.mp ih
        exact .cons (.char c hfirst) hothers
  | chosen hcontent ha _ _ ih =>
      rw [(part_of_mem_alternatives ha).alternatives_append]
      obtain ⟨hfirst, hothers⟩ := List.forall₂_cons.mp ih
      exact .cons (.chosen hcontent ha hfirst) hothers
  | kept hcontent _ _ ih =>
      obtain ⟨hfirst, hothers⟩ := List.forall₂_cons.mp ih
      exact .cons (.kept hcontent hfirst) hothers

/-- Each alternative of a residue is left of an alternative of the template. -/
theorem exists_alternative {a : Template} (h : Residue t left)
    (ha : a ∈ left.alternatives.toList) : ∃ b ∈ t.alternatives.toList, Residue b a := by
  have hlength := h.alternatives.length_eq
  obtain ⟨i, hi, rfl⟩ := List.getElem_of_mem ha
  exact ⟨_, List.getElem_mem (hlength ▸ hi), h.alternatives.get (hlength ▸ hi) hi⟩

/-- What a residue expands to, the template expands to. -/
theorem allExpansions_subset (h : Residue t left) : left.allExpansions ⊆ t.allExpansions := by
  induction t using allExpansions.induct generalizing left with
  | case1 =>
      cases h
      exact List.Subset.refl _
  | case2 c rest ih =>
      cases h with
      | char _ hrest =>
          rw [allExpansions_char, allExpansions_char]
          exact List.map_subset _ (ih hrest)
  | case3 content rest ihcontent ihrest =>
      -- An alternative of what is left of a content is left of one of its alternatives.
      have hchoice : ∀ core, Residue content core → ∀ a ∈ core.alternatives.toList,
          a.allExpansions ⊆ (content.alternatives.toList.map allExpansions).flatten := by
        intro core hcore a ha text htext
        obtain ⟨b, hb, hleft⟩ := hcore.exists_alternative ha
        exact List.mem_flatten.mpr ⟨_, List.mem_map_of_mem hb, ihcontent b hb hleft htext⟩
      rw [allExpansions_group]
      cases h with
      | chosen hcontent ha hrest =>
          rw [allExpansions_append]
          exact cross_subset (hchoice _ hcontent _ ha) (ihrest hrest)
      | @kept _ core _ left hcontent hrest =>
          rw [allExpansions_group]
          refine cross_subset ?_ (ihrest hrest)
          intro text htext
          obtain ⟨texts, htexts, htext⟩ := List.mem_flatten.mp htext
          obtain ⟨a, ha, rfl⟩ := List.mem_map.mp htexts
          exact hchoice core hcontent a ha htext

end Residue

end Template

end Campaign
