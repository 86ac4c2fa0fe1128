import Campaign.Proofs.Fleet.Gate
import Mathlib.Data.Fintype.Perm
import Mathlib.Data.List.FinRange

/-!
# Order and locality of a fleet

An account is scored by itself, and of the other accounts only their number counts. Reordering the
accounts therefore reorders their reports in the same way and changes nothing else, and replacing
one account leaves all other reports as they are. The health of the fleet is monotone in the health
of each account, so an account that is no worse makes the fleet no worse and the gate no stricter.
-/

namespace Campaign.Risk

section Lists

variable {α β : Type} {first second : List α}

/-- The second list has the elements of the first in the order that a permutation gives. -/
structure Rearranges {n : Nat} (σ : Equiv.Perm (Fin n)) (first second : List α) : Prop where
  length_first : first.length = n
  length_second : second.length = n
  getElem?_eq : ∀ i : Fin n, second[i.val]? = first[(σ i).val]?

/-- Two lists of one length with the same elements at all positions but one. -/
structure AgreeOff (position : Nat) (first second : List α) : Prop where
  length_eq : first.length = second.length
  getElem?_eq : ∀ i, i ≠ position → first[i]? = second[i]?

theorem Rearranges.map {n : Nat} {σ : Equiv.Perm (Fin n)} (h : Rearranges σ first second)
    (f : α → β) : Rearranges σ (first.map f) (second.map f) := by
  refine ⟨?_, ?_, ?_⟩
  · rw [List.length_map, h.length_first]
  · rw [List.length_map, h.length_second]
  · intro i
    rw [List.getElem?_map, List.getElem?_map, h.getElem?_eq]

/-- Lists that are rearrangements of each other are permutations of each other. -/
theorem Rearranges.perm {n : Nat} {σ : Equiv.Perm (Fin n)} (h : Rearranges σ first second) :
    second.Perm first := by
  obtain rfl := h.length_first
  have hsecond : second = List.ofFn (first.get ∘ σ) := by
    apply List.ext_getElem
    · rw [List.length_ofFn, h.length_second]
    · intro i hi _
      have heq := h.getElem?_eq ⟨i, h.length_second ▸ hi⟩
      rw [List.getElem?_eq_getElem hi, List.getElem?_eq_getElem (σ _).isLt] at heq
      rw [List.getElem_ofFn]
      exact Option.some.inj heq
  have hperm := σ.ofFn_comp_perm first.get
  rwa [← hsecond, List.ofFn_get] at hperm

theorem AgreeOff.map {position : Nat} (h : AgreeOff position first second) (f : α → β) :
    AgreeOff position (first.map f) (second.map f) := by
  refine ⟨?_, ?_⟩
  · rw [List.length_map, List.length_map, h.length_eq]
  · intro i hi
    rw [List.getElem?_map, List.getElem?_map, h.getElem?_eq i hi]

/-- A reflexive relation holds along two lists when it holds where they may differ. -/
theorem AgreeOff.forall₂ {position : Nat} (h : AgreeOff position first second) {r : α → α → Prop}
    (hrefl : ∀ a, r a a)
    (hdiffer : ∀ a ∈ first[position]?, ∀ b ∈ second[position]?, r a b) :
    List.Forall₂ r first second := by
  refine List.forall₂_iff_get.mpr ⟨h.length_eq, ?_⟩
  intro i hfirst hsecond
  rw [List.get_eq_getElem, List.get_eq_getElem]
  by_cases hi : i = position
  · subst hi
    exact hdiffer _ (List.getElem?_eq_getElem hfirst) _ (List.getElem?_eq_getElem hsecond)
  · have heq := h.getElem?_eq i hi
    rw [List.getElem?_eq_getElem hfirst, List.getElem?_eq_getElem hsecond] at heq
    rw [Option.some.inj heq]
    exact hrefl _

end Lists

section Assess

variable {first second : List Account} (plan : Plan) (now : Int)

/-- The health of a fleet does not depend on the order of its accounts. -/
theorem fleetHealth_perm {healths others : List Nat} (h : healths.Perm others) :
    fleetHealth healths = fleetHealth others := by
  by_cases hne : healths = []
  · subst hne
    rw [List.nil_perm.mp h]
  · have hsame : {health | health ∈ healths} = {health | health ∈ others} :=
      Set.ext fun _ => h.mem_iff
    have hothers : others ≠ [] := fun hnil => hne (List.perm_nil.mp (hnil ▸ h))
    exact (isLeast_fleetHealth hne).unique (hsame ▸ isLeast_fleetHealth hothers)

/-- Fleets of one size send the same share from each account. -/
theorem assess_reports_of_length_eq (h : first.length = second.length) :
    (assess second plan now).reports =
      second.map (plan.report (perAccountLoad plan.recipients first.length) now) := by
  rw [h, assess_reports]

/-- Accounts in another order have their reports in that order. -/
theorem Rearranges.reports {n : Nat} {σ : Equiv.Perm (Fin n)} (h : Rearranges σ first second) :
    Rearranges σ (assess first plan now).reports (assess second plan now).reports := by
  rw [assess_reports_of_length_eq plan now (h.length_first.trans h.length_second.symm)]
  exact h.map _

/-- The health of a launch does not depend on the order of the accounts. -/
theorem Rearranges.health_eq {n : Nat} {σ : Equiv.Perm (Fin n)} (h : Rearranges σ first second) :
    (assess second plan now).health = (assess first plan now).health :=
  fleetHealth_perm ((h.reports plan now).map AccountReport.health).perm

/-- Another account at one position has its report there, and the other reports are the same. -/
theorem AgreeOff.reports {position : Nat} (h : AgreeOff position first second) :
    AgreeOff position (assess first plan now).reports (assess second plan now).reports := by
  rw [assess_reports_of_length_eq plan now h.length_eq]
  exact h.map _

/-- A fleet is no worse than another when the only account that may differ is no worse. -/
theorem AgreeOff.health_le {position : Nat} (h : AgreeOff position first second)
    (hbetter : ∀ a ∈ (assess first plan now).reports[position]?,
      ∀ b ∈ (assess second plan now).reports[position]?, a.health ≤ b.health) :
    (assess first plan now).health ≤ (assess second plan now).health := by
  apply fleetHealth_mono
  rw [List.forall₂_map_left_iff, List.forall₂_map_right_iff]
  exact (h.reports plan now).forall₂ (fun a => Nat.le_refl a.health) hbetter

theorem requiresConfirmation_congr
    (h : (assess second plan now).health = (assess first plan now).health) :
    (assess second plan now).requiresConfirmation =
      (assess first plan now).requiresConfirmation :=
  congrArg (needsConfirmation · plan.confirmBelow) h

/-- A launch from a fleet that is no worse needs no confirmation unless it did before. -/
theorem requiresConfirmation_of_health_le
    (h : (assess first plan now).health ≤ (assess second plan now).health)
    (hgated : (assess second plan now).requiresConfirmation) :
    (assess first plan now).requiresConfirmation := by
  rw [assess_requiresConfirmation_iff] at hgated ⊢
  exact Nat.lt_of_le_of_lt h hgated

/-- The reports of a fleet follow the order of its accounts, and nothing else depends on it. A
change of one account is seen in its own report only, and when that account is no worse for it, then
neither is the fleet, and its launch is not gated unless it was before. -/
theorem assess_rearranges_agreeOff :
    (∀ {n : Nat} {σ : Equiv.Perm (Fin n)} {first second : List Account},
      Rearranges σ first second →
        Rearranges σ (assess first plan now).reports (assess second plan now).reports ∧
        (assess second plan now).health = (assess first plan now).health ∧
        (assess second plan now).requiresConfirmation =
          (assess first plan now).requiresConfirmation) ∧
    ∀ {position : Nat} {first second : List Account}, AgreeOff position first second →
      AgreeOff position (assess first plan now).reports (assess second plan now).reports ∧
      ((∀ a ∈ (assess first plan now).reports[position]?,
          ∀ b ∈ (assess second plan now).reports[position]?, a.health ≤ b.health) →
        (assess first plan now).health ≤ (assess second plan now).health ∧
        ((assess second plan now).requiresConfirmation →
          (assess first plan now).requiresConfirmation)) := by
  refine ⟨?_, ?_⟩
  · intro n σ first second h
    have hhealth := h.health_eq plan now
    exact ⟨h.reports plan now, hhealth, requiresConfirmation_congr plan now hhealth⟩
  · intro position first second h
    refine ⟨h.reports plan now, ?_⟩
    intro hbetter
    have hle := h.health_le plan now hbetter
    exact ⟨hle, requiresConfirmation_of_health_le plan now hle⟩

end Assess

/-- Two accounts that change places, and one of them with a higher limit. -/
theorem assess_rearranges_agreeOff_pair :
    Rearranges (Equiv.swap (0 : Fin 2) 1)
      [(⟨"a", 10, 0.0, none⟩ : Account), ⟨"b", 0, 4.0, some 0⟩]
      [⟨"b", 0, 4.0, some 0⟩, ⟨"a", 10, 0.0, none⟩] ∧
    (assess [⟨"b", 0, 4.0, some 0⟩, ⟨"a", 10, 0.0, none⟩]
      ⟨30, .automatic 60.0, 5, 50⟩ 3600).health =
      (assess [⟨"a", 10, 0.0, none⟩, ⟨"b", 0, 4.0, some 0⟩]
        ⟨30, .automatic 60.0, 5, 50⟩ 3600).health ∧
    AgreeOff 0 [(⟨"a", 10, 0.0, none⟩ : Account), ⟨"b", 0, 4.0, some 0⟩]
      [⟨"a", 20, 0.0, none⟩, ⟨"b", 0, 4.0, some 0⟩] ∧
    (assess [⟨"a", 10, 0.0, none⟩, ⟨"b", 0, 4.0, some 0⟩]
      ⟨30, .automatic 60.0, 5, 50⟩ 3600).health ≤
      (assess [⟨"a", 20, 0.0, none⟩, ⟨"b", 0, 4.0, some 0⟩]
        ⟨30, .automatic 60.0, 5, 50⟩ 3600).health := by
  have hswap : Rearranges (Equiv.swap (0 : Fin 2) 1)
      [(⟨"a", 10, 0.0, none⟩ : Account), ⟨"b", 0, 4.0, some 0⟩]
      [⟨"b", 0, 4.0, some 0⟩, ⟨"a", 10, 0.0, none⟩] :=
    ⟨rfl, rfl, Fin.forall_fin_two.mpr ⟨rfl, rfl⟩⟩
  have hoff : AgreeOff 0 [(⟨"a", 10, 0.0, none⟩ : Account), ⟨"b", 0, 4.0, some 0⟩]
      [⟨"a", 20, 0.0, none⟩, ⟨"b", 0, 4.0, some 0⟩] := by
    refine ⟨rfl, ?_⟩
    rintro (_ | i) hi
    · exact absurd rfl hi
    · rfl
  obtain ⟨hrearranged, hlocal⟩ := assess_rearranges_agreeOff ⟨30, .automatic 60.0, 5, 50⟩ 3600
  refine ⟨hswap, (hrearranged hswap).2.1, hoff, ((hlocal hoff).2 ?_).1⟩
  rintro a ⟨⟩ b ⟨⟩
  decide +kernel

end Campaign.Risk
