import Campaign.Risk.Fleet
import Mathlib.Algebra.Order.Floor.Div
import Mathlib.Data.List.Forall2
import Mathlib.Order.Bounds.Basic

/-!
# The worst account decides

All accounts of a fleet send the same share of a launch, the least with which they reach every
recipient, and each is scored with its own limit, usage and activity. The health of the fleet is the
least of theirs, so a launch must be confirmed just when some account is below the threshold. A
fleet without accounts has nothing to lower its health.
-/

namespace Campaign.Risk

/-- The health of a fleet from those of its accounts. -/
def fleetHealth (healths : List Nat) : Nat := (worstHealth? healths).getD maxRisk

/-- What is reported about one account of a fleet of some size. -/
structure Scored (plan : Plan) (now : Int) (size : Nat) (account : Account)
    (report : AccountReport) : Prop where
  id_eq : report.id = account.id
  plannedMessages_isLeast : IsLeast {load | plan.recipients ≤ load * size} report.plannedMessages
  breakdown_eq : report.breakdown = evaluateAt
    { plannedMessages := report.plannedMessages
      averageDelay := plan.delay.average
      contentScore := plan.contentScore
      dailyLimit := account.dailyLimit
      usedLastDay := account.usedLastDay
      lastActivity := account.lastActivity } now
  totalRisk_le : report.breakdown.totalRisk ≤ 100
  health_eq : report.health = 100 - report.breakdown.totalRisk

/-- An outcome reports on every account in order, and the worst of them decides. -/
structure DecidedByWorst (accounts : List Account) (plan : Plan) (now : Int)
    (outcome : Assessment) : Prop where
  reports_scored : List.Forall₂ (Scored plan now accounts.length) accounts outcome.reports
  health_isLeast : accounts ≠ [] →
    IsLeast {health | ∃ report ∈ outcome.reports, report.health = health} outcome.health
  health_of_nil : accounts = [] → outcome.health = 100
  requiresConfirmation_iff : outcome.requiresConfirmation ↔
    (∃ report ∈ outcome.reports, report.health < plan.confirmBelow) ∨
      (accounts = [] ∧ 100 < plan.confirmBelow)
  /-- A threshold of 50 is the upper end of the lowest band. -/
  danger_iff : plan.confirmBelow = 50 → (outcome.requiresConfirmation ↔
    ∃ report ∈ outcome.reports, report.breakdown.level = .danger)

/-- A load is enough for each account exactly if the loads together cover the recipients. -/
theorem perAccountLoad_le_iff {recipients accounts load : Nat} (h : 0 < accounts) :
    perAccountLoad recipients accounts ≤ load ↔ recipients ≤ load * accounts := by
  rw [perAccountLoad, if_neg (Nat.ne_of_gt h), ← Nat.ceilDiv_eq_add_pred_div,
    ceilDiv_le_iff_le_mul h, Nat.mul_comm]

/-- The load of each account is the least with which all recipients are reached. -/
theorem isLeast_perAccountLoad (recipients : Nat) {accounts : Nat} (h : 0 < accounts) :
    IsLeast {load | recipients ≤ load * accounts} (perAccountLoad recipients accounts) :=
  ⟨(perAccountLoad_le_iff h).mp (Nat.le_refl _), fun _ hload => (perAccountLoad_le_iff h).mpr hload⟩

/-- Danger begins below a health of 50. -/
theorem Level.ofHealth_eq_danger_iff (health : Nat) : ofHealth health = .danger ↔ health < 50 := by
  unfold ofHealth
  split
  next => exact iff_of_false (by decide) (by omega)
  next =>
    split
    next => exact iff_of_false (by decide) (by omega)
    next => exact iff_of_true rfl (by omega)

section FleetHealth

variable {healths : List Nat}

/-- The health of a fleet is that of its worst account. -/
theorem isLeast_fleetHealth (hne : healths ≠ []) :
    IsLeast {health | health ∈ healths} (fleetHealth healths) := by
  rw [fleetHealth, worstHealth?]
  cases hmin : healths.min? with
  | none => exact absurd (List.min?_eq_none_iff.mp hmin) hne
  | some least =>
      obtain ⟨hmem, hle⟩ := List.min?_eq_some_iff.mp hmin
      exact ⟨hmem, fun health hhealth => hle health hhealth⟩

/-- A fleet is below a threshold if an account is. One without accounts is in full health. -/
theorem fleetHealth_lt_iff {threshold : Nat} : fleetHealth healths < threshold ↔
    (∃ health ∈ healths, health < threshold) ∨ (healths = [] ∧ maxRisk < threshold) := by
  by_cases hne : healths = []
  · subst hne
    simp [fleetHealth, worstHealth?]
  · obtain ⟨hmem, hle⟩ := isLeast_fleetHealth hne
    rw [or_iff_left fun h => hne h.1]
    constructor
    · exact fun hlt => ⟨_, hmem, hlt⟩
    · rintro ⟨health, hhealth, hlt⟩
      exact Nat.lt_of_le_of_lt (hle hhealth) hlt

/-- A fleet is no worse when none of its accounts is. -/
theorem fleetHealth_mono {others : List Nat} (h : List.Forall₂ (· ≤ ·) healths others) :
    fleetHealth healths ≤ fleetHealth others := by
  by_cases hne : others = []
  · subst hne
    rw [List.forall₂_nil_right_iff.mp h]
  · obtain ⟨i, hi, hworst⟩ := List.getElem_of_mem (isLeast_fleetHealth hne).1
    have hi' : i < healths.length := h.length_eq ▸ hi
    have hle : healths[i] ≤ others[i] := h.get hi' hi
    have hmem := List.getElem_mem hi'
    exact Nat.le_trans ((isLeast_fleetHealth (List.ne_nil_of_mem hmem)).2 hmem) (hworst ▸ hle)

end FleetHealth

section Assess

variable (accounts : List Account) (plan : Plan) (now : Int)

theorem assess_reports : (assess accounts plan now).reports =
    accounts.map (plan.report (perAccountLoad plan.recipients accounts.length) now) := rfl

theorem assess_health : (assess accounts plan now).health =
    fleetHealth ((assess accounts plan now).reports.map AccountReport.health) := rfl

/-- A launch must be confirmed if its health is below the threshold, and not at it. -/
theorem assess_requiresConfirmation_iff : (assess accounts plan now).requiresConfirmation ↔
    (assess accounts plan now).health < plan.confirmBelow := decide_eq_true_iff

variable {accounts}

theorem scored_report (hpos : 0 < accounts.length) (account : Account) :
    Scored plan now accounts.length account
      (plan.report (perAccountLoad plan.recipients accounts.length) now account) :=
  ⟨rfl, isLeast_perAccountLoad plan.recipients hpos, rfl, evaluateAt_totalRisk_le _ _, rfl⟩

variable (accounts)

/-- Each account has its report, in the order of the accounts. -/
theorem forall₂_scored_reports :
    List.Forall₂ (Scored plan now accounts.length) accounts (assess accounts plan now).reports := by
  rw [assess_reports, List.forall₂_map_right_iff, List.forall₂_same]
  intro account haccount
  exact scored_report plan now (List.length_pos_of_mem haccount) account

/-- A launch must be confirmed if one account is below the threshold, or if there is none and the
threshold is above full health. -/
theorem assess_requiresConfirmation_iff_exists :
    (assess accounts plan now).requiresConfirmation ↔
      (∃ report ∈ (assess accounts plan now).reports, report.health < plan.confirmBelow) ∨
        (accounts = [] ∧ 100 < plan.confirmBelow) := by
  rw [assess_requiresConfirmation_iff, assess_health, fleetHealth_lt_iff]
  simp [assess_reports, maxRisk]

/-- The launch gate is decided by the worst account of the fleet. -/
theorem assess_decidedByWorst :
    DecidedByWorst accounts plan now (assess accounts plan now) := by
  refine ⟨forall₂_scored_reports accounts plan now, ?_, ?_,
    assess_requiresConfirmation_iff_exists accounts plan now, ?_⟩
  · intro hne
    have hreports : (assess accounts plan now).reports.map AccountReport.health ≠ [] := by
      simpa [assess_reports] using hne
    have hleast := isLeast_fleetHealth hreports
    simpa [assess_health] using hleast
  · rintro rfl
    rfl
  · intro hthreshold
    rw [assess_requiresConfirmation_iff_exists, hthreshold, or_iff_left fun h => by omega]
    simp only [Breakdown.level, Level.ofHealth_eq_danger_iff, AccountReport.health]

end Assess

/-- A usage that is no number gives no risk at all. -/
example : ((assess [⟨"a", 10, 0.0 / 0.0, some 0⟩, ⟨"b", 10, 0.0, none⟩]
    ⟨30, .fixed 30.0 90.0, 5, 50⟩ 3600).reports.map AccountReport.health) = [100, 7] := by
  decide +kernel

end Campaign.Risk
