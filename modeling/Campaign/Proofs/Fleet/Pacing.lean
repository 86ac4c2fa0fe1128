import Campaign.Proofs.Fleet.Gate
import Campaign.Proofs.Number.Order

/-!
# Slower and more varied sending

A longer delay lowers the penalty for speed and more variations lower that for uniform messages. The
penalty for load depends on neither, and the score is made of the three by operations on doubles that
keep the order, so no account is at greater risk. Only a load without a value stops the comparison,
and it brings every score to zero.
-/

namespace Campaign.Risk

open Campaign.Rounding

section Speed

variable {delay slower : Float}

/-- What is taken for each second below a minute. -/
def shortPenalty (delay : Float) : Float := if delay < 60.0 then (60.0 - delay) * 0.8 else 0.0

/-- Short delays cost more the shorter they are, and those below ten seconds cost 30 on top. -/
theorem speedPenalty_eq (delay : Float) : speedPenalty delay =
    if delay < 10.0 then shortPenalty delay + 30.0 else shortPenalty delay := rfl

theorem shortPenalty_nonneg (h : delay ≤ delay) : 0.0 ≤ shortPenalty delay := by
  unfold shortPenalty
  split
  next hlt =>
    have hle : delay ≤ 60.0 := float_le_of_lt h (by decide) hlt
    exact float_mul_nonneg (by decide) (float_sub_nonneg (by decide) hle)
  next => decide

theorem shortPenalty_antitone (h : delay ≤ slower) : shortPenalty slower ≤ shortPenalty delay := by
  by_cases hslower : slower < 60.0
  · have hdelay : delay < 60.0 := float_lt_of_le_of_lt h (by decide) hslower
    rw [shortPenalty, shortPenalty, if_pos hslower, if_pos hdelay]
    exact float_mul_le_mul (by decide) (float_sub_le_sub (by decide) h)
  · rw [shortPenalty, if_neg hslower]
    exact shortPenalty_nonneg (float_le_refl_left h)

theorem shortPenalty_le_speedPenalty (h : delay ≤ delay) :
    shortPenalty delay ≤ speedPenalty delay := by
  have hshort := shortPenalty_nonneg h
  rw [speedPenalty_eq]
  split
  next => exact float_le_add_right hshort (by decide)
  next => exact shortPenalty_antitone h

theorem speedPenalty_nonneg (h : delay ≤ delay) : 0.0 ≤ speedPenalty delay :=
  float_le_trans (shortPenalty_nonneg h) (shortPenalty_le_speedPenalty h)

/-- A slower launch has no greater penalty for speed: what comes on top below ten seconds falls away
only upwards. -/
theorem speedPenalty_antitone (h : delay ≤ slower) : speedPenalty slower ≤ speedPenalty delay := by
  have hself := float_le_refl_left h
  have hshort := shortPenalty_antitone h
  by_cases hslower : slower < 10.0
  · have hdelay : delay < 10.0 := float_lt_of_le_of_lt h (by decide) hslower
    have hnonneg : 0.0 ≤ shortPenalty slower := shortPenalty_nonneg (float_le_refl_right h)
    rw [speedPenalty_eq slower, speedPenalty_eq delay, if_pos hslower, if_pos hdelay]
    exact float_add_le_add hnonneg (by decide) hshort (by decide)
  · -- The jump at ten seconds is on the side of the shorter delay.
    rw [speedPenalty_eq slower, if_neg hslower]
    exact float_le_trans hshort (shortPenalty_le_speedPenalty hself)

end Speed

section Content

theorem nearest_pos {n : ℤ} (h : 1 ≤ n) : 0.0 < nearest n :=
  float_lt_of_lt_of_le (by decide) (by decide : 0.0 < nearest 1) (nearest_mono h)

variable {score varied : ℕ}

theorem contentPenalty_of_pos (h : 1 ≤ score) : contentPenalty score = 20.0 / nearest score :=
  if_neg (Nat.one_le_iff_ne_zero.mp h)

theorem contentPenalty_nonneg (score : ℕ) : 0.0 ≤ contentPenalty score := by
  rcases Nat.eq_zero_or_pos score with rfl | hpos
  · decide
  · rw [contentPenalty_of_pos hpos]
    exact float_div_nonneg (by decide) (nearest_pos (by omega)) (nearest_mono le_rfl)

/-- More variation has no greater penalty for content; none at all has the greatest. -/
theorem contentPenalty_antitone (h : score ≤ varied) :
    contentPenalty varied ≤ contentPenalty score := by
  have hfactor : Factor 20.0 := by decide
  rcases Nat.eq_zero_or_pos score with rfl | hpos
  · rcases Nat.eq_zero_or_pos varied with rfl | hvaried
    · decide
    · have hone : contentPenalty 1 ≤ contentPenalty 0 := by decide
      apply float_le_trans _ hone
      rw [contentPenalty_of_pos hvaried, contentPenalty_of_pos le_rfl]
      exact float_div_le_div hfactor (nearest_pos le_rfl) (nearest_mono (by omega))
  · rw [contentPenalty_of_pos (hpos.trans_le h), contentPenalty_of_pos hpos]
    exact float_div_le_div hfactor (nearest_pos (by omega)) (nearest_mono (by omega))

end Content

/-- The penalty for load is not negative, where it has a value. -/
theorem loadPenalty_nonneg (projected : Float) (dailyLimit : ℕ) :
    value? (loadPenalty projected dailyLimit) = none ∨ 0.0 ≤ loadPenalty projected dailyLimit := by
  unfold loadPenalty
  split
  next => exact .inr (by decide)
  next =>
    dsimp only
    split
    next => exact .inr (by decide)
    next =>
      cases hratio : value? (projected / nearest dailyLimit) with
      | none => exact .inl (value?_mul_none (value?_mul_none hratio))
      | some x =>
          have hself := (le_iff_value? hratio hratio).mpr le_rfl
          exact .inr (float_mul_nonneg (by decide) (float_mul_self_nonneg hself))

/-- Whatever the size of a batch, its bonus is a factor that keeps the order. -/
theorem bonusFactor_factor (plannedMessages : ℕ) : Factor (bonusFactor plannedMessages) := by
  unfold bonusFactor
  split_ifs <;> decide

section Score

/-- The score of the three penalties for a batch. -/
def scoreOf (load speed content bonus : Float) : ℕ :=
  min (floorScore ((load + speed + content) * bonus)) maxRisk

/-- A load that is not a number makes a score of zero. -/
theorem scoreOf_none {load : Float} (h : value? load = none) (speed content bonus : Float) :
    scoreOf load speed content bonus = 0 := by
  rw [scoreOf, floorScore_of_none (value?_mul_none (value?_add_none (value?_add_none h)))]
  rfl

/-- The score grows with each of the three penalties. -/
theorem scoreOf_mono {load heavier speed faster content duller bonus : Float}
    (hbonus : Factor bonus) (hload : 0.0 ≤ load) (hspeed : 0.0 ≤ speed) (hcontent : 0.0 ≤ content)
    (hheavier : load ≤ heavier) (hfaster : speed ≤ faster) (hduller : content ≤ duller) :
    scoreOf load speed content bonus ≤ scoreOf heavier faster duller bonus := by
  apply min_le_min_right
  apply floorScore_mono
  apply float_mul_le_mul hbonus
  apply float_add_le_add (float_add_nonneg hload hspeed) hcontent _ hduller
  exact float_add_le_add hload hspeed hheavier hfaster

variable (input : Input) (now : ℤ) {slower : Float} {varied : ℕ}

/-- An account is at no greater risk when its messages come slower and vary more. -/
theorem evaluateAt_totalRisk_antitone (hdelay : input.averageDelay ≤ slower)
    (hscore : input.contentScore ≤ varied) :
    (evaluateAt { input with averageDelay := slower, contentScore := varied } now).totalRisk ≤
      (evaluateAt input now).totalRisk := by
  let load := loadPenalty (effectiveUsage input.usedLastDay input.lastActivity now +
    nearest input.plannedMessages) input.dailyLimit
  change scoreOf load (speedPenalty slower) (contentPenalty varied) _ ≤
    scoreOf load (speedPenalty input.averageDelay) (contentPenalty input.contentScore) _
  rcases loadPenalty_nonneg _ _ with hnone | hload
  · rw [scoreOf_none hnone, scoreOf_none hnone]
  · exact scoreOf_mono (bonusFactor_factor _) hload
      (speedPenalty_nonneg (float_le_refl_right hdelay)) (contentPenalty_nonneg varied)
      (float_le_refl_right hload) (speedPenalty_antitone hdelay) (contentPenalty_antitone hscore)

end Score

/-- The second of two reports on an account is no worse than the first. -/
structure NoWorse (first second : AccountReport) : Prop where
  id_eq : second.id = first.id
  totalRisk_le : second.breakdown.totalRisk ≤ first.breakdown.totalRisk
  health_le : first.health ≤ second.health

section Assess

variable (accounts : List Account) (plan : Plan) (now : ℤ) {delay : Delay} {varied : ℕ}

/-- With a slower and more varied launch, the report on an account is no worse. -/
theorem report_noWorse (hdelay : plan.delay.average ≤ delay.average)
    (hscore : plan.contentScore ≤ varied) (share : ℕ) (account : Account) :
    NoWorse (plan.report share now account)
      ({ plan with delay := delay, contentScore := varied }.report share now account) := by
  have hrisk := evaluateAt_totalRisk_antitone (plan.inputFor share account) now hdelay hscore
  exact ⟨rfl, hrisk, Nat.sub_le_sub_left hrisk maxRisk⟩

/-- No report of a slower and more varied launch is worse than the one on the same account before. -/
theorem reports_noWorse (hdelay : plan.delay.average ≤ delay.average)
    (hscore : plan.contentScore ≤ varied) :
    List.Forall₂ NoWorse (assess accounts plan now).reports
      (assess accounts { plan with delay := delay, contentScore := varied } now).reports := by
  rw [assess_reports, assess_reports, List.forall₂_map_left_iff, List.forall₂_map_right_iff,
    List.forall₂_same]
  intro account _
  exact report_noWorse plan now hdelay hscore _ account

/-- Slower and more varied sending is never riskier: no account and so no fleet is worse for it, and
no launch is gated that was not before. Delays that can be compared have values. -/
theorem assess_slower_varied (hdelay : plan.delay.average ≤ delay.average)
    (hscore : plan.contentScore ≤ varied) :
    let slower : Plan := { plan with delay := delay, contentScore := varied }
    List.Forall₂ NoWorse (assess accounts plan now).reports (assess accounts slower now).reports ∧
      (assess accounts plan now).health ≤ (assess accounts slower now).health ∧
      ((assess accounts slower now).requiresConfirmation →
        (assess accounts plan now).requiresConfirmation) := by
  intro slower
  have hreports := reports_noWorse accounts plan now hdelay hscore
  have hhealth : (assess accounts plan now).health ≤ (assess accounts slower now).health := by
    apply fleetHealth_mono
    rw [List.forall₂_map_left_iff, List.forall₂_map_right_iff]
    exact hreports.imp fun _ _ h => h.health_le
  refine ⟨hreports, hhealth, ?_⟩
  intro hgated
  rw [assess_requiresConfirmation_iff] at hgated ⊢
  exact hhealth.trans_lt hgated

end Assess

/-- Two accounts, one with a usage that is not a number, from short fixed delays to a minute and
from no variations to five. -/
theorem assess_slower_varied_pair :
    (Delay.fixed 5.0 9.0).average ≤ (Delay.automatic 60.0).average ∧
    (assess [⟨"a", 10, 0.0 / 0.0, some 0⟩, ⟨"b", 10, 0.0, none⟩]
      ⟨14, .fixed 5.0 9.0, 0, 50⟩ 3600).health ≤
      (assess [⟨"a", 10, 0.0 / 0.0, some 0⟩, ⟨"b", 10, 0.0, none⟩]
        ⟨14, .automatic 60.0, 5, 50⟩ 3600).health := by
  have hdelay : (Delay.fixed 5.0 9.0).average ≤ (Delay.automatic 60.0).average := by
    decide +kernel
  have hscore : 0 ≤ 5 := by decide
  exact ⟨hdelay, (assess_slower_varied [⟨"a", 10, 0.0 / 0.0, some 0⟩, ⟨"b", 10, 0.0, none⟩]
    ⟨14, .fixed 5.0 9.0, 0, 50⟩ 3600 hdelay hscore).2.1⟩

end Campaign.Risk
