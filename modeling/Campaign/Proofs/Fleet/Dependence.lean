import Campaign.Proofs.Number.Order
import Campaign.Risk.Score

/-!
# What a score depends on

Of the account, a score sees only its limit and what is left of its usage. Usage does not fade
without a last activity or when it is not above zero, so then no time counts; a day after the last
activity nothing is left of it, so then its amount does not count, even one without a value; and
without a limit no usage counts at all. In these three cases two scores of one batch agree.

The day is counted in hours, as a quotient of doubles. Rounding keeps the order, and a whole day and
a second less than one are still told apart, so the bound on hours is one on seconds.
-/

namespace Campaign.Risk

open Campaign.Rounding

section Usage

variable {used : Float} {lastActivity : Option ℤ} {last now : ℤ}

/-- A number of seconds is at least 24 hours in doubles just when it is a day. -/
theorem day_le_iff (seconds : ℤ) : 24.0 ≤ nearest seconds / 3600.0 ↔ 86400 ≤ seconds := by
  have hhour : Factor 3600.0 := by decide
  constructor
  · intro h
    by_contra hless
    -- One second less than a day stays below 24 hours when it is rounded.
    have hmono : nearest seconds / 3600.0 ≤ nearest 86399 / 3600.0 :=
      float_div_le_div_right hhour (nearest_mono (by omega))
    exact absurd (float_le_trans h hmono) (by decide)
  · intro h
    have hday : 24.0 ≤ nearest 86400 / 3600.0 := by decide
    exact float_le_trans hday (float_div_le_div_right hhour (nearest_mono h))

/-- Usage without a last activity, and usage that is not above zero, is left as it is. What is not a
number counts as above zero here. -/
theorem effectiveUsage_of_unfading (h : lastActivity = none ∨ used ≤ 0.0) :
    effectiveUsage used lastActivity now = used := by
  cases lastActivity with
  | none => rfl
  | some last => exact if_pos (h.resolve_left (Option.some_ne_none last))

/-- A day after the last activity nothing is left, of what is not a number either. -/
theorem effectiveUsage_of_day (hused : ¬ used ≤ 0.0) (hday : 86400 ≤ elapsed last now) :
    effectiveUsage used (some last) now = 0.0 :=
  (if_neg hused).trans (if_pos ((day_le_iff _).mpr hday))

end Usage

/-- The usage of an input does not fade, whatever the time. -/
def Input.Unfading (input : Input) : Prop :=
  input.lastActivity = none ∨ input.usedLastDay ≤ 0.0

/-- An input has no usage, or none that is left at a time: a day has passed since its last activity,
in the difference that is kept within 64 bits. -/
def Input.SpentAt (input : Input) (now : ℤ) : Prop :=
  input.usedLastDay = 0.0 ∨
    ¬ input.usedLastDay ≤ 0.0 ∧ ∃ last, input.lastActivity = some last ∧ 86400 ≤ elapsed last now

/-- What is left of the usage of an input at a time. -/
def Input.usageLeft (input : Input) (now : ℤ) : Float :=
  effectiveUsage input.usedLastDay input.lastActivity now

theorem Input.Unfading.usageLeft_eq {input : Input} (h : input.Unfading) (now : ℤ) :
    input.usageLeft now = input.usedLastDay :=
  effectiveUsage_of_unfading h

theorem Input.SpentAt.usageLeft_eq {input : Input} {now : ℤ} (h : input.SpentAt now) :
    input.usageLeft now = 0.0 := by
  rcases h with hzero | ⟨hused, last, hlast, hday⟩
  · have hnonpos : input.usedLastDay ≤ 0.0 := by
      rw [hzero]
      decide
    rw [Input.usageLeft, effectiveUsage_of_unfading (.inr hnonpos), hzero]
  · rw [Input.usageLeft, hlast, effectiveUsage_of_day hused hday]

/-- Two inputs that differ at most in the usage of the account and its last activity. -/
structure SameBatch (a b : Input) : Prop where
  plannedMessages_eq : a.plannedMessages = b.plannedMessages
  averageDelay_eq : a.averageDelay = b.averageDelay
  contentScore_eq : a.contentScore = b.contentScore
  dailyLimit_eq : a.dailyLimit = b.dailyLimit

/-- The penalty for load of an input at a time, before it is scaled. -/
def Input.loadAt (input : Input) (now : ℤ) : Float :=
  loadPenalty (input.usageLeft now + nearest input.plannedMessages) input.dailyLimit

/-- The breakdown of an input with a penalty for load. -/
def Input.breakdownFor (input : Input) (load : Float) : Breakdown :=
  let speed := speedPenalty input.averageDelay
  let content := contentPenalty input.contentScore
  let bonus := bonusFactor input.plannedMessages
  { totalRisk := min (floorScore ((load + speed + content) * bonus)) maxRisk
    loadPenalty := floorScore (load * bonus)
    speedPenalty := floorScore (speed * bonus)
    contentPenalty := floorScore (content * bonus)
    bonusFactor := bonus }

/-- Times and usage enter the score through the penalty for load only. -/
theorem evaluateAt_eq_breakdownFor (input : Input) (now : ℤ) :
    evaluateAt input now = input.breakdownFor (input.loadAt now) := rfl

section Agreement

variable {a b : Input} {nowA nowB : ℤ}

/-- The usage, the last activity and the time are seen in the penalty for load only. -/
theorem SameBatch.evaluateAt_eq_of_load (h : SameBatch a b)
    (hload : a.loadAt nowA = b.loadAt nowB) : evaluateAt a nowA = evaluateAt b nowB := by
  rw [evaluateAt_eq_breakdownFor, evaluateAt_eq_breakdownFor, hload]
  rw [Input.breakdownFor, h.plannedMessages_eq, h.averageDelay_eq, h.contentScore_eq]
  rfl

/-- The load of a batch depends on what is left of its usage only. -/
theorem SameBatch.loadAt_eq_of_usage (h : SameBatch a b)
    (husage : a.usageLeft nowA = b.usageLeft nowB) : a.loadAt nowA = b.loadAt nowB := by
  rw [Input.loadAt, Input.loadAt, husage, h.plannedMessages_eq, h.dailyLimit_eq]

/-- Without a limit there is no penalty for load, whatever the usage. -/
theorem Input.loadAt_of_unlimited {input : Input} (h : input.dailyLimit = 0) (now : ℤ) :
    input.loadAt now = 0.0 :=
  if_pos h

/-- Two scores of one batch agree without a limit, for usage that is the same and does not fade, and
for usage of which nothing is left. -/
theorem evaluateAt_eq_of_sameBatch (hbatch : SameBatch a b)
    (h : a.dailyLimit = 0 ∨
      (a.usedLastDay = b.usedLastDay ∧ a.Unfading ∧ b.Unfading) ∨
      (a.SpentAt nowA ∧ b.SpentAt nowB)) :
    evaluateAt a nowA = evaluateAt b nowB := by
  apply hbatch.evaluateAt_eq_of_load
  rcases h with hlimit | ⟨hused, ha, hb⟩ | ⟨ha, hb⟩
  · -- The usages may differ here, and one of them may be without a value.
    have hlimitB : b.dailyLimit = 0 := hbatch.dailyLimit_eq ▸ hlimit
    rw [Input.loadAt_of_unlimited hlimit, Input.loadAt_of_unlimited hlimitB]
  · apply hbatch.loadAt_eq_of_usage
    rw [ha.usageLeft_eq, hb.usageLeft_eq, hused]
  · apply hbatch.loadAt_eq_of_usage
    rw [ha.usageLeft_eq, hb.usageLeft_eq]

end Agreement

/-- One instance of each case: spent usage that is not a number, usage below zero, and two usages that
are not finite without a limit. -/
theorem evaluateAt_eq_of_sameBatch_idle :
    evaluateAt ⟨14, 45.0, 5, 50, 0.0 / 0.0, some int64Min⟩ int64Max =
        evaluateAt ⟨14, 45.0, 5, 50, 0.0, none⟩ 0 ∧
      evaluateAt ⟨14, 45.0, 5, 50, -3.0, some 0⟩ 3600 =
        evaluateAt ⟨14, 45.0, 5, 50, -3.0, none⟩ 0 ∧
      evaluateAt ⟨14, 45.0, 5, 0, 0.0 / 0.0, some 0⟩ 3600 =
        evaluateAt ⟨14, 45.0, 5, 0, 1.0 / 0.0, none⟩ 0 := by
  refine ⟨?_, ?_, ?_⟩
  · -- The difference of the two times is past 64 bits.
    refine evaluateAt_eq_of_sameBatch ⟨rfl, rfl, rfl, rfl⟩ (.inr (.inr ⟨.inr ⟨?_, ?_⟩, .inl rfl⟩))
    · decide +kernel
    · exact ⟨int64Min, rfl, by decide⟩
  · refine evaluateAt_eq_of_sameBatch ⟨rfl, rfl, rfl, rfl⟩ (.inr (.inl ⟨rfl, .inr ?_, .inl rfl⟩))
    decide +kernel
  · exact evaluateAt_eq_of_sameBatch ⟨rfl, rfl, rfl, rfl⟩ (.inl rfl)

end Campaign.Risk
