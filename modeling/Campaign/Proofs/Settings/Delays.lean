import Campaign.Proofs.Number.Order
import Campaign.Proofs.Settings.Overriding

/-!
# The delay behind environments

The bounds of a delay are put in the place of others one by one, so they may come to stand the wrong
way round. The delay of a launch has them in order all the same, and its average does not depend on
which is which: the sum of two doubles does not depend on their order. A sum that is past the greatest
double is infinite, not without a value, and so is its half.
-/

namespace Campaign

open Risk Rounding

/-- The delays that are set are finite and not below zero. -/
structure LaunchSettings.HasDelays (l : LaunchSettings) : Prop where
  shortest : IsDelay l.shortestDelay
  longest : IsDelay l.longestDelay
  auto : IsDelay l.autoDelay

/-- Settings with the two bounds of the delay exchanged. -/
def LaunchSettings.exchanged (l : LaunchSettings) : LaunchSettings :=
  { l with shortestDelay := l.longestDelay, longestDelay := l.shortestDelay }

/-- The delay of launches is the one that is set, with its bounds in order, and its average is a
number that is not below zero and does not depend on which bound is which. -/
structure LaunchSettings.PacesSanely (l : LaunchSettings) : Prop where
  delay_of_auto : l.timing = .auto → l.delay = .automatic l.autoDelay
  delay_of_fixed : l.timing = .fixed → ∃ shortest longest, l.delay = .fixed shortest longest ∧
    shortest ≤ longest ∧
    (shortest = l.shortestDelay ∧ longest = l.longestDelay ∨
      shortest = l.longestDelay ∧ longest = l.shortestDelay)
  average_exchanged : l.exchanged.delay.average = l.delay.average
  average_isNumber : ¬ l.delay.average.isNaN
  average_nonneg : ¬ l.delay.average < 0.0

section Delay

variable {l : LaunchSettings}

theorem IsDelay.nonneg {x : Float} (h : IsDelay x) : 0.0 ≤ x := (isDelay_iff.mp h).2

theorem delay_of_timing_auto (h : l.timing = .auto) : l.delay = .automatic l.autoDelay := by
  rw [LaunchSettings.delay, h]

/-- Bounds that are the wrong way round change places. -/
theorem delay_of_timing_fixed (h : l.timing = .fixed) : l.delay =
    if l.longestDelay < l.shortestDelay then .fixed l.longestDelay l.shortestDelay
    else .fixed l.shortestDelay l.longestDelay := by
  rw [LaunchSettings.delay, h]

/-- Whichever bound is which, the average is half their sum. -/
theorem average_of_timing_fixed (h : l.timing = .fixed) :
    l.delay.average = (l.shortestDelay + l.longestDelay) / 2.0 := by
  rw [delay_of_timing_fixed h]
  split
  next => rw [Delay.average, float_add_comm]
  next => rfl

/-- The average does not depend on which bound is which, whether or not they are numbers. -/
theorem average_exchanged (l : LaunchSettings) : l.exchanged.delay.average = l.delay.average := by
  cases htiming : l.timing with
  | auto =>
      have hexchanged : l.exchanged.timing = .auto := htiming
      rw [delay_of_timing_auto htiming, delay_of_timing_auto hexchanged]
      rfl
  | fixed =>
      have hexchanged : l.exchanged.timing = .fixed := htiming
      rw [average_of_timing_fixed htiming, average_of_timing_fixed hexchanged]
      exact congrArg (· / 2.0) (float_add_comm l.longestDelay l.shortestDelay)

/-- The average of delays is a number and not below zero, also where their sum is infinite. -/
theorem delay_average_nonneg (h : l.HasDelays) : 0.0 ≤ l.delay.average := by
  cases htiming : l.timing with
  | auto =>
      rw [delay_of_timing_auto htiming]
      exact h.auto.nonneg
  | fixed =>
      rw [average_of_timing_fixed htiming]
      exact float_div_factor_nonneg (by decide)
        (float_add_nonneg h.shortest.nonneg h.longest.nonneg)

/-- The bounds of the delay are in order, and they are those that are set. -/
theorem exists_bounds_of_timing_fixed (h : l.HasDelays) (htiming : l.timing = .fixed) :
    ∃ shortest longest, l.delay = .fixed shortest longest ∧ shortest ≤ longest ∧
      (shortest = l.shortestDelay ∧ longest = l.longestDelay ∨
        shortest = l.longestDelay ∧ longest = l.shortestDelay) := by
  have hshortest := float_le_refl_right h.shortest.nonneg
  have hlongest := float_le_refl_right h.longest.nonneg
  rw [delay_of_timing_fixed htiming]
  split
  next hlt => exact ⟨_, _, rfl, float_le_of_lt hlongest hshortest hlt, .inr ⟨rfl, rfl⟩⟩
  next hlt => exact ⟨_, _, rfl, (float_not_lt hlongest hshortest).mp hlt, .inl ⟨rfl, rfl⟩⟩

/-- Delays that are set make a delay of launches that makes sense. -/
theorem LaunchSettings.HasDelays.pacesSanely (h : l.HasDelays) : l.PacesSanely where
  delay_of_auto := delay_of_timing_auto
  delay_of_fixed := exists_bounds_of_timing_fixed h
  average_exchanged := average_exchanged l
  average_isNumber := float_le_self_iff.mp (float_le_refl_right (delay_average_nonneg h))
  average_nonneg := by
    have hself := float_le_refl_right (delay_average_nonneg h)
    exact (float_not_lt hself (by decide)).mpr (delay_average_nonneg h)

end Delay

section Run

variable {s : Settings}

theorem hasDelays_iff {l : LaunchSettings} :
    l.HasDelays ↔ ∀ p ∈ delayVariables, IsDelay (p.2 l) := by
  simp only [delayVariables, List.forall_mem_cons]
  constructor
  · intro h
    exact ⟨h.shortest, h.longest, h.auto, List.forall_mem_nil _⟩
  · rintro ⟨hshortest, hlongest, hauto, -⟩
    exact ⟨hshortest, hlongest, hauto⟩

/-- A step takes only values that are delays, and so does a run. -/
theorem LaunchSettings.HasDelays.overrideAll (h : s.launch.HasDelays) (envs : List Environment) :
    (s.overrideAll envs).launch.HasDelays := by
  rw [hasDelays_iff] at h ⊢
  exact fun p hp => (overridden_overrideAll s envs).isDelay p hp (h p hp)

/-- Behind any row of environments the delay of launches makes sense, if it was set to delays at
first. -/
theorem overrideAll_pacesSanely (h : s.launch.HasDelays) (envs : List Environment) :
    (s.overrideAll envs).launch.PacesSanely :=
  (h.overrideAll envs).pacesSanely

end Run

/-- Two bounds whose sum is past the greatest double, given the wrong way round by two environments.
-/
theorem overrideAll_pacesSanely_overflow :
    let greatest : Environment := fun n =>
      if n = "SPINWHEEL_MIN_DELAY_SECS" then some "1.7e308" else none
    let great : Environment := fun n =>
      if n = "SPINWHEEL_MAX_DELAY_SECS" then some "1e308" else none
    ({} : Settings).launch.HasDelays ∧
      (({} : Settings).overrideAll [greatest, great]).launch.PacesSanely ∧
      (({} : Settings).overrideAll [greatest, great]).launch.delay.average = 1.0 / 0.0 := by
  intro greatest great
  have hdelays : ({} : Settings).launch.HasDelays :=
    ⟨isDelay_iff.mpr (by decide), isDelay_iff.mpr (by decide),
      isDelay_iff.mpr (by decide)⟩
  exact ⟨hdelays, overrideAll_pacesSanely hdelays [greatest, great], by decide +kernel⟩

end Campaign
