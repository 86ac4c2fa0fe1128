import Campaign.Proofs.Fleet.Dependence

/-!
# Fading usage

While a day has not passed since the last activity, a share of the usage is left that falls with the
time. The share starts from the whole at the last activity, so after it usage is never more than what
was used. Before it, when the last activity lies ahead of the time, the same line goes on above the
whole, and nothing holds it there: usage that has not begun to fade is made more.
-/

namespace Campaign.Risk

open Campaign.Rounding

section Elapsed

variable {last now later : ℤ}

theorem elapsed_bounds (last now : ℤ) : int64Min ≤ elapsed last now ∧ elapsed last now ≤ int64Max := by
  unfold elapsed int64Min int64Max
  omega

theorem elapsed_mono (last : ℤ) (h : now ≤ later) : elapsed last now ≤ elapsed last later := by
  unfold elapsed int64Min int64Max
  omega

theorem elapsed_nonneg (h : last ≤ now) : 0 ≤ elapsed last now := by
  unfold elapsed int64Min int64Max
  omega

theorem elapsed_nonpos (h : now ≤ last) : elapsed last now ≤ 0 := by
  unfold elapsed int64Min int64Max
  omega

end Elapsed

section Share

variable {s t : ℤ}

/-- The whole less a twenty-fourth for each hour in a number of seconds. -/
def linearShare (seconds : ℤ) : Float := 1.0 - nearest seconds / 3600.0 / 24.0

/-- The share of usage that is left a number of seconds after the last activity. -/
def shareLeft (seconds : ℤ) : Float :=
  if linearShare seconds < 0.0 then 0.0 else linearShare seconds

theorem linearShare_antitone (h : s ≤ t) : linearShare t ≤ linearShare s := by
  apply float_sub_le_sub (by decide)
  apply float_div_le_div_right (by decide)
  exact float_div_le_div_right (by decide) (nearest_mono h)

/-- The share is never below zero. -/
theorem shareLeft_nonneg (seconds : ℤ) : 0.0 ≤ shareLeft seconds := by
  unfold shareLeft
  split
  next => decide
  next hlinear =>
    have hself : linearShare seconds ≤ linearShare seconds := linearShare_antitone le_rfl
    exact (float_not_lt hself (by decide)).mp hlinear

/-- Held at zero, the share still falls with the time. -/
theorem shareLeft_antitone (h : s ≤ t) : shareLeft t ≤ shareLeft s := by
  have hlinear := linearShare_antitone h
  by_cases ht : linearShare t < 0.0
  · rw [shareLeft, if_pos ht]
    exact shareLeft_nonneg s
  · have hs : ¬ linearShare s < 0.0 := fun hs => ht (float_lt_of_le_of_lt hlinear (by decide) hs)
    rwa [shareLeft, shareLeft, if_neg ht, if_neg hs]

theorem shareLeft_isFinite (last now : ℤ) : (shareLeft (elapsed last now)).isFinite := by
  obtain ⟨hleast, hgreatest⟩ := elapsed_bounds last now
  apply float_isFinite_of_le (shareLeft_antitone hgreatest) (shareLeft_antitone hleast)
  · decide
  · decide

end Share

section Usage

variable {used more : Float} {last now later : ℤ}

/-- Within a day of the last activity a share of the usage is left. -/
theorem effectiveUsage_of_fading (hused : ¬ used ≤ 0.0) (h : elapsed last now < 86400) :
    effectiveUsage used (some last) now = used * shareLeft (elapsed last now) := by
  have hday : ¬ 24.0 ≤ nearest (elapsed last now) / 3600.0 := by
    rw [day_le_iff]
    omega
  exact (if_neg hused).trans (if_neg hday)

/-- With a last activity, all of the usage, a share of it or nothing is left. -/
theorem effectiveUsage_cases (used : Float) (last now : ℤ) :
    effectiveUsage used (some last) now = used ∨
      effectiveUsage used (some last) now = used * shareLeft (elapsed last now) ∨
      0 < elapsed last now ∧ effectiveUsage used (some last) now = 0.0 := by
  by_cases hzero : used ≤ 0.0
  · exact .inl (effectiveUsage_of_unfading (.inr hzero))
  · rcases lt_or_ge (elapsed last now) 86400 with hless | hday
    · exact .inr (.inl (effectiveUsage_of_fading hzero hless))
    · exact .inr (.inr ⟨by omega, effectiveUsage_of_day hzero hday⟩)

/-- What is left of usage is never below zero. -/
theorem effectiveUsage_nonneg (hused : 0.0 ≤ used) (hfinite : used.isFinite)
    (lastActivity : Option ℤ) (now : ℤ) : 0.0 ≤ effectiveUsage used lastActivity now := by
  cases lastActivity with
  | none => exact hused
  | some last =>
      rcases effectiveUsage_cases used last now with hall | hshare | ⟨-, hnothing⟩
      · rwa [hall]
      · rw [hshare]
        exact float_mul_nonneg_of_finite hused (shareLeft_nonneg _) hfinite
          (shareLeft_isFinite last now)
      · rw [hnothing]
        decide

/-- As time goes by, no more usage is left. -/
theorem effectiveUsage_antitone (hused : 0.0 ≤ used) (hfinite : used.isFinite) (last : ℤ)
    (h : now ≤ later) :
    effectiveUsage used (some last) later ≤ effectiveUsage used (some last) now := by
  have hself := float_le_refl_right hused
  by_cases hzero : used ≤ 0.0
  · rwa [effectiveUsage_of_unfading (.inr hzero), effectiveUsage_of_unfading (.inr hzero)]
  · have helapsed := elapsed_mono last h
    rcases lt_or_ge (elapsed last later) 86400 with hless | hday
    · rw [effectiveUsage_of_fading hzero hless,
        effectiveUsage_of_fading hzero (helapsed.trans_lt hless)]
      exact float_mul_le_mul_of_nonneg hused (shareLeft_nonneg _) hself
        (shareLeft_antitone helapsed) hfinite (shareLeft_isFinite last now)
    · rw [effectiveUsage_of_day hzero hday]
      exact effectiveUsage_nonneg hused hfinite (some last) now

/-- From the last activity on, no more is left than was used. -/
theorem effectiveUsage_le (hused : 0.0 ≤ used) (hfinite : used.isFinite) (h : last ≤ now) :
    effectiveUsage used (some last) now ≤ used := by
  rcases effectiveUsage_cases used last now with hall | hshare | ⟨-, hnothing⟩
  · rw [hall]
    exact float_le_refl_right hused
  · have hwhole : shareLeft 0 ≤ 1.0 := by decide
    rw [hshare]
    exact float_mul_le_self hused hfinite (shareLeft_nonneg _)
      (float_le_trans (shareLeft_antitone (elapsed_nonneg h)) hwhole)
  · rwa [hnothing]

/-- Before the last activity, no less is left than was used. -/
theorem le_effectiveUsage (hused : 0.0 ≤ used) (hfinite : used.isFinite) (h : now ≤ last) :
    used ≤ effectiveUsage used (some last) now := by
  have helapsed := elapsed_nonpos h
  rcases effectiveUsage_cases used last now with hall | hshare | ⟨hpos, -⟩
  · rw [hall]
    exact float_le_refl_right hused
  · have hwhole : 1.0 ≤ shareLeft 0 := by decide
    rw [hshare]
    exact float_le_mul_self hused hfinite (float_le_trans hwhole (shareLeft_antitone helapsed))
      (shareLeft_isFinite last now)
  · exact absurd helapsed (not_le.mpr hpos)

/-- Usage is never below zero and never grows with the time. It is at most what was used from the last
activity on, and at least that before it. -/
theorem effectiveUsage_fades (hused : 0.0 ≤ used) (hfinite : used.isFinite) (last : ℤ)
    (h : now ≤ later) :
    0.0 ≤ effectiveUsage used (some last) now ∧
      effectiveUsage used (some last) later ≤ effectiveUsage used (some last) now ∧
      (last ≤ now → effectiveUsage used (some last) now ≤ used) ∧
      (now ≤ last → used ≤ effectiveUsage used (some last) now) :=
  ⟨effectiveUsage_nonneg hused hfinite (some last) now, effectiveUsage_antitone hused hfinite last h,
    effectiveUsage_le hused hfinite, le_effectiveUsage hused hfinite⟩

/-- Ten messages, an hour and just under a day after them. -/
theorem effectiveUsage_fades_hour :
    0.0 ≤ (10.0 : Float) ∧ (10.0 : Float).isFinite ∧ (3600 : ℤ) ≤ 86399 ∧
      effectiveUsage 10.0 (some 0) 86399 ≤ effectiveUsage 10.0 (some 0) 3600 ∧
      effectiveUsage 10.0 (some 0) 3600 ≤ 10.0 := by
  have hused : 0.0 ≤ (10.0 : Float) := by decide
  have hfinite : (10.0 : Float).isFinite := by decide
  have h : (3600 : ℤ) ≤ 86399 := by decide
  obtain ⟨-, hfades, hle, -⟩ := effectiveUsage_fades hused hfinite 0 h
  exact ⟨hused, hfinite, h, hfades, hle (by decide)⟩

/-- An hour before the last activity, more usage is left than there was. -/
theorem lt_effectiveUsage_ahead : 10.0 < effectiveUsage 10.0 (some 7200) 3600 := by
  decide

end Usage

end Campaign.Risk
