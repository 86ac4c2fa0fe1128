import Campaign.Proofs.Number.Value

/-!
# Monotone operations on doubles

What is monotone for extended reals is monotone for doubles, since both operands are exact and
rounding keeps the order. A comparison of two doubles says that neither of them is without a value.
-/

namespace Campaign.Rounding

variable {a b c d : Float}

/-- The order of doubles is transitive. -/
theorem float_le_trans (hab : a ≤ b) (hbc : b ≤ c) : a ≤ c := by
  obtain ⟨x, y, hx, hy, hxy⟩ := exists_value?_of_le hab
  obtain ⟨y', z, hy', hz, hyz⟩ := exists_value?_of_le hbc
  obtain rfl := Option.some.inj (hy.symm.trans hy')
  exact (le_iff_value? hx hz).mpr (hxy.trans hyz)

theorem float_le_refl_left (hab : a ≤ b) : a ≤ a := by
  obtain ⟨x, y, hx, -, -⟩ := exists_value?_of_le hab
  exact (le_iff_value? hx hx).mpr le_rfl

/-- What is above something is a number. -/
theorem float_le_refl_right (hab : a ≤ b) : b ≤ b := by
  obtain ⟨x, y, -, hy, -⟩ := exists_value?_of_le hab
  exact (le_iff_value? hy hy).mpr le_rfl

theorem float_lt_of_le_of_lt (hab : a ≤ b) (hc : c ≤ c) (hbc : b < c) : a < c := by
  obtain ⟨x, y, hx, hy, hxy⟩ := exists_value?_of_le hab
  obtain ⟨z, -, hz, -, -⟩ := exists_value?_of_le hc
  rw [lt_iff_value? hy hz] at hbc
  exact (lt_iff_value? hx hz).mpr (hxy.trans_lt hbc)

theorem float_lt_of_lt_of_le (ha : a ≤ a) (hab : a < b) (hbc : b ≤ c) : a < c := by
  obtain ⟨x, -, hx, -, -⟩ := exists_value?_of_le ha
  obtain ⟨y, z, hy, hz, hyz⟩ := exists_value?_of_le hbc
  rw [lt_iff_value? hx hy] at hab
  exact (lt_iff_value? hx hz).mpr (hab.trans_le hyz)

theorem float_le_of_lt (ha : a ≤ a) (hb : b ≤ b) (h : a < b) : a ≤ b := by
  obtain ⟨x, -, hx, -, -⟩ := exists_value?_of_le ha
  obtain ⟨y, -, hy, -, -⟩ := exists_value?_of_le hb
  exact (le_iff_value? hx hy).mpr ((lt_iff_value? hx hy).mp h).le

/-- A double is at most itself exactly if it is a number. -/
theorem float_le_self_iff : a ≤ a ↔ ¬ a.isNaN := by
  rw [isNaN_iff]
  constructor
  · intro h hnone
    obtain ⟨x, -, hx, -, -⟩ := exists_value?_of_le h
    exact Option.some_ne_none x (hx.symm.trans hnone)
  · intro h
    obtain ⟨x, hx⟩ := Option.ne_none_iff_exists'.mp h
    exact (le_iff_value? hx hx).mpr le_rfl

/-- Numbers are ordered linearly. -/
theorem float_not_lt (ha : a ≤ a) (hb : b ≤ b) : ¬ a < b ↔ b ≤ a := by
  obtain ⟨x, -, hx, -, -⟩ := exists_value?_of_le ha
  obtain ⟨y, -, hy, -, -⟩ := exists_value?_of_le hb
  rw [lt_iff_value? hx hy, le_iff_value? hy hx, not_lt]

/-- The sum of two doubles does not depend on their order, also where it is not a number. -/
theorem float_add_comm (a b : Float) : a + b = b + a :=
  congrArg (fun u => Float.ofModel (Float.Model.pack u)) (unpacked_add_comm _ _)

/-- What is between two finite doubles is finite. -/
theorem float_isFinite_of_le (hab : a ≤ b) (hbc : b ≤ c) (ha : a.isFinite) (hc : c.isFinite) :
    b.isFinite := by
  obtain ⟨x, hx⟩ := isFinite_iff.mp ha
  obtain ⟨z, hz⟩ := isFinite_iff.mp hc
  obtain ⟨-, y, -, hy, -⟩ := exists_value?_of_le hab
  rw [le_iff_value? hx hy] at hab
  rw [le_iff_value? hy hz] at hbc
  have htop := ne_top_of_le_ne_top (EReal.coe_ne_top z) hbc
  have hbot := ne_bot_of_le_ne_bot (EReal.coe_ne_bot x) hab
  lift y to ℝ using ⟨htop, hbot⟩
  exact isFinite_iff.mpr ⟨y, hy⟩

section Next

open Float.Model Float.Model.UnpackedFloat

variable {k : ℕ} {f : ℤ}

end Next

section Nonneg

theorem exists_value?_of_nonneg (ha : 0.0 ≤ a) : ∃ x, value? a = some x ∧ 0 ≤ x := by
  obtain ⟨zero, x, hzero, hx, hle⟩ := exists_value?_of_le ha
  obtain rfl := Option.some.inj (value?_zero.symm.trans hzero)
  exact ⟨x, hx, hle⟩

theorem nonneg_of_value? {x : EReal} (hx : value? a = some x) (h : 0 ≤ x) : 0.0 ≤ a :=
  (le_iff_value? value?_zero hx).mpr h

/-- The sum of doubles that are not below zero is the exact sum, rounded: infinities do not cancel.
-/
theorem value?_add_of_nonneg {x y : EReal} (hx : value? a = some x) (hy : value? b = some y)
    (ha : 0 ≤ x) (hb : 0 ≤ y) : value? (a + b) = some (round (x + y)) :=
  value?_add hx hy (.inl (EReal.bot_lt_zero.trans_le ha).ne')
    (.inr (EReal.bot_lt_zero.trans_le hb).ne')

/-- Sums of doubles that are not below zero grow with their parts. -/
theorem float_add_le_add (ha : 0.0 ≤ a) (hc : 0.0 ≤ c) (hab : a ≤ b) (hcd : c ≤ d) :
    a + c ≤ b + d := by
  obtain ⟨x, hx, hx0⟩ := exists_value?_of_nonneg ha
  obtain ⟨z, hz, hz0⟩ := exists_value?_of_nonneg hc
  obtain ⟨y, hy, hy0⟩ := exists_value?_of_nonneg (float_le_trans ha hab)
  obtain ⟨w, hw, hw0⟩ := exists_value?_of_nonneg (float_le_trans hc hcd)
  rw [le_iff_value? hx hy] at hab
  rw [le_iff_value? hz hw] at hcd
  rw [le_iff_value? (value?_add_of_nonneg hx hz hx0 hz0) (value?_add_of_nonneg hy hw hy0 hw0)]
  exact round_mono (add_le_add hab hcd)

/-- Adding what is not below zero takes nothing away, for all that is rounded. -/
theorem float_le_add_right (ha : 0.0 ≤ a) (hb : 0.0 ≤ b) : a ≤ a + b := by
  obtain ⟨x, hx, hx0⟩ := exists_value?_of_nonneg ha
  obtain ⟨y, hy, hy0⟩ := exists_value?_of_nonneg hb
  rw [le_iff_value? hx (value?_add_of_nonneg hx hy hx0 hy0)]
  calc x = round x := (round_value? hx).symm
    _ ≤ round (x + y) := round_mono (le_add_of_nonneg_right hy0)

theorem float_add_nonneg (ha : 0.0 ≤ a) (hb : 0.0 ≤ b) : 0.0 ≤ a + b :=
  float_le_trans ha (float_le_add_right ha hb)

theorem value?_mul_self {x : EReal} (hx : value? a = some x) :
    value? (a * a) = some (round (x * x)) := by
  apply value?_mul hx hx <;>
    · rintro rfl
      exact ⟨EReal.zero_ne_top, EReal.zero_ne_bot⟩

/-- The square of a number is not below zero. -/
theorem float_mul_self_nonneg (ha : a ≤ a) : 0.0 ≤ a * a := by
  obtain ⟨x, -, hx, -, -⟩ := exists_value?_of_le ha
  apply nonneg_of_value? (value?_mul_self hx)
  rw [← round_zero]
  apply round_mono
  rcases le_total 0 x with hpos | hneg
  · exact mul_nonneg hpos hpos
  · rw [← neg_mul_neg]
    exact mul_nonneg (EReal.neg_nonneg.mpr hneg) (EReal.neg_nonneg.mpr hneg)

end Nonneg

section Finite

theorem value?_mul_coe {x y : ℝ} (hx : value? a = some (x : EReal))
    (hy : value? b = some (y : EReal)) : value? (a * b) = some (round (x * y)) :=
  value?_mul hx hy (fun _ => ⟨EReal.coe_ne_top y, EReal.coe_ne_bot y⟩)
    fun _ => ⟨EReal.coe_ne_top x, EReal.coe_ne_bot x⟩

/-- A product of finite doubles that are not below zero is not below zero. An infinity times zero
would not be a number. -/
theorem float_mul_nonneg_of_finite (ha : 0.0 ≤ a) (hb : 0.0 ≤ b) (hfiniteA : a.isFinite)
    (hfiniteB : b.isFinite) : 0.0 ≤ a * b := by
  obtain ⟨x, hx0, hx⟩ := exists_real_of_nonneg ha hfiniteA
  obtain ⟨y, hy0, hy⟩ := exists_real_of_nonneg hb hfiniteB
  apply nonneg_of_value? (value?_mul_coe hx hy)
  rw [← round_zero]
  apply round_mono
  exact_mod_cast mul_nonneg hx0 hy0

/-- Products of finite doubles that are not below zero grow with their factors. -/
theorem float_mul_le_mul_of_nonneg (ha : 0.0 ≤ a) (hc : 0.0 ≤ c) (hab : a ≤ b) (hcd : c ≤ d)
    (hb : b.isFinite) (hd : d.isFinite) : a * c ≤ b * d := by
  have hzero : (0.0 : Float).isFinite := rfl
  obtain ⟨x, hx0, hx⟩ := exists_real_of_nonneg ha (float_isFinite_of_le ha hab hzero hb)
  obtain ⟨z, hz0, hz⟩ := exists_real_of_nonneg hc (float_isFinite_of_le hc hcd hzero hd)
  obtain ⟨y, hy0, hy⟩ := exists_real_of_nonneg (float_le_trans ha hab) hb
  obtain ⟨w, hw0, hw⟩ := exists_real_of_nonneg (float_le_trans hc hcd) hd
  rw [le_iff_value? hx hy, EReal.coe_le_coe_iff] at hab
  rw [le_iff_value? hz hw, EReal.coe_le_coe_iff] at hcd
  rw [le_iff_value? (value?_mul_coe hx hz) (value?_mul_coe hy hw)]
  apply round_mono
  exact_mod_cast mul_le_mul hab hcd hz0 hy0

theorem value?_mul_one (ha : a.isFinite) : value? (a * 1.0) = value? a := by
  obtain ⟨x, hx⟩ := isFinite_iff.mp ha
  have hmeaning : value? 1.0 = some (((2 ^ 52 : ℕ) * 2 ^ (-52 : ℤ) : ℝ) : EReal) := rfl
  have hone : value? 1.0 = some ((1 : ℝ) : EReal) := by
    rw [hmeaning]
    norm_num
  rw [value?_mul_coe hx hone, EReal.coe_one, mul_one, round_value? hx]
  exact hx.symm

/-- A share of at most the whole of what is not below zero is no more than it. -/
theorem float_mul_le_self (ha : 0.0 ≤ a) (hfinite : a.isFinite) (hb : 0.0 ≤ b) (hle : b ≤ 1.0) :
    a * b ≤ a := by
  obtain ⟨x, -, hx⟩ := exists_real_of_nonneg ha hfinite
  have hself := (le_iff_value? hx hx).mpr le_rfl
  have hmul := float_mul_le_mul_of_nonneg ha hb hself hle hfinite rfl
  have hone := (value?_mul_one hfinite).trans hx
  exact float_le_trans hmul ((le_iff_value? hone hx).mpr le_rfl)

/-- A factor of at least one takes nothing from a double that is not below zero. -/
theorem float_le_mul_self (ha : 0.0 ≤ a) (hfinite : a.isFinite) (hle : 1.0 ≤ b)
    (hb : b.isFinite) : a ≤ a * b := by
  obtain ⟨x, -, hx⟩ := exists_real_of_nonneg ha hfinite
  have hself := (le_iff_value? hx hx).mpr le_rfl
  have hmul := float_mul_le_mul_of_nonneg ha (by decide) hself hle hfinite hb
  have hone := (value?_mul_one hfinite).trans hx
  exact float_le_trans ((le_iff_value? hx hone).mpr le_rfl) hmul

end Finite

/-- A double above zero that is not infinite. -/
structure Factor (c : Float) : Prop where
  pos : 0.0 < c
  finite : c.isFinite

instance (c : Float) : Decidable (Factor c) :=
  decidable_of_iff (0.0 < c ∧ c.isFinite) ⟨fun h => ⟨h.1, h.2⟩, fun h => ⟨h.1, h.2⟩⟩

section Factor

/-- A factor stands for a real number above zero. -/
theorem Factor.exists_value? (hc : Factor c) : ∃ r : ℝ, 0 < r ∧ value? c = some r := by
  obtain ⟨r, hr⟩ := isFinite_iff.mp hc.finite
  have hpos := (lt_iff_value? value?_zero hr).mp hc.pos
  exact ⟨r, EReal.coe_pos.mp hpos, hr⟩

theorem value?_mul_factor {x : EReal} {r : ℝ} (hx : value? a = some x) (hr : value? c = some r)
    (hpos : 0 < r) : value? (a * c) = some (round (x * r)) := by
  apply value?_mul hx hr
  · exact fun _ => ⟨EReal.coe_ne_top r, EReal.coe_ne_bot r⟩
  · exact fun hzero => absurd (EReal.coe_eq_zero.mp hzero) hpos.ne'

/-- Multiplying by a factor keeps the order. -/
theorem float_mul_le_mul (hc : Factor c) (hab : a ≤ b) : a * c ≤ b * c := by
  obtain ⟨r, hpos, hr⟩ := hc.exists_value?
  obtain ⟨x, y, hx, hy, hxy⟩ := exists_value?_of_le hab
  rw [le_iff_value? (value?_mul_factor hx hr hpos) (value?_mul_factor hy hr hpos)]
  exact round_mono (mul_le_mul_of_nonneg_right hxy (EReal.coe_nonneg.mpr hpos.le))

theorem float_mul_nonneg (hc : Factor c) (ha : 0.0 ≤ a) : 0.0 ≤ a * c := by
  obtain ⟨r, hpos, hr⟩ := hc.exists_value?
  obtain ⟨x, hx, hx0⟩ := exists_value?_of_nonneg ha
  apply nonneg_of_value? (value?_mul_factor hx hr hpos)
  rw [← round_zero]
  exact round_mono (mul_nonneg hx0 (EReal.coe_nonneg.mpr hpos.le))

/-- The more is taken from a factor, the less is left. -/
theorem float_sub_le_sub (hc : Factor c) (hab : a ≤ b) : c - b ≤ c - a := by
  obtain ⟨r, -, hr⟩ := hc.exists_value?
  obtain ⟨x, y, hx, hy, hxy⟩ := exists_value?_of_le hab
  have hbot := EReal.coe_ne_bot r
  have htop := EReal.coe_ne_top r
  rw [le_iff_value? (value?_sub hr hy (.inl hbot) (.inl htop))
    (value?_sub hr hx (.inl hbot) (.inl htop))]
  exact round_mono (EReal.sub_le_sub le_rfl hxy)

/-- Taking no more from a factor than it is leaves nothing below zero. -/
theorem float_sub_nonneg (hc : Factor c) (hac : a ≤ c) : 0.0 ≤ c - a := by
  obtain ⟨r, -, hr⟩ := hc.exists_value?
  obtain ⟨x, y, hx, hy, hxy⟩ := exists_value?_of_le hac
  obtain rfl := Option.some.inj (hr.symm.trans hy)
  apply nonneg_of_value? (value?_sub hr hx (.inl (EReal.coe_ne_bot r)) (.inl (EReal.coe_ne_top r)))
  rw [← round_zero]
  exact round_mono ((EReal.sub_nonneg (.inl (EReal.coe_ne_top r)) (.inl (EReal.coe_ne_bot r))).mpr hxy)

/-- Dividing by a factor keeps the order. -/
theorem float_div_le_div_right (hc : Factor c) (hab : a ≤ b) : a / c ≤ b / c := by
  obtain ⟨r, hpos, hr⟩ := hc.exists_value?
  obtain ⟨x, y, hx, hy, hxy⟩ := exists_value?_of_le hab
  have hne : (r : EReal) ≠ 0 := (EReal.coe_pos.mpr hpos).ne'
  have hfinite : (r : EReal) ≠ ⊤ ∧ (r : EReal) ≠ ⊥ := ⟨EReal.coe_ne_top r, EReal.coe_ne_bot r⟩
  rw [le_iff_value? (value?_div hx hr hne (.inr hfinite)) (value?_div hy hr hne (.inr hfinite))]
  exact round_mono (EReal.div_le_div_right_of_nonneg (EReal.coe_nonneg.mpr hpos.le) hxy)

theorem float_div_factor_nonneg (hc : Factor c) (ha : 0.0 ≤ a) : 0.0 ≤ a / c := by
  have hzero : 0.0 / c ≤ a / c := float_div_le_div_right hc ha
  obtain ⟨r, hpos, hr⟩ := hc.exists_value?
  have hne : (r : EReal) ≠ 0 := (EReal.coe_pos.mpr hpos).ne'
  have hquotient := value?_div value?_zero hr hne (.inl ⟨EReal.zero_ne_top, EReal.zero_ne_bot⟩)
  rw [EReal.zero_div, round_zero] at hquotient
  exact float_le_trans (nonneg_of_value? hquotient le_rfl) hzero

theorem value?_div_factor {y : EReal} {r : ℝ} (hr : value? c = some r) (hy : value? a = some y)
    (hpos : 0 < y) : value? (c / a) = some (round (r / y)) :=
  value?_div hr hy hpos.ne' (.inl ⟨EReal.coe_ne_top r, EReal.coe_ne_bot r⟩)

/-- A factor divided by more is less. -/
theorem float_div_le_div (hc : Factor c) (ha : 0.0 < a) (hab : a ≤ b) : c / b ≤ c / a := by
  obtain ⟨r, hpos, hr⟩ := hc.exists_value?
  obtain ⟨x, y, hx, hy, hxy⟩ := exists_value?_of_le hab
  have hx0 : 0 < x := (lt_iff_value? value?_zero hx).mp ha
  have hy0 : 0 < y := hx0.trans_le hxy
  rw [le_iff_value? (value?_div_factor hr hy hy0) (value?_div_factor hr hx hx0)]
  apply round_mono
  rw [div_eq_mul_inv, div_eq_mul_inv]
  apply mul_le_mul_of_nonneg_left _ (EReal.coe_nonneg.mpr hpos.le)
  exact EReal.inv_strictAntiOn.antitoneOn hx0 hy0 hxy

theorem float_div_nonneg (hc : Factor c) (ha : 0.0 < a) (hself : a ≤ a) : 0.0 ≤ c / a := by
  obtain ⟨r, hpos, hr⟩ := hc.exists_value?
  obtain ⟨x, -, hx, -, -⟩ := exists_value?_of_le hself
  have hx0 : 0 < x := (lt_iff_value? value?_zero hx).mp ha
  apply nonneg_of_value? (value?_div_factor hr hx hx0)
  rw [← round_zero]
  exact round_mono (EReal.div_nonneg (EReal.coe_nonneg.mpr hpos.le) hx0.le)

end Factor

/-- Taking the nearest double keeps the order of integers. -/
theorem nearest_mono {m n : ℤ} (h : m ≤ n) : nearest m ≤ nearest n := by
  rw [le_iff_value? (value?_nearest m) (value?_nearest n)]
  exact round_mono (EReal.coe_le_coe_iff.mpr (Int.cast_le.mpr h))

/-- Rounding down to a score keeps the order, also past the greatest score. -/
theorem floorScore_mono (h : a ≤ b) : Risk.floorScore a ≤ Risk.floorScore b := by
  obtain ⟨x, y, hx, hy, hxy⟩ := exists_value?_of_le h
  rw [floorScore_eq hx, floorScore_eq hy]
  exact floorWord_mono hxy

end Campaign.Rounding
