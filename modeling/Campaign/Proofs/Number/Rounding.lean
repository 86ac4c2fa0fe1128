import Mathlib

/-!
# Rounding to doubles

A real is rounded to the nearest multiple of the unit in its last place, and to the even multiple
when two are equally near. The unit is the power of two that leaves 53 binary digits, though never
one below the least double above zero, and a magnitude that comes to `2 ^ 1024` or more is infinite.
Rounding never turns the order of two reals around. What a double stands for, and what is rounded, is
an extended real.
-/

noncomputable section

namespace Campaign.Rounding

open Float.Model Float.Model.UnpackedFloat

/-- The nearest integer, and the even one of two that are equally near. -/
def nearestEven (x : ℝ) : ℤ :=
  if Int.fract x < 1 / 2 then ⌊x⌋
  else if 1 / 2 < Int.fract x then ⌊x⌋ + 1
  else ⌊x⌋ + ⌊x⌋ % 2

theorem nearestEven_bounds (x : ℝ) : ⌊x⌋ ≤ nearestEven x ∧ nearestEven x ≤ ⌊x⌋ + 1 := by
  unfold nearestEven
  split_ifs <;> omega

theorem nearestEven_intCast (n : ℤ) : nearestEven n = n := by
  rw [nearestEven, Int.fract_intCast, if_pos one_half_pos, Int.floor_intCast]

/-- A greater number has no smaller nearest integer, ties to even or not. -/
theorem nearestEven_mono : Monotone nearestEven := by
  intro x y h
  rcases (Int.floor_mono h).lt_or_eq with hlt | heq
  · -- An integer is between the two reals.
    exact (nearestEven_bounds x).2.trans ((Int.add_one_le_iff.mpr hlt).trans (nearestEven_bounds y).1)
  · have hfract : Int.fract x ≤ Int.fract y := by
      unfold Int.fract
      rw [heq]
      exact sub_le_sub_right h _
    unfold nearestEven
    rw [heq]
    split_ifs <;> first | omega | linarith

/-- A real lies above a mantissa, by less than one, as an accuracy says. -/
def LiesAbove (m : ℕ) : Accuracy → ℝ → Prop
  | .exact, x => x = m
  | .inexact .lt, x => m < x ∧ x < m + 1 / 2
  | .inexact .eq, x => x = m + 1 / 2
  | .inexact .gt, x => m + 1 / 2 < x ∧ x < m + 1

section Accuracy

variable {m : ℕ} {a : Accuracy} {x : ℝ}

theorem LiesAbove.bounds (h : LiesAbove m a x) : m ≤ x ∧ x < m + 1 := by
  rcases a with _ | (_ | _ | _) <;> simp only [LiesAbove] at h <;> constructor <;> linarith

/-- The accuracy is what rounding to the nearest integer asks for. -/
theorem LiesAbove.nearestEven_eq (h : LiesAbove m a x) :
    nearestEven x = a.roundToNearestEven m := by
  have hfloor : ⌊x⌋ = m := Int.floor_eq_iff.mpr (by exact_mod_cast h.bounds)
  have hfract : Int.fract x = x - m := by
    rw [Int.fract, hfloor, Int.cast_natCast]
  rw [nearestEven, hfloor, hfract]
  rcases a with _ | (_ | _ | _) <;> simp only [LiesAbove] at h
  · rw [if_pos (by linarith)]
    rfl
  · rw [if_pos (by linarith)]
    rfl
  · rw [if_neg (by linarith), if_neg (by linarith)]
    rfl
  · rw [if_neg (by linarith), if_pos (by linarith)]
    rfl

end Accuracy

/-- The exponent of the unit in the last place of a double that is near a positive real. -/
def lastPlace (x : ℝ) : ℤ := max (Int.log 2 x - 52) (-1074)

/-- A positive real rounded to a multiple of the unit in its last place. -/
def roundMagnitude (x : ℝ) : ℝ := nearestEven (x / 2 ^ lastPlace x) * 2 ^ lastPlace x

/-- The greater a number, the greater the unit in its last place. -/
theorem lastPlace_mono {x y : ℝ} (hx : 0 < x) (h : x ≤ y) : lastPlace x ≤ lastPlace y :=
  max_le_max_right _ (sub_le_sub_right (Int.log_mono_right hx h) _)

/-- A number has at most 53 bits down to its last place. -/
theorem lt_zpow_lastPlace (x : ℝ) : x < 2 ^ (lastPlace x + 53) := by
  apply (Int.lt_zpow_succ_log_self one_lt_two x).trans_le
  apply zpow_le_zpow_right₀ one_le_two
  have hle := le_max_left (Int.log 2 x - 52) (-1074)
  unfold lastPlace
  omega

/-- A number above the subnormal ones has 53 bits down to its last place. -/
theorem zpow_lastPlace_le {x : ℝ} (hx : 0 < x) (h : -1074 < lastPlace x) :
    2 ^ (lastPlace x + 52) ≤ x := by
  apply le_trans _ (Int.zpow_log_le_self one_lt_two hx)
  apply zpow_le_zpow_right₀ one_le_two
  unfold lastPlace at h ⊢
  omega

section Multiples

variable {x : ℝ} {k : ℤ}

/-- Rounding does not pass a multiple of the unit in the last place. -/
theorem roundMagnitude_le (h : x ≤ k * 2 ^ lastPlace x) :
    roundMagnitude x ≤ k * 2 ^ lastPlace x := by
  have hunit : (0 : ℝ) < 2 ^ lastPlace x := zpow_pos two_pos _
  apply mul_le_mul_of_nonneg_right _ hunit.le
  rw [Int.cast_le, ← nearestEven_intCast k]
  exact nearestEven_mono ((div_le_iff₀ hunit).mpr h)

/-- Rounding does not pass a multiple of the last place downwards. -/
theorem le_roundMagnitude (h : k * 2 ^ lastPlace x ≤ x) :
    k * 2 ^ lastPlace x ≤ roundMagnitude x := by
  have hunit : (0 : ℝ) < 2 ^ lastPlace x := zpow_pos two_pos _
  apply mul_le_mul_of_nonneg_right _ hunit.le
  rw [Int.cast_le, ← nearestEven_intCast k]
  exact nearestEven_mono ((le_div_iff₀ hunit).mpr h)

end Multiples

theorem roundMagnitude_zero : roundMagnitude 0 = 0 := by
  have hzero := nearestEven_intCast 0
  rw [Int.cast_zero] at hzero
  rw [roundMagnitude, zero_div, hzero, Int.cast_zero, zero_mul]

theorem roundMagnitude_nonneg {x : ℝ} (hx : 0 ≤ x) : 0 ≤ roundMagnitude x := by
  have hle := le_roundMagnitude (x := x) (k := 0) (by simpa using hx)
  simpa using hle

/-- Rounding keeps the order of numbers that are not below zero. Where they have different last
places, the power of two between them is kept by rounding. -/
theorem roundMagnitude_mono {x y : ℝ} (hx : 0 ≤ x) (h : x ≤ y) :
    roundMagnitude x ≤ roundMagnitude y := by
  rcases hx.eq_or_lt with rfl | hpos
  · rw [roundMagnitude_zero]
    exact roundMagnitude_nonneg h
  rcases (lastPlace_mono hpos h).eq_or_lt with heq | hlt
  · unfold roundMagnitude
    rw [heq]
    have hunit : (0 : ℝ) < 2 ^ lastPlace y := zpow_pos two_pos _
    apply mul_le_mul_of_nonneg_right _ hunit.le
    exact Int.cast_le.mpr (nearestEven_mono (div_le_div_of_nonneg_right h hunit.le))
  · -- A power of two that is a multiple of either unit is between the two reals.
    have hbelow : roundMagnitude x ≤ 2 ^ (lastPlace x + 53) := by
      have hle := roundMagnitude_le (x := x) (k := 2 ^ 53)
      rw [Int.cast_pow, Int.cast_ofNat, ← zpow_natCast, ← zpow_add₀ two_ne_zero, add_comm] at hle
      exact hle (lt_zpow_lastPlace x).le
    have habove : 2 ^ (lastPlace y + 52) ≤ roundMagnitude y := by
      have hle := le_roundMagnitude (x := y) (k := 2 ^ 52)
      rw [Int.cast_pow, Int.cast_ofNat, ← zpow_natCast, ← zpow_add₀ two_ne_zero, add_comm] at hle
      exact hle (zpow_lastPlace_le (hpos.trans_le h) ((le_max_right _ _).trans_lt hlt))
    have hexponent : lastPlace x + 53 ≤ lastPlace y + 52 := by omega
    exact hbelow.trans ((zpow_le_zpow_right₀ one_le_two hexponent).trans habove)

/-- A magnitude that is too great for a double is infinite. -/
def limit (r : ℝ) : EReal := if r < 2 ^ 1024 then r else ⊤

theorem limit_mono : Monotone limit := by
  intro r s h
  unfold limit
  split_ifs with hr hs hs
  · exact EReal.coe_le_coe_iff.mpr h
  · exact le_top
  · exact absurd (h.trans_lt hs) hr
  · exact le_rfl

theorem limit_nonneg {r : ℝ} (h : 0 ≤ r) : 0 ≤ limit r := by
  unfold limit
  split_ifs
  · exact EReal.coe_nonneg.mpr h
  · exact le_top

/-- A real rounded to a double, which may be infinite. -/
def roundReal (x : ℝ) : EReal :=
  if 0 ≤ x then limit (roundMagnitude x) else -limit (roundMagnitude (-x))

theorem roundReal_of_nonneg {x : ℝ} (h : 0 ≤ x) : roundReal x = limit (roundMagnitude x) :=
  if_pos h

theorem roundReal_zero : roundReal 0 = 0 := by
  rw [roundReal_of_nonneg le_rfl, roundMagnitude_zero, limit, if_pos (by positivity)]
  rfl

theorem roundReal_neg (x : ℝ) : roundReal (-x) = -roundReal x := by
  rcases lt_trichotomy x 0 with hneg | rfl | hpos
  · rw [roundReal, roundReal, if_pos (neg_nonneg.mpr hneg.le), if_neg hneg.not_ge, neg_neg]
  · rw [neg_zero, roundReal_zero, neg_zero]
  · rw [roundReal, roundReal, if_pos hpos.le, if_neg (neg_neg_iff_pos.mpr hpos).not_ge, neg_neg]

/-- Rounding keeps the order of the reals. -/
theorem roundReal_mono : Monotone roundReal := by
  intro x y h
  unfold roundReal
  split_ifs with hx hy hy
  · exact limit_mono (roundMagnitude_mono hx h)
  · exact absurd (hx.trans h) hy
  · -- A negative real against one that is not.
    have hneg := limit_nonneg (roundMagnitude_nonneg (neg_nonneg.mpr (not_le.mp hx).le))
    have hpos := limit_nonneg (roundMagnitude_nonneg hy)
    exact (EReal.neg_le_zero.mpr hneg).trans hpos
  · rw [EReal.neg_le_neg_iff]
    exact limit_mono (roundMagnitude_mono (neg_nonneg.mpr (not_le.mp hy).le) (neg_le_neg h))

/-- An extended real rounded to a double: infinities stay as they are. -/
def round (x : EReal) : EReal :=
  if x = ⊤ then ⊤ else if x = ⊥ then ⊥ else roundReal x.toReal

@[simp] theorem round_top : round ⊤ = ⊤ := if_pos rfl

@[simp] theorem round_bot : round ⊥ = ⊥ := by
  rw [round, if_neg bot_ne_top, if_pos rfl]

@[simp] theorem round_coe (x : ℝ) : round x = roundReal x := by
  rw [round, if_neg (EReal.coe_ne_top x), if_neg (EReal.coe_ne_bot x), EReal.toReal_coe]

@[simp] theorem round_zero : round 0 = 0 := (round_coe 0).trans roundReal_zero

/-- Rounding keeps the order. -/
theorem round_mono : Monotone round := by
  intro x y h
  induction x with
  | bot => exact round_bot ▸ bot_le
  | top => rw [top_le_iff.mp h]
  | coe x =>
      induction y with
      | bot => exact absurd h (EReal.bot_lt_coe x).not_ge
      | top => exact round_top ▸ le_top
      | coe y =>
          rw [round_coe, round_coe]
          exact roundReal_mono (EReal.coe_le_coe_iff.mp h)

/-- An extended real with a sign. -/
def signed : Sign → EReal → EReal
  | .positive, x => x
  | .negative, x => -x

/-- The extended real that a double taken apart stands for; nothing when it is not a number. -/
def meaning? : UnpackedFloat → Option EReal
  | .notANumber => none
  | .infinity s => some (signed s ⊤)
  | .zero _ => some 0
  | .finite s m e _ => some (signed s ((m * 2 ^ e : ℝ) : EReal))

end Campaign.Rounding

end
