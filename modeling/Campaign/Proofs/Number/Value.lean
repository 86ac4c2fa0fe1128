import Campaign.Number.Decimal
import Campaign.Proofs.Number.Arithmetic
import Campaign.Risk.Score

/-!
# The values of doubles

A double that is a number stands for an extended real. Doubles are compared as these are, an
operation gives the double nearest to the exact result, and a double is rounded down to the greatest
integer that is not above it. So where an operation on extended reals is monotone, the operation on
doubles is too.
-/

noncomputable section

namespace Campaign.Rounding

open Float.Model Float.Model.UnpackedFloat

section Comparison

variable {m k : ℕ} {e f : ℤ}

/-- Of two doubles above zero, the one with the greater exponent is greater. -/
theorem Canonical.lt_of_exponent_lt (hu : Canonical m e) (hv : Canonical k f) (h : e < f) :
    (m * 2 ^ e : ℝ) < k * 2 ^ f := by
  have hm : (m : ℝ) < 2 ^ (53 : ℤ) := by exact_mod_cast hu.lt_two_pow
  have hk : (2 : ℝ) ^ (52 : ℤ) ≤ k := by
    have hle := hu.le_exponent
    exact_mod_cast hv.full_or_least.resolve_right (by omega)
  calc (m * 2 ^ e : ℝ) < 2 ^ (53 : ℤ) * 2 ^ e := mul_lt_mul_of_pos_right hm (zpow_pos two_pos _)
    _ = 2 ^ (53 + e) := (zpow_add₀ two_ne_zero _ _).symm
    _ ≤ 2 ^ (52 + f) := zpow_le_zpow_right₀ one_le_two (by omega)
    _ = 2 ^ (52 : ℤ) * 2 ^ f := zpow_add₀ two_ne_zero _ _
    _ ≤ k * 2 ^ f := mul_le_mul_of_nonneg_right hk (zpow_pos two_pos _).le

/-- Canonical pairs are compared by their exponents first, and then by their mantissas. -/
theorem Canonical.compares (hu : Canonical m e) (hv : Canonical k f) :
    ((compare e f).then (compare m k)).Compares (m * 2 ^ e : ℝ) (k * 2 ^ f) := by
  rcases lt_trichotomy e f with hlt | rfl | hgt
  · rw [compare_lt_iff_lt.mpr hlt]
    exact hu.lt_of_exponent_lt hv hlt
  · have hunit : StrictMono fun n : ℕ => (n * 2 ^ e : ℝ) := fun a b hab =>
      mul_lt_mul_of_pos_right (Nat.cast_lt.mpr hab) (zpow_pos two_pos _)
    rw [compare_eq_iff_eq.mpr rfl]
    exact hunit.compares.mpr ((compare_iff m k).mp rfl)
  · rw [compare_gt_iff_gt.mpr hgt]
    exact hv.lt_of_exponent_lt hu hgt

theorem magnitude_pos (hm : 0 < m) (e : ℤ) : (0 : EReal) < ((m * 2 ^ e : ℝ) : EReal) :=
  EReal.coe_pos.mpr (mul_zpow_pos hm e)

theorem neg_magnitude_neg (hm : 0 < m) (e : ℤ) : -((m * 2 ^ e : ℝ) : EReal) < 0 := by
  rw [← neg_zero]
  exact EReal.neg_strictAnti (magnitude_pos hm e)

/-- Numbers are compared as the extended reals that they stand for. -/
theorem compare_compares {u v : UnpackedFloat} {x y : EReal} (hu : Fits u) (hv : Fits v)
    (hx : meaning? u = some x) (hy : meaning? v = some y) :
    ∃ order, u.compare v = some order ∧ order.Compares x y := by
  -- By kinds: signs alone decide all pairs of kinds but that of two finite numbers.
  cases u with
  | notANumber => cases hx
  | infinity s =>
      cases hx
      cases v with
      | notANumber => cases hy
      | infinity t =>
          cases hy
          cases s <;> cases t
          · exact ⟨.eq, rfl, rfl⟩
          · exact ⟨.lt, rfl, bot_lt_top⟩
          · exact ⟨.gt, rfl, bot_lt_top⟩
          · exact ⟨.eq, rfl, rfl⟩
      | zero t =>
          cases hy
          cases s
          · exact ⟨.lt, rfl, EReal.bot_lt_zero⟩
          · exact ⟨.gt, rfl, EReal.zero_lt_top⟩
      | finite t k f hk =>
          cases hy
          rw [signed_coe t]
          cases s
          · exact ⟨.lt, rfl, EReal.bot_lt_coe _⟩
          · exact ⟨.gt, rfl, EReal.coe_lt_top _⟩
  | zero s =>
      cases hx
      cases v with
      | notANumber => cases hy
      | infinity t =>
          cases hy
          cases t
          · exact ⟨.gt, rfl, EReal.bot_lt_zero⟩
          · exact ⟨.lt, rfl, EReal.zero_lt_top⟩
      | zero t =>
          cases hy
          exact ⟨.eq, rfl, rfl⟩
      | finite t k f hk =>
          cases hy
          cases t
          · exact ⟨.gt, rfl, neg_magnitude_neg hk f⟩
          · exact ⟨.lt, rfl, magnitude_pos hk f⟩
  | finite s m e hm =>
      cases hx
      cases v with
      | notANumber => cases hy
      | infinity t =>
          cases hy
          rw [signed_coe s]
          cases t
          · exact ⟨.gt, by cases s <;> rfl, EReal.bot_lt_coe _⟩
          · exact ⟨.lt, by cases s <;> rfl, EReal.coe_lt_top _⟩
      | zero t =>
          cases hy
          cases s
          · exact ⟨.lt, rfl, neg_magnitude_neg hm e⟩
          · exact ⟨.gt, rfl, magnitude_pos hm e⟩
      | finite t k f hk =>
          cases hy
          -- Magnitudes are compared by exponent and mantissa; below zero the order turns around.
          have hself := EReal.coe_strictMono.compares.mpr (hu.1.compares hv.1)
          cases s <;> cases t
          · exact ⟨_, rfl, (EReal.neg_strictAnti.compares.mpr hself).swap⟩
          · exact ⟨.lt, rfl, (neg_magnitude_neg hm e).trans (magnitude_pos hk f)⟩
          · exact ⟨.gt, rfl, (neg_magnitude_neg hk f).trans (magnitude_pos hm e)⟩
          · exact ⟨_, rfl, hself⟩

end Comparison

section Floor

/-- An extended real rounded down to a number below `2 ^ 32`. -/
def floorWord (x : EReal) : ℕ := if x = ⊤ then 2 ^ 32 - 1 else min ⌊x.toReal⌋₊ (2 ^ 32 - 1)

theorem floorWord_top : floorWord ⊤ = 2 ^ 32 - 1 := if_pos rfl

theorem floorWord_bot : floorWord ⊥ = 0 := by
  rw [floorWord, if_neg bot_ne_top, EReal.toReal_bot, Nat.floor_zero, Nat.zero_min]

/-- A score is a number rounded down and held between zero and the greatest word of 32 bits. -/
theorem floorWord_coe (r : ℝ) : floorWord r = min ⌊r⌋₊ (2 ^ 32 - 1) := by
  rw [floorWord, if_neg (EReal.coe_ne_top r), EReal.toReal_coe]

theorem floorWord_mono : Monotone floorWord := by
  intro x y h
  induction x with
  | bot => exact floorWord_bot ▸ Nat.zero_le _
  | top => rw [top_le_iff.mp h]
  | coe x =>
      induction y with
      | bot => exact absurd h (EReal.bot_lt_coe x).not_ge
      | top => 
          rw [floorWord_coe, floorWord_top]
          exact Nat.min_le_right _ _
      | coe y =>
          rw [floorWord_coe, floorWord_coe]
          exact min_le_min_right _ (Nat.floor_mono (EReal.coe_le_coe_iff.mp h))

variable {m : ℕ}

/-- Shifted to the exponent zero, a mantissa is the number rounded down. -/
theorem shiftToExponent_zero (hm : 0 < m) (e : ℤ) :
    (shiftToExponent (m <<< e.toNat) (e - e.toNat) .exact 0).1.mantissa = ⌊(m * 2 ^ e : ℝ)⌋₊ := by
  have hexact : LiesAbove (m <<< e.toNat) .exact ((m * 2 ^ e : ℝ) / 2 ^ (e - e.toNat)) :=
    liesAbove_shiftLeft m e.toNat e
  have hcarries := (carries_ofMantissaAndAccuracy hexact).shiftRight (0 - (e - e.toNat)).toNat
  have hshift : (e - e.toNat : ℤ) + ((0 - (e - e.toNat)).toNat : ℤ) = 0 := by omega
  rw [div_div, ← zpow_natCast, ← zpow_add₀ two_ne_zero, hshift, zpow_zero, div_one] at hcarries
  exact ((Nat.floor_eq_iff (mul_zpow_pos hm e).le).mpr hcarries.bounds).symm

/-- An integer made from a finite double, held at the greatest word, is the number rounded down. -/
theorem roundToInt_toNat (s : Sign) (hm : 0 < m) (e : ℤ) :
    min (roundToInt s m e).toNat (2 ^ 32 - 1) = floorWord (signed s ((m * 2 ^ e : ℝ) : EReal)) := by
  unfold roundToInt decreaseExponent
  dsimp only
  rw [sub_zero, shiftToExponent_zero hm]
  cases s
  · have hneg : -(m * 2 ^ e : ℝ) ≤ 0 := neg_nonpos.mpr (mul_zpow_pos hm e).le
    rw [signed, ← EReal.coe_neg, floorWord_coe, Nat.floor_of_nonpos hneg]
    simp [Sign.apply]
  · rw [signed, floorWord_coe]
    rfl

/-- An integer made from any double that is a number, held at the greatest word, is its value rounded
down. -/
theorem toInt_toNat {u : UnpackedFloat} {x : EReal} (hx : meaning? u = some x) :
    min (u.toInt 0 (2 ^ 32 - 1)).toNat (2 ^ 32 - 1) = floorWord x := by
  cases u with
  | notANumber => cases hx
  | infinity s =>
      cases hx
      cases s
      · exact floorWord_bot.symm
      · exact floorWord_top.symm
  | zero s =>
      cases hx
      rw [← EReal.coe_zero, floorWord_coe, Nat.floor_zero]
      rfl
  | finite s m e hm =>
      cases hx
      exact roundToInt_toNat s hm e

theorem toNat_ofNatClamp (n : ℕ) : (UInt32.ofNatClamp n).toNat = min n (2 ^ 32 - 1) := by
  have hsize : UInt32.size = 2 ^ 32 := rfl
  rcases Nat.lt_or_ge n (2 ^ 32) with hlt | hge
  · rw [UInt32.toNat_ofNatClamp_of_lt hlt]
    omega
  · rw [UInt32.toNat_ofNatClamp_of_le hge]
    omega

end Floor

section Value

/-- The extended real that a double stands for; nothing when it is not a number. -/
def value? (a : Float) : Option EReal := meaning? a.toModel.unpack

variable {a b : Float} {x y : EReal}

/-- The sum of two numbers is the exact sum, rounded, unless opposite infinities meet. -/
theorem value?_add (hx : value? a = some x) (hy : value? b = some y) (hbot : x ≠ ⊥ ∨ y ≠ ⊤)
    (htop : x ≠ ⊤ ∨ y ≠ ⊥) : value? (a + b) = some (round (x + y)) :=
  meaning?_add (fits_unpack _) (fits_unpack _) hx hy hbot htop

/-- The difference of two numbers is the exact difference, rounded, unless equal infinities meet. -/
theorem value?_sub (hx : value? a = some x) (hy : value? b = some y) (hbot : x ≠ ⊥ ∨ y ≠ ⊥)
    (htop : x ≠ ⊤ ∨ y ≠ ⊤) : value? (a - b) = some (round (x - y)) :=
  meaning?_sub (fits_unpack _) (fits_unpack _) hx hy hbot htop

/-- The product of two numbers is the exact product, rounded, unless zero meets an infinity. -/
theorem value?_mul (hx : value? a = some x) (hy : value? b = some y)
    (hleft : x = 0 → y ≠ ⊤ ∧ y ≠ ⊥) (hright : y = 0 → x ≠ ⊤ ∧ x ≠ ⊥) :
    value? (a * b) = some (round (x * y)) :=
  meaning?_mul (fits_unpack _) (fits_unpack _) hx hy hleft hright

/-- The quotient of two numbers is the exact quotient, rounded, unless the divisor is zero or both
are infinite. -/
theorem value?_div (hx : value? a = some x) (hy : value? b = some y) (hzero : y ≠ 0)
    (hfinite : (x ≠ ⊤ ∧ x ≠ ⊥) ∨ (y ≠ ⊤ ∧ y ≠ ⊥)) : value? (a / b) = some (round (x / y)) :=
  meaning?_div (fits_unpack _) (fits_unpack _) hx hy hzero hfinite

/-- The double nearest to an integer is that integer, rounded. -/
theorem value?_nearest (n : ℤ) : value? (nearest n) = some (round (n : ℝ)) := by
  have hmeaning := meaning?_normalize n 0 .positive
  rwa [zpow_zero, mul_one] at hmeaning

theorem round_value? (hx : value? a = some x) : round x = x := round_meaning? (fits_unpack _) hx

theorem le_iff_compare : a ≤ b ↔
    (a.toModel.unpack.compare b.toModel.unpack).any (fun order => order.isLE) :=
  decide_eq_true_iff

theorem lt_iff_compare : a < b ↔
    a.toModel.unpack.compare b.toModel.unpack == some .lt :=
  decide_eq_true_iff

/-- Doubles that are numbers are ordered as their values are. -/
theorem le_iff_value? (hx : value? a = some x) (hy : value? b = some y) : a ≤ b ↔ x ≤ y := by
  obtain ⟨order, hcompare, horder⟩ := compare_compares (fits_unpack _) (fits_unpack _) hx hy
  rw [le_iff_compare, hcompare, ← horder.ne_gt]
  cases order <;> decide

theorem lt_iff_value? (hx : value? a = some x) (hy : value? b = some y) : a < b ↔ x < y := by
  obtain ⟨order, hcompare, horder⟩ := compare_compares (fits_unpack _) (fits_unpack _) hx hy
  rw [lt_iff_compare, hcompare, ← horder.eq_lt]
  cases order <;> decide

/-- Only numbers are compared. -/
theorem exists_value?_of_le (h : a ≤ b) : ∃ x y, value? a = some x ∧ value? b = some y ∧ x ≤ y := by
  have hcompare := le_iff_compare.mp h
  have ha : ∃ x, value? a = some x := by
    unfold value?
    cases hu : a.toModel.unpack with
    | notANumber =>
        rw [hu] at hcompare
        cases hcompare
    | infinity | zero | finite => exact ⟨_, rfl⟩
  have hb : ∃ y, value? b = some y := by
    unfold value?
    cases hv : b.toModel.unpack with
    | notANumber =>
        rw [hv] at hcompare
        cases hu : a.toModel.unpack <;> rw [hu] at hcompare <;> cases hcompare
    | infinity | zero | finite => exact ⟨_, rfl⟩
  obtain ⟨x, hx⟩ := ha
  obtain ⟨y, hy⟩ := hb
  exact ⟨x, y, hx, hy, (le_iff_value? hx hy).mp h⟩

/-- The score of a number is the number rounded down. -/
theorem floorScore_eq (hx : value? a = some x) : Risk.floorScore a = floorWord x := by
  rw [← toInt_toNat hx]
  exact toNat_ofNatClamp _

theorem unpack_of_value?_eq_none (ha : value? a = none) : a.toModel.unpack = .notANumber := by
  unfold value? at ha
  cases hu : a.toModel.unpack with
  | notANumber => rfl
  | infinity | zero | finite =>
      rw [hu] at ha
      cases ha

theorem value?_add_none (ha : value? a = none) : value? (a + b) = none := by
  have hself : UnpackedFloat.add Format.binary64 .notANumber b.toModel.unpack = .notANumber := by
    cases b.toModel.unpack <;> rfl
  change meaning? (Float.Model.pack (UnpackedFloat.add _ a.toModel.unpack _)).unpack = none
  rw [unpack_of_value?_eq_none ha, hself, unpack_pack (u := .notANumber) trivial]
  rfl

theorem value?_mul_none (ha : value? a = none) : value? (a * b) = none := by
  have hself : UnpackedFloat.mul Format.binary64 .notANumber b.toModel.unpack = .notANumber := by
    cases b.toModel.unpack <;> rfl
  change meaning? (Float.Model.pack (UnpackedFloat.mul _ a.toModel.unpack _)).unpack = none
  rw [unpack_of_value?_eq_none ha, hself, unpack_pack (u := .notANumber) trivial]
  rfl

/-- What is not a number scores nothing. -/
theorem floorScore_of_none (ha : value? a = none) : Risk.floorScore a = 0 := by
  change (UInt32.ofNatClamp (a.toModel.unpack.toInt 0 _).toNat).toNat = 0
  rw [unpack_of_value?_eq_none ha]
  rfl

theorem value?_zero : value? 0.0 = some 0 := rfl

/-- The finite doubles are those whose value is a real number. -/
theorem isFinite_iff : a.isFinite ↔ ∃ r : ℝ, value? a = some r := by
  change a.toModel.unpack.isFinite = true ↔ _
  unfold value?
  cases a.toModel.unpack with
  | notANumber => simp [UnpackedFloat.isFinite, meaning?]
  | infinity s => simp [UnpackedFloat.isFinite, meaning?, (coe_ne_signed_top s _).symm]
  | zero s => exact iff_of_true rfl ⟨0, rfl⟩
  | finite s m e hm => exact iff_of_true rfl ⟨_, congrArg some (signed_coe s _)⟩

theorem exists_real_of_nonneg (ha : 0.0 ≤ a) (hfinite : a.isFinite) :
    ∃ r : ℝ, 0 ≤ r ∧ value? a = some (r : EReal) := by
  obtain ⟨r, hr⟩ := isFinite_iff.mp hfinite
  exact ⟨r, EReal.coe_nonneg.mp ((le_iff_value? value?_zero hr).mp ha), hr⟩

/-- Not a number is the same as having no value. -/
theorem isNaN_iff : a.isNaN ↔ value? a = none := by
  change a.toModel.unpack.isNaN = true ↔ _
  unfold value?
  cases a.toModel.unpack with
  | notANumber => exact iff_of_true rfl rfl
  | infinity | zero | finite => simp [UnpackedFloat.isNaN, meaning?]

end Value

end Campaign.Rounding

end
