import Campaign.Proofs.Number.Packing

/-!
# Correctly rounded arithmetic

A sum, a product or a quotient of two doubles is the exact result, computed on the extended reals that
they stand for, rounded once. The exact result is brought to a mantissa and an exponent that have at
least the digits a double has, and rounding does the rest.
-/

namespace Campaign.Rounding

open Float.Model Float.Model.UnpackedFloat

section Signs

variable (s t : Sign) (x y : EReal)

theorem round_signed_top : round (signed s ⊤) = signed s ⊤ := by
  cases s
  · exact round_bot
  · exact round_top

theorem signed_mul_signed : signed s x * signed t y = signed (s * t) (x * y) := by
  cases s <;> cases t
  · exact neg_mul_neg x y
  · exact neg_mul x y
  · exact mul_neg x y
  · rfl

theorem signed_neg : signed (-s) x = -signed s x := by
  cases s
  · exact (neg_neg x).symm
  · rfl

theorem signed_coe (r : ℝ) : signed s r = ((s.apply 1 : ℤ) * r : ℝ) := by
  cases s <;> simp [signed, Sign.apply]

theorem coe_ne_signed_top (r : ℝ) : (r : EReal) ≠ signed s ⊤ := by
  cases s
  · exact EReal.coe_ne_bot r
  · exact EReal.coe_ne_top r

end Signs

/-- A double taken apart. -/
def Fits : UnpackedFloat → Prop
  | .finite _ m e _ => Canonical m e ∧ e ≤ 971
  | _ => True

theorem fits_unpack (f : Float.Model) : Fits f.unpack := by
  cases h : f.unpack with
  | finite s m e hm => exact canonical_of_unpack h
  | infinity | notANumber | zero => trivial

/-- A double taken apart is put together again. -/
theorem unpack_pack {u : UnpackedFloat} (h : Fits u) : (Float.Model.pack u).unpack = u := by
  cases u with
  | finite s m e hm =>
      obtain ⟨hcanonical, he⟩ := h
      by_cases hfull : 2 ^ 52 ≤ m
      · exact unpack_pack_full hm hcanonical hfull he s
      · obtain rfl := hcanonical.full_or_least.resolve_left hfull
        exact unpack_pack_partial hm (not_le.mp hfull) s
  | infinity s | zero s => cases s <;> rfl
  | notANumber => rfl

section Normalize

variable {m : ℕ} {e : ℤ}

theorem liesAbove_exact (m : ℕ) (e : ℤ) : LiesAbove m .exact ((m * 2 ^ e : ℝ) / 2 ^ e) :=
  mul_div_cancel_right₀ _ (zpow_pos two_pos _).ne'

theorem mul_zpow_pos (hm : 0 < m) (e : ℤ) : (0 : ℝ) < m * 2 ^ e :=
  mul_pos (Nat.cast_pos.mpr hm) (zpow_pos two_pos _)

/-- The last place of a mantissa times a power of two, from the length of the mantissa. -/
theorem lastPlace_eq (hm : 0 < m) (e : ℤ) :
    lastPlace (m * 2 ^ e) = max (m.log2 + e - 52) (-1074) := by
  rw [lastPlace, log_of_liesAbove hm.ne' (liesAbove_exact m e)]

/-- A canonical pair has its exponent for its last place. -/
theorem Canonical.lastPlace_eq (h : Canonical m e) (hm : 0 < m) : lastPlace (m * 2 ^ e) = e := by
  have hlog : m.log2 ≤ 52 := Nat.lt_succ_iff.mp ((Nat.log2_lt hm.ne').mpr h.lt_two_pow)
  have hleast := h.le_exponent
  rw [Rounding.lastPlace_eq hm]
  rcases h.full_or_least with hfull | rfl
  · rw [log2_eq_of_canonical h hfull]
    omega
  · omega

/-- Doubles are already rounded. -/
theorem round_meaning? {u : UnpackedFloat} {x : EReal} (hu : Fits u) (h : meaning? u = some x) :
    round x = x := by
  cases u with
  | infinity s =>
      cases h
      exact round_signed_top s
  | notANumber => cases h
  | zero s =>
      cases h
      exact round_zero
  | finite s m e hm =>
      obtain ⟨hcanonical, he⟩ := hu
      have hself : roundMagnitude (m * 2 ^ e) = m * 2 ^ e := by
        have hexact := nearestEven_intCast m
        rw [Int.cast_natCast] at hexact
        rw [roundMagnitude, hcanonical.lastPlace_eq hm,
          mul_div_cancel_right₀ _ (zpow_pos two_pos _).ne', hexact, Int.cast_natCast]
      cases h
      rw [← signed_limit s (mul_zpow_pos hm e), hself, limit,
        if_pos (hcanonical.lt_two_pow_iff.mpr he)]

/-- A mantissa shifted to the left stands for the same number at a smaller exponent. -/
theorem liesAbove_shiftLeft (m k : ℕ) (e : ℤ) :
    LiesAbove (m <<< k) .exact ((m * 2 ^ e : ℝ) / 2 ^ (e - k)) := by
  have hunit : (2 : ℝ) ^ e = 2 ^ k * 2 ^ (e - k) := by
    rw [← zpow_natCast, ← zpow_add₀ two_ne_zero]
    congr 1
    omega
  rw [LiesAbove, hunit, ← mul_assoc, mul_div_cancel_right₀ _ (zpow_pos two_pos _).ne',
    Nat.shiftLeft_eq]
  push_cast
  rfl

/-- Rounding an unpacked double rounds the number that it stands for. -/
theorem roundsTo_round (s : Sign) (hm : 0 < m) (e : ℤ) :
    RoundsTo s (m * 2 ^ e) (UnpackedFloat.round Format.binary64 s m e) := by
  unfold UnpackedFloat.round decreaseExponent
  dsimp only
  apply roundsTo_roundWithAccuracy s (mul_zpow_pos hm e) (liesAbove_shiftLeft m _ e)
  rw [lastPlace_eq hm, targetExponent_binary64]
  omega

/-- An integer and an exponent become the double that is nearest to what they stand for. -/
theorem meaning?_normalize (n e : ℤ) (s : Sign) :
    meaning? (Float.Model.pack (UnpackedFloat.normalize Format.binary64 n e s)).unpack =
      some (round ((n * 2 ^ e : ℝ) : EReal)) := by
  unfold UnpackedFloat.normalize
  rcases lt_trichotomy n 0 with hneg | rfl | hpos
  · obtain ⟨m, rfl⟩ : ∃ m : ℕ, n = -m := ⟨n.natAbs, by omega⟩
    have hm : 0 < m := by omega
    rw [Int.compare_eq_lt.mpr hneg, neg_neg, Int.toNat_natCast]
    dsimp only
    rw [(roundsTo_round .negative hm e).meaning?_pack (mul_zpow_pos hm e), signed, ← EReal.coe_neg,
      Int.cast_neg, Int.cast_natCast, neg_mul]
  · rw [Int.compare_eq_eq.mpr rfl, Int.cast_zero, zero_mul, EReal.coe_zero, round_zero]
    dsimp only
    rw [unpack_pack (u := .zero s) trivial]
    rfl
  · obtain ⟨m, rfl⟩ : ∃ m : ℕ, n = m := ⟨n.natAbs, by omega⟩
    have hm : 0 < m := by omega
    rw [Int.compare_eq_gt.mpr hpos, Int.toNat_natCast]
    dsimp only
    rw [(roundsTo_round .positive hm e).meaning?_pack (mul_zpow_pos hm e), signed, Int.cast_natCast]

end Normalize

section Operations

variable {u v : UnpackedFloat} {x y : EReal}

/-- A double stands for the same after it is stored. -/
theorem meaning?_pack_self (hu : Fits u) (hx : meaning? u = some x) :
    meaning? (Float.Model.pack u).unpack = some (round x) := by
  rw [unpack_pack hu, hx, round_meaning? hu hx]

theorem meaning?_pack_infinity (s : Sign) :
    meaning? (Float.Model.pack (.infinity s)).unpack = some (round (signed s ⊤)) :=
  meaning?_pack_self trivial rfl

theorem meaning?_pack_zero (s : Sign) :
    meaning? (Float.Model.pack (.zero s)).unpack = some (round 0) :=
  meaning?_pack_self trivial rfl

section Sum

/-- An infinity swallows what is added to it, unless that is the opposite infinity. -/
theorem signed_top_add {s : Sign} (h : y ≠ signed (-s) ⊤) : signed s ⊤ + y = signed s ⊤ := by
  cases s
  · exact EReal.bot_add y
  · exact EReal.top_add_of_ne_bot h

theorem add_infinity_left {s : Sign} (hy : meaning? v = some y) (h : y ≠ signed (-s) ⊤) :
    UnpackedFloat.add Format.binary64 (.infinity s) v = .infinity s := by
  cases v with
  | notANumber => cases hy
  | infinity t =>
      cases hy
      cases s <;> cases t <;> first | rfl | exact absurd rfl h
  | zero t | finite t k f hk => rfl

/-- Two mantissas with one exponent are added as integers. -/
theorem signed_add_signed (s t : Sign) (m k : ℕ) (unit : ℝ) :
    signed s ((m * unit : ℝ) : EReal) + signed t ((k * unit : ℝ) : EReal) =
      (((s.apply m + t.apply k : ℤ) * unit : ℝ) : EReal) := by
  rw [signed_coe, signed_coe, ← EReal.coe_add]
  apply congrArg Real.toEReal
  cases s <;> cases t <;> simp only [Sign.apply] <;> push_cast <;> ring

/-- The sum of two finite doubles is the exact sum, rounded. -/
theorem meaning?_add_finite (s t : Sign) {m k : ℕ} (hm : 0 < m) (hk : 0 < k) (e f : ℤ) :
    meaning? (Float.Model.pack
        (UnpackedFloat.add Format.binary64 (.finite s m e hm) (.finite t k f hk))).unpack =
      some (round (signed s ((m * 2 ^ e : ℝ) : EReal) + signed t ((k * 2 ^ f : ℝ) : EReal))) := by
  have hunit : (0 : ℝ) < 2 ^ min e f := zpow_pos two_pos _
  have hleft := liesAbove_shiftLeft m (e - min e f).toNat e
  have hright := liesAbove_shiftLeft k (f - min e f).toNat f
  rw [show e - ((e - min e f).toNat : ℤ) = min e f by omega, LiesAbove,
    div_eq_iff hunit.ne'] at hleft
  rw [show f - ((f - min e f).toNat : ℤ) = min e f by omega, LiesAbove,
    div_eq_iff hunit.ne'] at hright
  rw [hleft, hright, signed_add_signed]
  exact meaning?_normalize _ _ _

/-- A sum is rounded once. -/
theorem meaning?_add (hu : Fits u) (hv : Fits v) (hx : meaning? u = some x)
    (hy : meaning? v = some y) (hbot : x ≠ ⊥ ∨ y ≠ ⊤) (htop : x ≠ ⊤ ∨ y ≠ ⊥) :
    meaning? (Float.Model.pack (UnpackedFloat.add Format.binary64 u v)).unpack =
      some (round (x + y)) := by
  cases u with
  | notANumber => cases hx
  | infinity s =>
      cases hx
      -- Opposite infinities have no sum: the hypotheses rule them out.
      have hne : y ≠ signed (-s) ⊤ := by
        cases s
        · exact hbot.resolve_left fun h => h rfl
        · exact htop.resolve_left fun h => h rfl
      rw [add_infinity_left hy hne, signed_top_add hne]
      exact meaning?_pack_infinity s
  | zero s =>
      cases hx
      rw [zero_add]
      cases v with
      | notANumber => cases hy
      | infinity t =>
          cases hy
          exact meaning?_pack_infinity t
      | zero t =>
          cases hy
          cases s <;> cases t <;> exact meaning?_pack_zero _
      | finite t k f hk => exact meaning?_pack_self hv hy
  | finite s m e hm =>
      cases v with
      | notANumber => cases hy
      | infinity t =>
          cases hx
          cases hy
          rw [add_comm, signed_top_add]
          · exact meaning?_pack_infinity t
          · rw [signed_coe]
            exact coe_ne_signed_top _ _
      | zero t =>
          cases hy
          rw [add_zero]
          exact meaning?_pack_self hu hx
      | finite t k f hk =>
          cases hx
          cases hy
          exact meaning?_add_finite s t hm hk e f

/-- The order of two operands does not matter for their sum, not even for the sign of a zero. -/
theorem unpacked_add_comm (u v : UnpackedFloat) :
    UnpackedFloat.add Format.binary64 u v = UnpackedFloat.add Format.binary64 v u := by
  cases u with
  | notANumber => cases v <;> rfl
  | infinity s =>
      cases v with
      | infinity t => cases s <;> cases t <;> rfl
      | notANumber | zero t | finite t k f hk => rfl
  | zero s =>
      cases v with
      | zero t => cases s <;> cases t <;> rfl
      | notANumber | infinity t | finite t k f hk => rfl
  | finite s m e hm =>
      cases v with
      | notANumber | infinity t | zero t => rfl
      | finite t k f hk =>
          simp only [UnpackedFloat.add]
          rw [min_comm, add_comm]

theorem apply_neg (s : Sign) (n : ℤ) : (-s).apply n = -s.apply n := by
  cases s
  · exact (neg_neg n).symm
  · rfl

/-- A difference is the sum with the sign of the second operand changed. -/
theorem sub_eq_add (u v : UnpackedFloat) :
    UnpackedFloat.sub Format.binary64 u v = UnpackedFloat.add Format.binary64 u v.neg := by
  cases u with
  | notANumber => rfl
  | infinity s | zero s | finite s m e hm =>
      cases v with
      | notANumber => rfl
      | infinity t | zero t => cases t <;> rfl
      | finite t k f hk =>
          simp only [UnpackedFloat.sub, UnpackedFloat.add, UnpackedFloat.neg, apply_neg,
            sub_eq_add_neg]

theorem meaning?_neg (hy : meaning? v = some y) : meaning? v.neg = some (-y) := by
  cases v with
  | notANumber => cases hy
  | infinity s | finite s m e hm =>
      cases hy
      rw [← signed_neg]
      rfl
  | zero s =>
      cases hy
      rw [neg_zero]
      rfl

theorem Fits.neg (hv : Fits v) : Fits v.neg := by
  cases v <;> exact hv

/-- A difference is rounded once. -/
theorem meaning?_sub (hu : Fits u) (hv : Fits v) (hx : meaning? u = some x)
    (hy : meaning? v = some y) (hbot : x ≠ ⊥ ∨ y ≠ ⊥) (htop : x ≠ ⊤ ∨ y ≠ ⊤) :
    meaning? (Float.Model.pack (UnpackedFloat.sub Format.binary64 u v)).unpack =
      some (round (x - y)) := by
  rw [sub_eq_add]
  exact meaning?_add hu hv.neg hx (meaning?_neg hy)
    (hbot.imp_right fun h => by simpa using h) (htop.imp_right fun h => by simpa using h)

end Sum

section Product

/-- The exponents of two doubles add up to no more than the last place of their product, so the
product of the mantissas loses no bit before it is rounded. -/
theorem le_lastPlace_mul {m k : ℕ} {e f : ℤ} (hu : Canonical m e) (hv : Canonical k f)
    (hm : 0 < m) (hk : 0 < k) : e + f ≤ lastPlace ((m * k : ℕ) * 2 ^ (e + f)) := by
  rw [lastPlace_eq (Nat.mul_pos hm hk)]
  have hleft := hu.full_or_least
  have hright := hv.full_or_least
  have hlog : 2 ^ 52 ≤ m * k → 52 ≤ (m * k).log2 := (Nat.le_log2 (Nat.mul_pos hm hk).ne').mpr
  have hle := Nat.le_mul_of_pos_right m hk
  have hle' := Nat.le_mul_of_pos_left k hm
  omega

/-- The product of two finite doubles is the exact product, rounded. -/
theorem meaning?_mul_finite (s t : Sign) {m k : ℕ} {e f : ℤ} (hu : Canonical m e)
    (hv : Canonical k f) (hm : 0 < m) (hk : 0 < k) :
    meaning? (Float.Model.pack
        (UnpackedFloat.mul Format.binary64 (.finite s m e hm) (.finite t k f hk))).unpack =
      some (round (signed s ((m * 2 ^ e : ℝ) : EReal) * signed t ((k * 2 ^ f : ℝ) : EReal))) := by
  have hpos : 0 < m * k := Nat.mul_pos hm hk
  have hrounds := roundsTo_roundWithAccuracy (s * t) (mul_zpow_pos hpos (e + f))
    (liesAbove_exact (m * k) (e + f)) (le_lastPlace_mul hu hv hm hk)
  have hproduct : ((m * k : ℕ) * 2 ^ (e + f) : ℝ) = m * 2 ^ e * (k * 2 ^ f) := by
    rw [zpow_add₀ two_ne_zero, Nat.cast_mul]
    ring
  have hmeaning := hrounds.meaning?_pack (mul_zpow_pos hpos (e + f))
  rw [hproduct, EReal.coe_mul, ← signed_mul_signed] at hmeaning
  exact hmeaning

/-- A product is rounded once. -/
theorem meaning?_mul (hu : Fits u) (hv : Fits v) (hx : meaning? u = some x)
    (hy : meaning? v = some y) (hleft : x = 0 → y ≠ ⊤ ∧ y ≠ ⊥) (hright : y = 0 → x ≠ ⊤ ∧ x ≠ ⊥) :
    meaning? (Float.Model.pack (UnpackedFloat.mul Format.binary64 u v)).unpack =
      some (round (x * y)) := by
  cases u with
  | notANumber => cases hx
  | infinity s =>
      cases hx
      cases v with
      | notANumber => cases hy
      | infinity t =>
          cases hy
          rw [signed_mul_signed, EReal.top_mul_top]
          exact meaning?_pack_infinity _
      | zero t =>
          cases hy
          -- An infinity times zero is no number: the hypotheses rule this out on either side.
          cases s
          · exact absurd rfl (hright rfl).2
          · exact absurd rfl (hright rfl).1
      | finite t k f hk =>
          cases hy
          rw [signed_mul_signed, EReal.top_mul_coe_of_pos (mul_zpow_pos hk f)]
          exact meaning?_pack_infinity _
  | zero s =>
      cases hx
      rw [zero_mul]
      cases v with
      | notANumber => cases hy
      | infinity t =>
          cases hy
          cases t
          · exact absurd rfl (hleft rfl).2
          · exact absurd rfl (hleft rfl).1
      | zero t | finite t k f hk => exact meaning?_pack_zero _
  | finite s m e hm =>
      cases v with
      | notANumber => cases hy
      | infinity t =>
          cases hx
          cases hy
          rw [signed_mul_signed, EReal.coe_mul_top_of_pos (mul_zpow_pos hm e)]
          exact meaning?_pack_infinity _
      | zero t =>
          cases hy
          rw [mul_zero]
          exact meaning?_pack_zero _
      | finite t k f hk =>
          cases hx
          cases hy
          exact meaning?_mul_finite s t hu.1 hv.1 hm hk

end Product

section Quotient

theorem signed_inv (t : Sign) (y : EReal) : (signed t y)⁻¹ = signed t y⁻¹ := by
  cases t
  · exact EReal.inv_neg y
  · rfl

theorem signed_div_signed (s t : Sign) (x y : EReal) :
    signed s x / signed t y = signed (s / t) (x / y) := by
  rw [div_eq_mul_inv, signed_inv, signed_mul_signed, div_eq_mul_inv]
  cases s <;> cases t <;> rfl

section Core

variable {m k : ℕ}

/-- The length of a quotient is at least the difference of the lengths, less one. -/
theorem sub_le_log_div (hm : 0 < m) (hk : 0 < k) (e f : ℤ) :
    (m.log2 + e : ℤ) - (k.log2 + f) - 1 ≤ Int.log 2 (m * 2 ^ e / (k * 2 ^ f) : ℝ) := by
  have hnum : (2 : ℝ) ^ (m.log2 + e : ℤ) ≤ m * 2 ^ e := by
    have hself : (2 : ℝ) ^ m.log2 ≤ m := by exact_mod_cast Nat.log2_self_le hm.ne'
    rw [zpow_add₀ two_ne_zero, zpow_natCast]
    exact mul_le_mul_of_nonneg_right hself (zpow_pos two_pos _).le
  have hden : (k * 2 ^ f : ℝ) ≤ 2 ^ (k.log2 + f + 1 : ℤ) := by
    have hself : (k : ℝ) ≤ 2 ^ (k.log2 + 1) := by exact_mod_cast Nat.lt_log2_self.le
    rw [add_right_comm, zpow_add₀ two_ne_zero]
    exact mul_le_mul_of_nonneg_right (by exact_mod_cast hself) (zpow_pos two_pos _).le
  have hpos : (0 : ℝ) < m * 2 ^ e / (k * 2 ^ f) := div_pos (mul_zpow_pos hm e) (mul_zpow_pos hk f)
  apply (Int.zpow_le_iff_le_log one_lt_two hpos).mp
  rw [le_div_iff₀ (mul_zpow_pos hk f)]
  calc (2 : ℝ) ^ ((m.log2 + e : ℤ) - (k.log2 + f) - 1) * (k * 2 ^ f)
      ≤ 2 ^ ((m.log2 + e : ℤ) - (k.log2 + f) - 1) * 2 ^ (k.log2 + f + 1 : ℤ) :=
        mul_le_mul_of_nonneg_left hden (zpow_pos two_pos _).le
    _ = 2 ^ (m.log2 + e : ℤ) := by
        rw [← zpow_add₀ two_ne_zero]
        congr 1
        omega
    _ ≤ m * 2 ^ e := hnum

/-- The quotient is worked out to its last place at least. -/
theorem divCore_le_lastPlace (hm : 0 < m) (hk : 0 < k) (e f : ℤ) :
    (divCore Format.binary64 m e k f).2.1 ≤ lastPlace (m * 2 ^ e / (k * 2 ^ f)) := by
  have hlog := sub_le_log_div hm hk e f
  unfold divCore Format.targetExponent totalExponent lastPlace
  dsimp only
  rw [show Format.binary64.minExponent = -1074 from rfl,
    show Format.binary64.mantissaBits = 53 from rfl]
  omega

/-- The quotient is taken of the first mantissa shifted to the left. -/
theorem liesAbove_divCore (hk : 0 < k) (e f : ℤ) :
    let (quotient, exponent, accuracy) := divCore Format.binary64 m e k f
    LiesAbove quotient accuracy (m * 2 ^ e / (k * 2 ^ f) / 2 ^ exponent) := by
  unfold divCore
  dsimp only
  generalize hexponent : min (e - f) (Format.targetExponent _ _) = exponent
  have hshift : ((e - f - exponent).toNat : ℤ) = e - f - exponent := by omega
  have hvalue : (m * 2 ^ e / (k * 2 ^ f) / 2 ^ exponent : ℝ) =
      ((m <<< (e - f - exponent).toNat : ℕ) : ℝ) / k := by
    rw [Nat.shiftLeft_eq, Nat.cast_mul, Nat.cast_pow, Nat.cast_ofNat, ← zpow_natCast, hshift,
      zpow_sub₀ two_ne_zero, zpow_sub₀ two_ne_zero]
    field_simp
  rw [hvalue]
  exact liesAbove_accuracyOfFraction _ hk

end Core

/-- The quotient of two finite doubles is the exact quotient, rounded. -/
theorem meaning?_div_finite (s t : Sign) {m k : ℕ} (hm : 0 < m) (hk : 0 < k) (e f : ℤ) :
    meaning? (Float.Model.pack
        (UnpackedFloat.div Format.binary64 (.finite s m e hm) (.finite t k f hk))).unpack =
      some (round (signed s ((m * 2 ^ e : ℝ) : EReal) / signed t ((k * 2 ^ f : ℝ) : EReal))) := by
  have hpos : (0 : ℝ) < m * 2 ^ e / (k * 2 ^ f) := div_pos (mul_zpow_pos hm e) (mul_zpow_pos hk f)
  have hrounds := roundsTo_roundWithAccuracy (s / t) hpos (liesAbove_divCore hk e f)
    (divCore_le_lastPlace hm hk e f)
  have hmeaning := hrounds.meaning?_pack hpos
  rw [EReal.coe_div, ← signed_div_signed] at hmeaning
  exact hmeaning

/-- A quotient is rounded once. -/
theorem meaning?_div (hu : Fits u) (hv : Fits v) (hx : meaning? u = some x)
    (hy : meaning? v = some y) (hzero : y ≠ 0) (hfinite : (x ≠ ⊤ ∧ x ≠ ⊥) ∨ (y ≠ ⊤ ∧ y ≠ ⊥)) :
    meaning? (Float.Model.pack (UnpackedFloat.div Format.binary64 u v)).unpack =
      some (round (x / y)) := by
  -- The divisor first: what is divided by zero is ruled out, whatever it is.
  cases v with
  | notANumber => cases hy
  | zero t =>
      cases hy
      exact absurd rfl hzero
  | infinity t =>
      cases u with
      | notANumber => cases hx
      | infinity s =>
          cases hx
          cases hy
          cases s <;> cases t <;> simp [signed] at hfinite
      | zero s =>
          cases hx
          rw [EReal.zero_div]
          exact meaning?_pack_zero _
      | finite s m e hm =>
          cases hy
          have hquotient : x / signed t ⊤ = 0 := by
            cases t
            · exact EReal.div_bot
            · exact EReal.div_top
          rw [hquotient]
          exact meaning?_pack_zero _
  | finite t k f hk =>
      cases u with
      | notANumber => cases hx
      | infinity s =>
          cases hx
          cases hy
          have htop : (⊤ : EReal) / ((k * 2 ^ f : ℝ) : EReal) = ⊤ :=
            EReal.top_div_of_pos_ne_top (EReal.coe_pos.mpr (mul_zpow_pos hk f)) (EReal.coe_ne_top _)
          rw [signed_div_signed, htop]
          exact meaning?_pack_infinity _
      | zero s =>
          cases hx
          rw [EReal.zero_div]
          exact meaning?_pack_zero _
      | finite s m e hm =>
          cases hx
          cases hy
          exact meaning?_div_finite s t hm hk e f

end Quotient

end Operations

end Campaign.Rounding
