import Campaign.Proofs.Number.Rounding

/-!
# Rounding a mantissa

The exact result of an operation on doubles is known as a mantissa, an exponent and an accuracy, which
says how far the result lies above the mantissa. A shift to the right takes digits from the mantissa
into the accuracy and loses nothing that rounding asks for. So the mantissa that is left with as many
digits as a double has is the exact result rounded once.
-/

namespace Campaign.Rounding

open Float.Model Float.Model.UnpackedFloat

/-- The quotient of two numbers lies above its integral part as the remainder says. -/
theorem liesAbove_accuracyOfFraction (n : ℕ) {d : ℕ} (hd : 0 < d) :
    LiesAbove (n / d) (accuracyOfFraction (n % d) d) (n / d : ℝ) := by
  have hpos : (0 : ℝ) < d := Nat.cast_pos.mpr hd
  have hsplit : (n : ℝ) / d = (n / d : ℕ) + (n % d : ℕ) / (d : ℝ) := by
    rw [eq_comm, ← mul_div_cancel_left₀ ((n / d : ℕ) : ℝ) hpos.ne', ← add_div]
    exact_mod_cast congrArg (fun k : ℕ => (k : ℝ) / d) (Nat.div_add_mod n d)
  have hlt : ((n % d : ℕ) : ℝ) / d < 1 := (div_lt_one hpos).mpr (Nat.cast_lt.mpr (Nat.mod_lt n hd))
  rw [hsplit, accuracyOfFraction]
  split
  next hzero => simp [LiesAbove, hzero]
  next hne =>
    have hrest : (0 : ℝ) < (n % d : ℕ) / (d : ℝ) :=
      div_pos (Nat.cast_pos.mpr (Nat.pos_of_ne_zero hne)) hpos
    -- Twice the remainder against the divisor tells on which side of a half the rest is.
    cases hcompare : compare (2 * (n % d)) d with
    | lt =>
        have hhalf : (2 : ℝ) * (n % d : ℕ) < d := by exact_mod_cast Nat.compare_eq_lt.mp hcompare
        have hless : ((n % d : ℕ) : ℝ) / d < 1 / 2 := by
          rw [div_lt_div_iff₀ hpos two_pos]
          linarith
        exact ⟨by linarith, by linarith⟩
    | eq =>
        have hhalf : (2 : ℝ) * (n % d : ℕ) = d := by exact_mod_cast Nat.compare_eq_eq.mp hcompare
        have heq : ((n % d : ℕ) : ℝ) / d = 1 / 2 := by
          rw [div_eq_div_iff hpos.ne' two_ne_zero]
          linarith
        simp [LiesAbove, heq]
    | gt =>
        have hhalf : (d : ℝ) < 2 * (n % d : ℕ) := by exact_mod_cast Nat.compare_eq_gt.mp hcompare
        have hmore : 1 / 2 < ((n % d : ℕ) : ℝ) / d := by
          rw [div_lt_div_iff₀ two_pos hpos]
          linarith
        exact ⟨by linarith, by linarith⟩

section Shift

/-- A mantissa with its round and sticky bits lies below a real as the bits say. -/
def Carries (em : ExtendedMantissa) (x : ℝ) : Prop := LiesAbove em.mantissa em.accuracy x

variable {em : ExtendedMantissa} {x : ℝ}

/-- A mantissa with its accuracy becomes a mantissa with a round and a sticky bit for the same
number. -/
theorem carries_ofMantissaAndAccuracy {m : ℕ} {a : Accuracy} (h : LiesAbove m a x) :
    Carries (.ofMantissaAndAccuracy m a) x := by
  rcases a with _ | (_ | _ | _) <;> exact h

/-- The digit that a shift drops becomes the round bit, and the bits before it are collected. -/
theorem Carries.shiftRightOne (h : Carries em x) : Carries em.shiftRightOne (x / 2) := by
  obtain ⟨m, roundBit, stickyBit⟩ := em
  obtain ⟨half, rfl | rfl⟩ := Nat.even_or_odd' m
  · have hshift : (ExtendedMantissa.mk (2 * half) roundBit stickyBit).shiftRightOne =
        ⟨half, false, roundBit || stickyBit⟩ := by
      simp [ExtendedMantissa.shiftRightOne]
    rw [hshift]
    cases roundBit <;> cases stickyBit <;>
      simp only [Carries, ExtendedMantissa.accuracy, LiesAbove, Bool.or_self, Bool.or_true,
        Bool.or_false, Nat.cast_mul, Nat.cast_ofNat] at h ⊢ <;>
      first | linarith | exact ⟨by linarith, by linarith⟩
  · have hshift : (ExtendedMantissa.mk (2 * half + 1) roundBit stickyBit).shiftRightOne =
        ⟨half, true, roundBit || stickyBit⟩ := by
      have hhalf : (2 * half + 1) / 2 = half := by omega
      simp [ExtendedMantissa.shiftRightOne, hhalf]
    rw [hshift]
    cases roundBit <;> cases stickyBit <;>
      simp only [Carries, ExtendedMantissa.accuracy, LiesAbove, Bool.or_self, Bool.or_true,
        Bool.or_false, Nat.cast_add, Nat.cast_mul, Nat.cast_ofNat, Nat.cast_one] at h ⊢ <;>
      first | linarith | exact ⟨by linarith, by linarith⟩

/-- Shifting to the right divides by a power of two, and the bits that fall out are remembered. -/
theorem Carries.shiftRight (h : Carries em x) (n : ℕ) : Carries (em >>> n) (x / 2 ^ n) := by
  induction n with
  | zero =>
      rw [pow_zero, div_one]
      exact h
  | succ n ih =>
      rw [pow_succ, ← div_div]
      exact ih.shiftRightOne

end Shift

section Exponent

variable {m : ℕ} {e : ℤ} {a : Accuracy} {x : ℝ}

theorem targetExponent_binary64 (m : ℕ) (e : ℤ) :
    Format.binary64.targetExponent (totalExponent m e) = max (m.log2 + e - 52) (-1074) := by
  unfold Format.targetExponent totalExponent
  rw [show Format.binary64.minExponent = -1074 from rfl]
  rw [show Format.binary64.mantissaBits = 53 from rfl]
  congr 1
  push_cast
  omega

/-- A real that lies above a mantissa other than zero has as many binary digits. -/
theorem log_of_liesAbove (hm : m ≠ 0) (h : LiesAbove m a (x / 2 ^ e)) :
    Int.log 2 x = m.log2 + e := by
  have hunit : (0 : ℝ) < 2 ^ e := zpow_pos two_pos _
  obtain ⟨hle, hlt⟩ := h.bounds
  have hlow : (2 : ℝ) ^ ((m.log2 : ℤ) + e) ≤ x := by
    have hself : (2 : ℝ) ^ m.log2 ≤ m := by exact_mod_cast Nat.log2_self_le hm
    rw [zpow_add₀ two_ne_zero, zpow_natCast, ← le_div_iff₀ hunit]
    exact hself.trans hle
  have hhigh : x < (2 : ℝ) ^ ((m.log2 : ℤ) + e + 1) := by
    have hself : (m : ℝ) + 1 ≤ 2 ^ (m.log2 + 1) := by exact_mod_cast Nat.lt_log2_self
    rw [add_right_comm, zpow_add₀ two_ne_zero, ← div_lt_iff₀ hunit]
    exact hlt.trans_le (by exact_mod_cast hself)
  have hpos : 0 < x := (zpow_pos two_pos _).trans_le hlow
  apply le_antisymm
  · exact Int.lt_add_one_iff.mp ((Int.lt_zpow_iff_log_lt one_lt_two hpos).mp hhigh)
  · exact (Int.zpow_le_iff_le_log one_lt_two hpos).mp hlow

/-- The exponent that a mantissa is shifted to is that of the last place, unless digits that a double
has are missing from it. -/
theorem targetExponent_eq_lastPlace (hx : 0 < x) (h : LiesAbove m a (x / 2 ^ e))
    (he : e ≤ lastPlace x) :
    Format.binary64.targetExponent (totalExponent m e) = lastPlace x := by
  rw [targetExponent_binary64]
  by_cases hm : m = 0
  · -- Nothing is left above the least exponent.
    subst hm
    have hlog : Int.log 2 x < e := by
      have hlt := h.bounds.2
      rw [Nat.cast_zero, zero_add, div_lt_one (zpow_pos two_pos _)] at hlt
      exact (Int.lt_zpow_iff_log_lt one_lt_two hx).mp hlt
    unfold lastPlace at he ⊢
    rw [show Nat.log2 0 = 0 from rfl]
    omega
  · rw [lastPlace, log_of_liesAbove hm h]

end Exponent

/-- A mantissa and an exponent as a double has them: 53 digits at most, and fewer only for the
least exponent. -/
structure Canonical (m : ℕ) (e : ℤ) : Prop where
  lt_two_pow : m < 2 ^ 53
  le_exponent : -1074 ≤ e
  full_or_least : 2 ^ 52 ≤ m ∨ e = -1074

section Round

variable {m : ℕ} {e : ℤ} {a : Accuracy} {x : ℝ}

theorem shiftRight_zero (em : ExtendedMantissa) : em >>> 0 = em := rfl

theorem shiftToTargetExponent_of_canonical (h : Canonical m e) :
    shiftToTargetExponent Format.binary64 m e .exact =
      (.ofMantissaAndAccuracy m .exact, e) := by
  have hlog : m.log2 ≤ 52 := by
    by_cases hm : m = 0
    · simp [hm]
    · exact Nat.lt_succ_iff.mp ((Nat.log2_lt hm).mpr h.lt_two_pow)
  have hshift : (max (m.log2 + e - 52) (-1074) - e).toNat = 0 := by
    have hle := h.le_exponent
    omega
  unfold shiftToTargetExponent shiftToExponent
  dsimp only
  rw [targetExponent_binary64, hshift, shiftRight_zero, Nat.cast_zero, add_zero]

/-- A mantissa that rounding has brought to one digit too many loses a zero. -/
theorem shiftToTargetExponent_two_pow (he : -1074 ≤ e) :
    shiftToTargetExponent Format.binary64 (2 ^ 53) e .exact =
      (.ofMantissaAndAccuracy (2 ^ 52) .exact, e + 1) := by
  have hshift : (max (53 + e - 52) (-1074) - e).toNat = 1 := by omega
  unfold shiftToTargetExponent shiftToExponent
  dsimp only
  rw [targetExponent_binary64, Nat.log2_two_pow, Nat.cast_ofNat, hshift]
  rfl

/-- What rounding makes of a positive real: a double in canonical form that is the real rounded, or
zero. -/
inductive RoundsTo (s : Sign) (x : ℝ) : UnpackedFloat → Prop
  | zero (h : roundMagnitude x = 0) : RoundsTo s x (.zero s)
  | finite (m : ℕ) (e : ℤ) (hm : 0 < m) (hcanonical : Canonical m e)
      (h : roundMagnitude x = m * 2 ^ e) : RoundsTo s x (.finite s m e hm)

/-- A mantissa that is rounded to the nearest even one makes a rounded double, also when rounding
carries it to the next power of two. -/
theorem roundsTo_of_mantissa {r : ℕ} (s : Sign) (hr : roundMagnitude x = r * 2 ^ e)
    (hle : r ≤ 2 ^ 53) (he : -1074 ≤ e) (hfull : 2 ^ 52 ≤ r ∨ e = -1074) :
    let shifted := shiftToTargetExponent Format.binary64 r e .exact
    RoundsTo s x (if h : shifted.1.mantissa = 0 then .zero s
      else .finite s shifted.1.mantissa shifted.2 (Nat.pos_of_ne_zero h)) := by
  rcases hle.lt_or_eq with hlt | rfl
  · have hcanonical : Canonical r e := ⟨hlt, he, hfull⟩
    rw [shiftToTargetExponent_of_canonical hcanonical]
    dsimp only
    split
    next hzero =>
      have hr0 : r = 0 := hzero
      exact .zero (by rw [hr, hr0, Nat.cast_zero, zero_mul])
    next hne => exact .finite r e _ hcanonical hr
  · rw [shiftToTargetExponent_two_pow he]
    dsimp only
    split
    next hzero => exact absurd hzero (by decide)
    next hne =>
      apply RoundsTo.finite (2 ^ 52) (e + 1) _ ⟨by decide, by omega, .inl le_rfl⟩
      rw [hr, zpow_add_one₀ two_ne_zero]
      push_cast
      ring

/-- Counted in last places, a number rounds to 53 bits, or to the next power of two. -/
theorem nearestEven_lastPlace_le (x : ℝ) : nearestEven (x / 2 ^ lastPlace x) ≤ 2 ^ 53 := by
  rw [← nearestEven_intCast (2 ^ 53)]
  apply nearestEven_mono
  rw [div_le_iff₀ (zpow_pos two_pos _), Int.cast_pow, Int.cast_ofNat, ← zpow_natCast,
    ← zpow_add₀ two_ne_zero, add_comm]
  exact (lt_zpow_lastPlace x).le

/-- Above the subnormal range it rounds to no fewer than 53 bits. -/
theorem le_nearestEven_lastPlace (hx : 0 < x) (h : -1074 < lastPlace x) :
    2 ^ 52 ≤ nearestEven (x / 2 ^ lastPlace x) := by
  rw [← nearestEven_intCast (2 ^ 52)]
  apply nearestEven_mono
  rw [le_div_iff₀ (zpow_pos two_pos _), Int.cast_pow, Int.cast_ofNat, ← zpow_natCast,
    ← zpow_add₀ two_ne_zero, add_comm]
  exact zpow_lastPlace_le hx h

/-- A mantissa with an accuracy is rounded as the real that it stands for. -/
theorem roundsTo_roundWithAccuracy (s : Sign) (hx : 0 < x) (h : LiesAbove m a (x / 2 ^ e))
    (he : e ≤ lastPlace x) :
    RoundsTo s x (roundWithAccuracy Format.binary64 s m e a) := by
  have hshift : e + ((lastPlace x - e).toNat : ℤ) = lastPlace x := by omega
  let em := ExtendedMantissa.ofMantissaAndAccuracy m a >>> (lastPlace x - e).toNat
  have hfirst : shiftToTargetExponent Format.binary64 m e a = (em, lastPlace x) := by
    unfold shiftToTargetExponent shiftToExponent
    rw [targetExponent_eq_lastPlace hx h he]
    dsimp only
    rw [hshift]
  have hcarries : Carries em (x / 2 ^ lastPlace x) := by
    have hshifted := (carries_ofMantissaAndAccuracy h).shiftRight (lastPlace x - e).toNat
    rwa [div_div, ← zpow_natCast, ← zpow_add₀ two_ne_zero, hshift] at hshifted
  have hrounded : nearestEven (x / 2 ^ lastPlace x) = em.roundedMantissa := hcarries.nearestEven_eq
  have hle := nearestEven_lastPlace_le x
  have hleast : -1074 ≤ lastPlace x := le_max_right _ _
  -- A mantissa of fewer than 53 bits stands at the least exponent only.
  have hfull : 2 ^ 52 ≤ em.roundedMantissa ∨ lastPlace x = -1074 := by
    refine hleast.lt_or_eq.imp (fun hlt => ?_) Eq.symm
    have hlow := le_nearestEven_lastPlace hx hlt
    rw [hrounded] at hlow
    exact_mod_cast hlow
  unfold roundWithAccuracy
  rw [hfirst]
  refine roundsTo_of_mantissa s ?_ ?_ hleast hfull
  · rw [roundMagnitude, hrounded, Int.cast_natCast]
  · rw [hrounded] at hle
    exact_mod_cast hle

end Round

end Campaign.Rounding
