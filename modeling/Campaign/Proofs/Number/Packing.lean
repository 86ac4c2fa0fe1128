import Campaign.Proofs.Number.Mantissa

/-!
# Doubles as words

A double is kept as a word of 64 bits. A canonical mantissa and exponent come back from the word as
they went in, except that an exponent past the greatest makes an infinity of them, and every word
holds a canonical pair. So the double that an operation gives is its exact result rounded.
-/

namespace Campaign.Rounding

open Float.Model Float.Model.UnpackedFloat

theorem ofBitVec_unpackSign {spec : Format} (s : Sign) (exponent : BitVec spec.exponentBits)
    (mantissa : BitVec spec.mantissaBitsWithoutImplicit) :
    Sign.ofBitVec (unpackSign (packComponents spec s exponent mantissa)) = s := by
  have hsign : unpackSign (packComponents spec s exponent mantissa) = s.toBitVec := by
    ext i hi
    obtain rfl : i = 0 := by omega
    simp +arith [unpackSign, packComponents, BitVec.getElem_append]
  rw [hsign]
  cases s <;> rfl

theorem toNat_one_append (mantissa : BitVec 52) :
    (1#1 ++ mantissa).toNat = 2 ^ 52 + mantissa.toNat := by
  rw [BitVec.toNat_append, ← Nat.shiftLeft_add_eq_or_of_lt mantissa.isLt]
  rfl

section Components

variable (s : Sign) (exponent : BitVec 11) (mantissa : BitVec 52)

/-- A word whose exponent is neither least nor greatest stands for a mantissa of 53 bits. -/
theorem unpack_components_full (hinfinite : exponent ≠ -1#11) (hpartial : exponent ≠ 0#11)
    (hm : 0 < 2 ^ 52 + mantissa.toNat) :
    UnpackedFloat.unpack Format.binary64 (packComponents Format.binary64 s exponent mantissa) =
      .finite s (2 ^ 52 + mantissa.toNat) (exponent.toNat - 1075) hm := by
  unfold UnpackedFloat.unpack
  simp only [unpackExponent_packComponents, unpackMantissa_packComponents, ofBitVec_unpackSign,
    hinfinite, hpartial, if_false, toNat_one_append]
  rfl

/-- A word with the least exponent stands for a mantissa of fewer bits. -/
theorem unpack_components_partial (hm : 0 < mantissa.toNat) :
    UnpackedFloat.unpack Format.binary64 (packComponents Format.binary64 s 0#11 mantissa) =
      .finite s mantissa.toNat (-1074) hm := by
  have hne : mantissa ≠ 0#52 := by
    rintro rfl
    exact absurd hm (by decide)
  unfold UnpackedFloat.unpack
  simp only [unpackExponent_packComponents, unpackMantissa_packComponents, ofBitVec_unpackSign, hne]
  rfl

end Components

section Canonical

variable {m : ℕ} {e : ℤ} (hm : 0 < m)

theorem log2_eq_of_canonical (h : Canonical m e) (hfull : 2 ^ 52 ≤ m) : m.log2 = 52 :=
  (Nat.log2_eq_iff (by omega)).mpr ⟨hfull, h.lt_two_pow⟩

/-- The bits of a double that is neither zero nor without a value. -/
theorem pack_finite (s : Sign) : UnpackedFloat.pack Format.binary64 (.finite s m e hm) =
    if 972 ≤ e then packedInfinity Format.binary64 s
    else if m.log2 = 52 then
      packComponents Format.binary64 s (BitVec.ofNat 11 (e + 1075).toNat) (BitVec.ofNat 52 m)
    else packComponents Format.binary64 s 0#11 (BitVec.ofNat 52 m) := by
  have hbias : e + Format.binary64.exponentBias + Format.binary64.mantissaBitsWithoutImplicit =
      e + 1075 := by
    rw [show Format.binary64.exponentBias = 1023 from rfl,
      show Format.binary64.mantissaBitsWithoutImplicit = 52 from rfl]
    omega
  unfold UnpackedFloat.pack
  dsimp only
  rw [hbias]
  apply if_congr
  · rw [show 2 ^ Format.binary64.exponentBits = 2048 from rfl]
    omega
  · rfl
  · apply if_congr
    · rw [show Format.binary64.mantissaBits = 53 from rfl]
      omega
    · rfl
    · rfl

/-- A double with a mantissa of 53 bits survives its packing into a word. -/
theorem unpack_pack_full (h : Canonical m e) (hfull : 2 ^ 52 ≤ m) (he : e ≤ 971)
    (s : Sign) : (Float.Model.pack (.finite s m e hm)).unpack = .finite s m e hm := by
  have hlow := h.le_exponent
  have hlt := h.lt_two_pow
  have hexponent : (BitVec.ofNat 11 (e + 1075).toNat).toNat = (e + 1075).toNat := by
    rw [BitVec.toNat_ofNat]
    omega
  have hmantissa : 2 ^ 52 + (BitVec.ofNat 52 m).toNat = m := by
    rw [BitVec.toNat_ofNat]
    omega
  have hinfinite : BitVec.ofNat 11 (e + 1075).toNat ≠ -1#11 := by
    intro heq
    have htoNat := congrArg BitVec.toNat heq
    rw [hexponent, show (-1#11 : BitVec 11).toNat = 2047 from rfl] at htoNat
    omega
  have hpartial : BitVec.ofNat 11 (e + 1075).toNat ≠ 0#11 := by
    intro heq
    have htoNat := congrArg BitVec.toNat heq
    rw [hexponent, show (0#11 : BitVec 11).toNat = 0 from rfl] at htoNat
    omega
  change UnpackedFloat.unpack Format.binary64 (UnpackedFloat.pack Format.binary64 _) = _
  rw [pack_finite, if_neg (by omega), if_pos (log2_eq_of_canonical h hfull),
    unpack_components_full s _ _ hinfinite hpartial (by omega)]
  congr 1
  rw [hexponent]
  omega

theorem unpack_pack_partial (hlt : m < 2 ^ 52) (s : Sign) :
    (Float.Model.pack (.finite s m (-1074) hm)).unpack = .finite s m (-1074) hm := by
  have hmantissa : (BitVec.ofNat 52 m).toNat = m := by
    rw [BitVec.toNat_ofNat]
    omega
  have hlog : m.log2 ≠ 52 := ((Nat.log2_lt hm.ne').mpr hlt).ne
  change UnpackedFloat.unpack Format.binary64 (UnpackedFloat.pack Format.binary64 _) = _
  rw [pack_finite, if_neg (by decide), if_neg hlog, unpack_components_partial s _ (by omega)]
  congr 1

/-- A double whose exponent is too great for a word becomes infinite. -/
theorem unpack_pack_overflow (he : 971 < e) (s : Sign) :
    (Float.Model.pack (.finite s m e hm)).unpack = .infinity s := by
  change UnpackedFloat.unpack Format.binary64 (UnpackedFloat.pack Format.binary64 _) = _
  rw [pack_finite, if_pos (by omega)]
  cases s <;> rfl

end Canonical

/-- Which exponents are too great: those of numbers from the power of two on that bounds the format.
-/
theorem Canonical.lt_two_pow_iff {m : ℕ} {e : ℤ} (h : Canonical m e) :
    (m * 2 ^ e : ℝ) < 2 ^ 1024 ↔ e ≤ 971 := by
  have hunit : (0 : ℝ) < 2 ^ e := zpow_pos two_pos _
  have hpower : (2 : ℝ) ^ 1024 = 2 ^ (1024 : ℤ) := (zpow_natCast 2 1024).symm
  constructor
  · intro hlt
    by_contra hgt
    have hfull : (2 : ℝ) ^ (52 : ℤ) ≤ m := by
      exact_mod_cast h.full_or_least.resolve_right (by omega)
    have hle : (2 : ℝ) ^ (1024 : ℤ) ≤ m * 2 ^ e := by
      calc (2 : ℝ) ^ (1024 : ℤ) ≤ 2 ^ (52 + e) := zpow_le_zpow_right₀ one_le_two (by omega)
        _ = 2 ^ (52 : ℤ) * 2 ^ e := zpow_add₀ two_ne_zero _ _
        _ ≤ m * 2 ^ e := mul_le_mul_of_nonneg_right hfull hunit.le
    exact absurd hlt (hpower ▸ hle.not_gt)
  · intro he
    have hm : (m : ℝ) < 2 ^ (53 : ℤ) := by exact_mod_cast h.lt_two_pow
    calc (m : ℝ) * 2 ^ e < 2 ^ (53 : ℤ) * 2 ^ e := mul_lt_mul_of_pos_right hm hunit
      _ = 2 ^ (53 + e) := (zpow_add₀ two_ne_zero _ _).symm
      _ ≤ 2 ^ (1024 : ℤ) := zpow_le_zpow_right₀ one_le_two (by omega)
      _ = 2 ^ 1024 := hpower.symm

/-- A double keeps what canonical mantissa and exponent stand for, as long as it is not too great. -/
theorem Canonical.meaning?_pack {m : ℕ} {e : ℤ} (h : Canonical m e) (hm : 0 < m) (s : Sign) :
    meaning? (Float.Model.pack (.finite s m e hm)).unpack =
      some (signed s (limit (m * 2 ^ e))) := by
  rw [limit]
  split_ifs with hlt
  · have he := h.lt_two_pow_iff.mp hlt
    by_cases hfull : 2 ^ 52 ≤ m
    · rw [unpack_pack_full hm h hfull he]
      rfl
    · obtain rfl := h.full_or_least.resolve_left hfull
      rw [unpack_pack_partial hm (not_le.mp hfull)]
      rfl
  · rw [unpack_pack_overflow hm (not_le.mp fun he => hlt (h.lt_two_pow_iff.mpr he))]
    rfl

/-- Past the greatest double, a rounded number goes to infinity with its sign. -/
theorem signed_limit (s : Sign) {x : ℝ} (hx : 0 < x) :
    signed s (limit (roundMagnitude x)) = round (signed s x) := by
  cases s with
  | positive => rw [signed, signed, round_coe, roundReal_of_nonneg hx.le]
  | negative => rw [signed, signed, ← EReal.coe_neg, round_coe, roundReal_neg,
      roundReal_of_nonneg hx.le]

/-- The double that rounding makes of a positive real stands for the real rounded. -/
theorem RoundsTo.meaning?_pack {s : Sign} {x : ℝ} {u : UnpackedFloat} (h : RoundsTo s x u)
    (hx : 0 < x) : meaning? (Float.Model.pack u).unpack = some (round (signed s x)) := by
  rw [← signed_limit s hx]
  cases h with
  | zero hzero =>
      rw [hzero, limit, if_pos (by positivity)]
      cases s <;> simp [signed] <;> rfl
  | finite m e hm hcanonical hvalue =>
      rw [hvalue, hcanonical.meaning?_pack hm]

/-- A double that is neither zero nor infinite has a canonical mantissa and exponent. -/
theorem canonical_of_unpack {f : Float.Model} {s : Sign} {m : ℕ} {e : ℤ} {hm : 0 < m}
    (h : f.unpack = .finite s m e hm) : Canonical m e ∧ e ≤ 971 := by
  have hbias : (Format.binary64.exponentBias : ℤ) + Format.binary64.mantissaBitsWithoutImplicit =
      1075 := rfl
  have hmantissa : (@unpackMantissa Format.binary64 f.toBits.toBitVec).toNat < 2 ^ 52 :=
    BitVec.isLt _
  have hexponent : (@unpackExponent Format.binary64 f.toBits.toBitVec).toNat < 2 ^ 11 :=
    BitVec.isLt _
  -- By the biased exponent: all ones is no finite number, zero is subnormal.
  unfold Float.Model.unpack UnpackedFloat.unpack at h
  dsimp only at h
  rw [hbias] at h
  split at h
  · split at h <;> cases h
  next hinfinite =>
    split at h
    next hpartial =>
      split at h
      next => cases h
      next =>
        have hzero : (@unpackExponent Format.binary64 f.toBits.toBitVec).toNat = 0 :=
          congrArg BitVec.toNat hpartial
        cases h
        rw [hzero]
        exact ⟨⟨by omega, by decide, .inr rfl⟩, by decide⟩
    next hpartial =>
      have hne : (@unpackExponent Format.binary64 f.toBits.toBitVec).toNat ≠ 0 :=
        fun hzero => hpartial (BitVec.eq_of_toNat_eq hzero)
      have hlt : (@unpackExponent Format.binary64 f.toBits.toBitVec).toNat ≠ 2047 :=
        fun hall => hinfinite (BitVec.eq_of_toNat_eq hall)
      cases h
      rw [toNat_one_append]
      exact ⟨⟨by omega, by omega, .inl (by omega)⟩, by omega⟩

end Campaign.Rounding
