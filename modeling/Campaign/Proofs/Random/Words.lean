import Campaign.Random.Source

/-!
# Words for choices

For everything there is to choose among `n` there is a word that settles on it, as long as there
are no more things than words: the least word whose product with `n` has it as the high part. The
low part of that product is below `n`, so the word is never refused.
-/

namespace Campaign.Source

/-- A word that is accepted settles the choice and is the only one drawn for it. -/
theorem choose?_of_accepts {n : Nat} {s : Source} (h : accepts n s.next) :
    s.choose? n = some (pick n s.next, s.skip) := by
  rw [choose?, if_pos h]

/-- Words below the number of things are always accepted. -/
theorem le_zone (n : Nat) : n - 1 ≤ zone n := by
  have hle : n ≤ n * 2 ^ (63 - n.log2) := Nat.le_mul_of_pos_right n (Nat.two_pow_pos _)
  rw [zone, Nat.shiftLeft_eq]
  omega

theorem accepts_zero (n : Nat) : accepts n 0 := by
  simp [accepts]

theorem pick_zero (n : Nat) : pick n 0 = 0 := by
  simp [pick]

/-- The least word that stands for a thing in a choice among `n`. -/
def wordFor (n i : Nat) : UInt64 := UInt64.ofNat ((i * UInt64.size + (n - 1)) / n)

section WordFor

variable {n i : Nat}

/-- The product of the word and `n` reaches the thing and does not go past it by `n`. -/
theorem exists_wordFor_mul (hn : n ≤ UInt64.size) (hi : i < n) :
    ∃ low, (wordFor n i).toNat * n = i * UInt64.size + low ∧ low < n := by
  have hpos : 0 < n := Nat.zero_lt_of_lt hi
  have hdiv := Nat.div_add_mod (i * UInt64.size + (n - 1)) n
  have hmod := Nat.mod_lt (i * UInt64.size + (n - 1)) hpos
  have hfits : (i * UInt64.size + (n - 1)) / n < UInt64.size := by
    have hlast : (i + 1) * UInt64.size ≤ n * UInt64.size := Nat.mul_le_mul_right _ hi
    rw [Nat.div_lt_iff_lt_mul hpos, Nat.mul_comm UInt64.size]
    rw [Nat.succ_mul] at hlast
    omega
  have hword : (wordFor n i).toNat = (i * UInt64.size + (n - 1)) / n :=
    UInt64.toNat_ofNat_of_lt' hfits
  rw [Nat.mul_comm n] at hdiv
  refine ⟨(wordFor n i).toNat * n - i * UInt64.size, ?_, ?_⟩
  · rw [hword]
    omega
  · rw [hword]
    omega

/-- The least word that stands for a thing is accepted. -/
theorem accepts_wordFor (hn : n ≤ UInt64.size) (hi : i < n) : accepts n (wordFor n i) := by
  obtain ⟨low, hmul, hlow⟩ := exists_wordFor_mul hn hi
  have hzone := le_zone n
  rw [accepts, hmul, Nat.mul_comm, Nat.mul_add_mod, Nat.mod_eq_of_lt (Nat.lt_of_lt_of_le hlow hn)]
  exact decide_eq_true (by omega)

theorem pick_wordFor (hn : n ≤ UInt64.size) (hi : i < n) : pick n (wordFor n i) = i := by
  obtain ⟨low, hmul, hlow⟩ := exists_wordFor_mul hn hi
  have hsize : 0 < UInt64.size := by decide
  rw [pick, hmul, Nat.mul_comm, Nat.mul_add_div hsize,
    Nat.div_eq_of_lt (Nat.lt_of_lt_of_le hlow hn), Nat.add_zero]

end WordFor

end Campaign.Source
