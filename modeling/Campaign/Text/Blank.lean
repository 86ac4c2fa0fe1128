/-!
# Blank characters

Which characters count as blank at the edges of a text, and the text without them. The class is
the Unicode property `White_Space`.
-/

namespace Campaign.Text

/-- Whether a character has the Unicode property `White_Space`. -/
def isBlank (c : Char) : Bool :=
  let n := c.toNat
  (9 ≤ n && n ≤ 13) || n == 0x20 || n == 0x85 || n == 0xA0 || n == 0x1680 ||
    (0x2000 ≤ n && n ≤ 0x200A) || n == 0x2028 || n == 0x2029 || n == 0x202F || n == 0x205F ||
    n == 0x3000

def trimStart (text : List Char) : List Char :=
  text.dropWhile isBlank

def trimEnd (text : List Char) : List Char :=
  text.foldr (fun c rest => if rest.isEmpty && isBlank c then [] else c :: rest) []

/-- The text without the blank characters at either edge. -/
def trim (text : List Char) : List Char :=
  trimEnd (trimStart text)

theorem trimEnd_cons (c : Char) (rest : List Char) :
    trimEnd (c :: rest) =
      if (trimEnd rest).isEmpty && isBlank c then [] else c :: trimEnd rest := rfl

theorem trimEnd_cons_of_not_isBlank {c : Char} (hc : ¬ isBlank c) (rest : List Char) :
    trimEnd (c :: rest) = c :: trimEnd rest := by
  rw [trimEnd_cons, if_neg]
  exact fun h => hc (Bool.and_eq_true_iff.mp h).2

/-- Nothing is trimmed behind a character that is not blank. -/
theorem trimEnd_append_of_not_isBlank (text : List Char) {c : Char} (hc : ¬ isBlank c) :
    trimEnd (text ++ [c]) = text ++ [c] := by
  induction text with
  | nil => exact trimEnd_cons_of_not_isBlank hc []
  | cons d rest ih =>
    have hne : (rest ++ [c]).isEmpty = false := by
      cases rest <;> rfl
    rw [List.cons_append, trimEnd_cons, ih, hne]
    rfl

/-- What is cut off at the end is blank. -/
theorem exists_trimEnd (text : List Char) :
    ∃ after, text = trimEnd text ++ after ∧ ∀ c ∈ after, isBlank c := by
  induction text with
  | nil => exact ⟨[], rfl, List.forall_mem_nil _⟩
  | cons c rest ih =>
    obtain ⟨after, hrest, hafter⟩ := ih
    rw [trimEnd_cons]
    split
    next h =>
      obtain ⟨hnil, hc⟩ := Bool.and_eq_true_iff.mp h
      rw [List.isEmpty_iff.mp hnil] at hrest
      exact ⟨c :: rest, rfl, List.forall_mem_cons.mpr ⟨hc, hrest ▸ hafter⟩⟩
    next => exact ⟨after, congrArg (c :: ·) hrest, hafter⟩

theorem trimEnd_trimEnd (text : List Char) : trimEnd (trimEnd text) = trimEnd text := by
  induction text with
  | nil => rfl
  | cons c rest ih =>
    rw [trimEnd_cons]
    split
    next => rfl
    next h => rw [trimEnd_cons, ih, if_neg h]

/-- What is left behind blanks at the start is nothing or starts with another character. -/
theorem trimStart_cases (text : List Char) :
    trimStart text = [] ∨ ∃ c rest, ¬ isBlank c ∧ trimStart text = c :: rest := by
  induction text with
  | nil => exact Or.inl rfl
  | cons c rest ih =>
    by_cases hc : isBlank c
    · rw [trimStart, List.dropWhile_cons_of_pos hc]
      exact ih
    · exact Or.inr ⟨c, rest, hc, List.dropWhile_cons_of_neg hc⟩

/-- A text between characters that are not blank is trimmed already. -/
theorem trim_of_not_isBlank {first last : Char} (hfirst : ¬ isBlank first)
    (hlast : ¬ isBlank last) (text : List Char) :
    trim (first :: text ++ [last]) = first :: text ++ [last] := by
  rw [trim, trimStart, List.cons_append, List.dropWhile_cons_of_neg hfirst, ← List.cons_append]
  exact trimEnd_append_of_not_isBlank _ hlast

/-- A text is what is left of it between blank edges. -/
theorem exists_trim (text : List Char) :
    ∃ before after, text = before ++ trim text ++ after ∧ (∀ c ∈ before, isBlank c) ∧
      ∀ c ∈ after, isBlank c := by
  obtain ⟨after, htrim, hafter⟩ := exists_trimEnd (trimStart text)
  refine ⟨text.takeWhile isBlank, after, ?_, ?_, hafter⟩
  · rw [List.append_assoc, trim, ← htrim]
    exact (List.takeWhile_append_dropWhile).symm
  · exact fun c hc => List.all_eq_true.mp List.all_takeWhile c hc

theorem length_trim_le (text : List Char) : (trim text).length ≤ text.length := by
  obtain ⟨before, after, heq, _, _⟩ := exists_trim text
  have hlength := congrArg List.length heq
  rw [List.length_append, List.length_append] at hlength
  omega

/-- Trimming twice is trimming once. -/
theorem trim_trim (text : List Char) : trim (trim text) = trim text := by
  unfold trim
  rcases trimStart_cases text with hnil | ⟨c, rest, hc, hcons⟩
  · rw [hnil]
    rfl
  · rw [hcons, trimEnd_cons_of_not_isBlank hc, trimStart, List.dropWhile_cons_of_neg hc,
      trimEnd_cons_of_not_isBlank hc, trimEnd_trimEnd]

end Campaign.Text
