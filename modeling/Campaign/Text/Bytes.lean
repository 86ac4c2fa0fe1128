/-!
# Byte positions

A text is a list of characters, and positions in it count the bytes of its UTF-8 form. A position
inside a character is a position of no text.
-/

namespace Campaign.Text

/-- The number of bytes in the UTF-8 form of a text. -/
def byteLength : List Char → Nat
  | [] => 0
  | c :: rest => c.utf8Size + byteLength rest

/-- The text from a byte position on; nothing when the position is past the end or inside a
character. -/
def fromByte? : List Char → Nat → Option (List Char)
  | text, 0 => some text
  | [], _ + 1 => none
  | c :: rest, n + 1 => if c.utf8Size ≤ n + 1 then fromByte? rest (n + 1 - c.utf8Size) else none

/-- The character that starts at a byte position. -/
def charAt? (text : List Char) (n : Nat) : Option Char := (fromByte? text n).bind List.head?

@[simp] theorem byteLength_nil : byteLength [] = 0 := rfl

@[simp] theorem byteLength_cons (c : Char) (rest : List Char) :
    byteLength (c :: rest) = c.utf8Size + byteLength rest := rfl

/-- Texts one after the other take up the bytes of both. -/
@[simp] theorem byteLength_append (a b : List Char) :
    byteLength (a ++ b) = byteLength a + byteLength b := by
  induction a with
  | nil => simp
  | cons c rest ih => simp [ih, Nat.add_assoc]

@[simp] theorem fromByte?_zero (text : List Char) : fromByte? text 0 = some text := by
  cases text <;> rfl

/-- Positions after a first part are positions of what follows it. -/
theorem fromByte?_append (a b : List Char) (n : Nat) :
    fromByte? (a ++ b) (byteLength a + n) = fromByte? b n := by
  induction a with
  | nil => simp
  | cons c rest ih =>
      have hpos := c.utf8Size_pos
      obtain ⟨m, hm⟩ : ∃ m, byteLength (c :: rest) + n = m + 1 :=
        ⟨byteLength (c :: rest) + n - 1, by simp; omega⟩
      have hle : c.utf8Size ≤ m + 1 := by rw [← hm, byteLength_cons]; omega
      have hrest : m + 1 - c.utf8Size = byteLength rest + n := by
        rw [← hm, byteLength_cons]
        omega
      rw [List.cons_append, hm, fromByte?, if_pos hle, hrest, ih]

/-- A position of a text cuts it in two. -/
theorem fromByte?_eq_some_iff {text rest : List Char} {n : Nat} :
    fromByte? text n = some rest ↔ ∃ before, text = before ++ rest ∧ byteLength before = n := by
  constructor
  · intro h
    induction text generalizing n with
    | nil =>
        cases n with
        | zero => exact ⟨[], Option.some.inj h, rfl⟩
        | succ n => cases h
    | cons c after ih =>
        cases n with
        | zero => exact ⟨[], Option.some.inj h, rfl⟩
        | succ n =>
            rw [fromByte?] at h
            split at h
            next hle =>
              obtain ⟨before, rfl, hbefore⟩ := ih h
              refine ⟨c :: before, rfl, ?_⟩
              rw [byteLength_cons, hbefore]
              omega
            next => cases h
  · rintro ⟨before, rfl, rfl⟩
    exact (fromByte?_append before rest 0).trans (fromByte?_zero rest)

/-- Behind a part of what stands at a byte stands the rest of it. -/
theorem fromByte?_add {text a b : List Char} {n : Nat} (h : fromByte? text n = some (a ++ b)) :
    fromByte? text (n + byteLength a) = some b := by
  obtain ⟨before, rfl, rfl⟩ := fromByte?_eq_some_iff.mp h
  refine fromByte?_eq_some_iff.mpr ⟨before ++ a, ?_, byteLength_append before a⟩
  rw [List.append_assoc]

/-- A character is found at a byte where the text goes on with it. -/
theorem charAt?_eq_some_iff {text : List Char} {n : Nat} {c : Char} :
    charAt? text n = some c ↔ ∃ rest, fromByte? text n = some (c :: rest) := by
  rw [charAt?, Option.bind_eq_some_iff]
  constructor
  · rintro ⟨rest, hfrom, hhead⟩
    obtain ⟨after, rfl⟩ := List.head?_eq_some_iff.mp hhead
    exact ⟨after, hfrom⟩
  · rintro ⟨rest, hfrom⟩
    exact ⟨c :: rest, hfrom, rfl⟩

/-- No text starts inside a character. -/
theorem fromByte?_inside {c : Char} {n : Nat} (hpos : 0 < n) (hlt : n < c.utf8Size)
    (rest : List Char) : fromByte? (c :: rest) n = none := by
  obtain ⟨m, rfl⟩ : ∃ m, n = m + 1 := ⟨n - 1, by omega⟩
  rw [fromByte?, if_neg (by omega)]

end Campaign.Text
