import Campaign.Proofs.Template.Sections

/-!
# Splitting a balanced text

In a balanced text the signed count of braces is zero exactly outside all groups. Splitting such a
text at the separators that stand there gives the alternatives of the template that it renders.
-/

namespace Campaign

open Brace

theorem Pieces.mapFirst_mapFirst {α : Type} (f g : α → α) (p : Pieces α) :
    (p.mapFirst f).mapFirst g = p.mapFirst fun a => g (f a) := rfl

theorem Pieces.mapFirst_cut {α : Type} (f : α → α) (a : α) (separator : Char) (p : Pieces α) :
    (p.cut a separator).mapFirst f = p.cut (f a) separator := rfl

namespace Brace

/-- An opening brace never cuts, and from behind it the balance is one more. -/
theorem splitFrom_open (balance : Int) (rest : List Char) :
    splitFrom balance ('{' :: rest) = (splitFrom (balance + 1) rest).mapFirst ('{' :: ·) := by
  have hcut : (decide (balance = 0) && isSeparator '{') = false := Bool.and_false _
  rw [splitFrom, hcut]
  rfl

/-- A closing brace never cuts either, and takes the balance back. -/
theorem splitFrom_close (balance : Int) (rest : List Char) :
    splitFrom (balance + 1) ('}' :: rest) = (splitFrom balance rest).mapFirst ('}' :: ·) := by
  have hcut : (decide (balance + 1 = 0) && isSeparator '}') = false := Bool.and_false _
  have hweight : balance + 1 + weight '}' = balance := Int.add_neg_cancel_right balance 1
  rw [splitFrom, hcut, hweight]
  rfl

theorem weight_of_ordinary {c : Char} (hopen : c ≠ '{') (hclose : c ≠ '}') : weight c = 0 := by
  rw [weight, if_neg hopen, if_neg hclose]

end Brace

namespace Template

/-- Inside a group nothing cuts a balanced text, and the depth behind it is that before it. -/
theorem Balanced.splitFrom_append {t : Template} (h : t.Balanced) {balance : Int}
    (hbalance : 0 < balance) (rest : List Char) :
    splitFrom balance (t.render ++ rest) = (splitFrom balance rest).mapFirst (t.render ++ ·) := by
  induction t generalizing balance rest with
  | empty => rfl
  | char c after ih =>
      have hcut : (decide (balance = 0) && isSeparator c) = false := by
        rw [decide_eq_false (by omega), Bool.false_and]
      rw [render, List.cons_append, splitFrom, hcut, weight_of_ordinary h.1 h.2.1, Int.add_zero,
        ih h.2.2 hbalance]
      rfl
  | group content after ihcontent ihafter =>
      rw [render, List.cons_append, List.cons_append, List.append_assoc, List.cons_append,
        splitFrom_open, ihcontent h.1 (by omega), splitFrom_close,
        ihafter h.2 hbalance]
      simp [Pieces.mapFirst_mapFirst]

/-- A group goes whole into the first piece. -/
theorem Balanced.splitFrom_group {content : Template} (h : content.Balanced) (rest : List Char) :
    splitFrom 0 ('{' :: content.render ++ '}' :: rest) =
      (splitFrom 0 rest).mapFirst ('{' :: content.render ++ ['}'] ++ ·) := by
  rw [List.cons_append, splitFrom_open, h.splitFrom_append (by decide),
    splitFrom_close]
  simp [Pieces.mapFirst_mapFirst]

/-- The pieces of a balanced text are the texts of its alternatives. -/
theorem Balanced.split_render {t : Template} (h : t.Balanced) :
    split t.render = t.alternatives.map render := by
  unfold split
  induction t with
  | empty => rfl
  | char c rest ih =>
      rw [render, splitFrom, weight_of_ordinary h.1 h.2.1, Int.add_zero, ih h.2.2, alternatives]
      by_cases hc : isSeparator c
      · simp [hc, render]
      · simp [hc, map_render_mapFirst_char]
  | group content rest _ ih =>
      rw [render, h.1.splitFrom_group, ih h.2, alternatives, map_render_mapFirst_group]

end Template

end Campaign
