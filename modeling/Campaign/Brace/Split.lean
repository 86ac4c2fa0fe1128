import Campaign.Text.Pieces

/-!
# Splitting at the top level

A separator cuts a text where as many braces have opened as have closed before it. The balance is
signed: a closing brace with nothing open takes it below zero, and no separator cuts until a later
opening brace brings it back.
-/

namespace Campaign.Brace

/-- The characters that separate the alternatives of a group. -/
def isSeparator (c : Char) : Bool := c == '|' || c == '/'

theorem utf8Size_of_isSeparator {c : Char} (h : isSeparator c) : c.utf8Size = 1 := by
  rcases Bool.or_eq_true_iff.mp h with h | h <;> rw [beq_iff_eq.mp h] <;> rfl

/-- How a character changes the number of open braces. -/
def weight (c : Char) : Int := if c = '{' then 1 else if c = '}' then -1 else 0

/-- Cuts at the separators that stand where the balance is zero, starting from a given balance. -/
def splitFrom (balance : Int) : List Char → Pieces (List Char)
  | [] => .single []
  | c :: rest =>
    if balance = 0 && isSeparator c then (splitFrom balance rest).cut [] c
    else (splitFrom (balance + weight c) rest).mapFirst (c :: ·)

/-- The pieces of a text between its top-level separators. -/
def split (text : List Char) : Pieces (List Char) := splitFrom 0 text

/-- The pieces as written and the separators between them give the text back. -/
theorem join_splitFrom (balance : Int) (text : List Char) :
    (splitFrom balance text).join = text := by
  induction text generalizing balance with
  | nil => rfl
  | cons c rest ih =>
    rw [splitFrom]
    split
    · simp [ih]
    · simp [ih]

/-- The pieces of a text and the separators between them are the text. -/
theorem join_split (text : List Char) : (split text).join = text := join_splitFrom 0 text

end Campaign.Brace
