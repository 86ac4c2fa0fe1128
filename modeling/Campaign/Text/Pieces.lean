/-!
# Pieces between separators

What stands between the separators of a text, together with the separators themselves. There is
always a first piece, and each further piece keeps the separator before it, so joining the pieces
gives the text back.
-/

namespace Campaign

/-- A first piece and, for each separator, the separator and the piece after it. -/
structure Pieces (α : Type) where
  first : α
  /-- Each separator with what follows it. -/
  others : List (Char × α)
  deriving Repr, DecidableEq

namespace Pieces

variable {α β : Type}

/-- One piece and no separator. -/
def single (a : α) : Pieces α := ⟨a, []⟩

/-- A new first piece, cut off from the others by a separator. -/
def cut (a : α) (separator : Char) (p : Pieces α) : Pieces α :=
  ⟨a, (separator, p.first) :: p.others⟩

/-- Changes the first piece alone. -/
def mapFirst (f : α → α) (p : Pieces α) : Pieces α := ⟨f p.first, p.others⟩

def map (f : α → β) (p : Pieces α) : Pieces β :=
  ⟨f p.first, p.others.map fun (separator, a) => (separator, f a)⟩

/-- The pieces in order, without the separators. -/
def toList (p : Pieces α) : List α := p.first :: p.others.map Prod.snd

def separators (p : Pieces α) : List Char := p.others.map Prod.fst

/-- The text that the pieces were cut from. -/
def join (p : Pieces (List Char)) : List Char :=
  p.first ++ p.others.flatMap fun (separator, a) => separator :: a

@[simp] theorem toList_single (a : α) : (single a).toList = [a] := rfl

@[simp] theorem toList_cut (a : α) (separator : Char) (p : Pieces α) :
    (p.cut a separator).toList = a :: p.toList := rfl

/-- There is at least one piece. -/
theorem toList_ne_nil (p : Pieces α) : p.toList ≠ [] := by simp [toList]

theorem first_mem_toList (p : Pieces α) : p.first ∈ p.toList := List.mem_cons_self

/-- Only the first piece is changed. -/
theorem mem_toList_of_mem_mapFirst {f : α → α} {p : Pieces α} {a : α}
    (ha : a ∈ (p.mapFirst f).toList) : a = f p.first ∨ a ∈ p.toList :=
  (List.mem_cons.mp ha).imp_right (List.mem_cons_of_mem _)

@[simp] theorem toList_map (f : α → β) (p : Pieces α) : (p.map f).toList = p.toList.map f := by
  simp [toList, map]

@[simp] theorem map_single (f : α → β) (a : α) : (single a).map f = single (f a) := rfl

@[simp] theorem map_cut (f : α → β) (a : α) (separator : Char) (p : Pieces α) :
    (p.cut a separator).map f = (p.map f).cut (f a) separator := rfl

/-- Changing the first piece commutes with a change of every piece. -/
theorem map_mapFirst {f : α → β} {g : α → α} {g' : β → β} (h : ∀ a, f (g a) = g' (f a))
    (p : Pieces α) : (p.mapFirst g).map f = (p.map f).mapFirst g' := by
  simp [map, mapFirst, h]

@[simp] theorem join_single (a : List Char) : (single a).join = a := by simp [single, join]

@[simp] theorem join_cut (a : List Char) (separator : Char) (p : Pieces (List Char)) :
    (p.cut a separator).join = a ++ separator :: p.join := by simp [cut, join]

/-- What is put in front of the first piece is in front of the whole. -/
@[simp] theorem join_mapFirst_append (a : List Char) (p : Pieces (List Char)) :
    (p.mapFirst (a ++ ·)).join = a ++ p.join := by simp [mapFirst, join]

@[simp] theorem join_mapFirst_cons (c : Char) (p : Pieces (List Char)) :
    (p.mapFirst (c :: ·)).join = c :: p.join := by simp [mapFirst, join]

end Pieces

end Campaign
