import Campaign.Proofs.Brace.Cuts
import Campaign.Proofs.Fold.RoundTrip

/-!
# Matching and splitting by positions

The pass that matches braces writes into an array, and the splitter and the unfolding cut slices out
of their text. With every access checked they find the same as without a check: each brace on the
stack has its entry, and each slice lies within its text.
-/

namespace Campaign

open Text Brace

namespace Brace

/-- One step of a pass; nothing when the brace that is closed has no entry. -/
def Pass.step? (p : Pass) (c : Char) : Option Pass :=
  if c = '}' then
    match p.waiting with
    | [] => some (p.step c)
    | start :: _ => if start < p.ends.size then some (p.step c) else none
  else some (p.step c)

/-- The ends of all groups, from a pass in which every entry is checked. -/
def closes? (text : List Char) : Option (List (Option Nat)) :=
  (text.foldlM Pass.step? (.start (byteLength text))).map fun p => p.ends.toList

section Pass

variable {p : Pass} {length : Nat} {before : List Char}

theorem Pass.Tracks.lt_byteLength (h : p.Tracks length before) {i : Nat} (hi : i ∈ p.waiting) :
    i < byteLength before := by
  obtain ⟨inner, hinner⟩ := List.mem_iff_getElem?.mp hi
  obtain ⟨rest, hfrom, _⟩ := (h.waiting_iff inner i).mp hinner
  have hlength := byteLength_of_fromByte?_open hfrom
  omega

/-- A step has an entry for every brace that it closes. -/
theorem Pass.Tracks.step?_eq (h : p.Tracks length before) (hle : byteLength before ≤ length)
    (c : Char) : p.step? c = some (p.step c) := by
  unfold Pass.step?
  split
  next =>
    split
    next => rfl
    next start _ hwaiting =>
      have hlt := h.lt_byteLength (hwaiting ▸ List.mem_cons_self)
      exact if_pos (h.size_eq ▸ Nat.lt_of_lt_of_le hlt hle)
  next => rfl

theorem Pass.Tracks.foldlM_step? (h : p.Tracks length before) (rest : List Char)
    (hlength : byteLength (before ++ rest) = length) :
    rest.foldlM Pass.step? p = some (rest.foldl Pass.step p) := by
  induction rest generalizing p before with
  | nil => rfl
  | cons c rest ih =>
      have hle : byteLength before ≤ length := by
        rw [← hlength, byteLength_append]
        exact Nat.le_add_right _ _
      rw [List.append_cons] at hlength
      rw [List.foldlM_cons, h.step?_eq hle]
      exact ih (h.step c) hlength

/-- The checked pass finds what the unchecked one finds, on every text. -/
theorem closes?_eq (text : List Char) : closes? text = some (closes text) := by
  have hfold := (Pass.tracks_start (byteLength text)).foldlM_step? text rfl
  rw [closes?, hfold]
  rfl

end Pass

/-- The spans of the pieces of a text that goes on at a position, the current piece having started
at another one and the braces before it having some balance. -/
def rangesFrom (balance : ℤ) (start position : Nat) : List Char → List Span
  | [] => [⟨start, position⟩]
  | c :: rest =>
    let after := position + c.utf8Size
    if balance = 0 && isSeparator c then ⟨start, position⟩ :: rangesFrom balance after after rest
    else rangesFrom (balance + weight c) start after rest

/-- The spans of the pieces of a text, found in one pass. -/
def ranges (text : List Char) : List Span := rangesFrom 0 0 0 text

/-- What has been read of the current piece is put in front of what is read on. -/
theorem rangesFrom_eq (balance : ℤ) (start : Nat) (before text : List Char) :
    rangesFrom balance start (start + byteLength before) text =
      ((splitFrom balance text).mapFirst (before ++ ·)).spans start := by
  induction text generalizing balance start before with
  | nil =>
      simp [splitFrom, rangesFrom, Pieces.single, Pieces.mapFirst, Pieces.spans, Pieces.laterSpans]
  | cons c rest ih =>
      rw [splitFrom, rangesFrom]
      split
      next =>
        have hlater := ih balance (start + byteLength before + c.utf8Size) []
        rw [byteLength_nil, Nat.add_zero] at hlater
        rw [hlater]
        simp [Pieces.cut, Pieces.mapFirst, Pieces.spans, Pieces.laterSpans]
      next =>
        have hlater := ih (balance + weight c) start (before ++ [c])
        rw [byteLength_append, ← Nat.add_assoc] at hlater
        rw [Pieces.mapFirst_mapFirst]
        simp only [List.append_assoc, List.singleton_append] at hlater
        exact hlater

/-- The spans that are found in one pass are those of the pieces. -/
theorem ranges_eq (text : List Char) : ranges text = (split text).spans 0 :=
  rangesFrom_eq 0 0 [] text

/-- The slices of a text that the splitter returns; nothing when one of them is not within it. -/
def pieces? (content : List Char) : Option (List (List Char)) :=
  (ranges content).mapM (slice? content)

/-- Every slice that the splitter returns is within its text. -/
theorem pieces?_eq (content : List Char) : pieces? content = some (split content).toList := by
  rw [pieces?, ranges_eq]
  exact mapM_slice? (cutsEvenly_split content).covers

end Brace

/-- The alternatives that a text holds, from slices; nothing when one of them is not within its
text. -/
def unfoldSlices? (text : List Char) : Option (List (List Char)) :=
  let trimmed := trim text
  if trimmed.isEmpty then some []
  else if isWrapped trimmed then do
    let inner ← slice? trimmed ⟨1, byteLength trimmed - 1⟩
    let pieces ← pieces? inner
    return (pieces.map trim).filter (!·.isEmpty)
  else some [trimmed]

/-- The text between the braces around a text is cut out by a slice. -/
theorem covers_of_isWrapped {text : List Char} (h : isWrapped text) :
    Span.Covers ⟨1, byteLength text - 1⟩ text text.tail.dropLast := by
  obtain ⟨content, _, rfl⟩ := isWrapped_iff.mp h
  have hinner : ('{' :: content.render ++ ['}']).tail.dropLast = content.render := by
    rw [List.cons_append, List.tail_cons, List.dropLast_concat]
  rw [hinner, byteLength_braces]
  refine ⟨['}'], fromByte?_eq_some_iff.mpr ⟨['{'], rfl, rfl⟩, ?_⟩
  rw [← Template.byteLength_eq]
  dsimp only
  omega

theorem unfoldSlices?_eq (text : List Char) : unfoldSlices? text = some (unfold text) := by
  unfold unfoldSlices? unfold
  dsimp only
  split
  next => rfl
  next =>
    split
    next hwrapped =>
      rw [slice?_eq_some_iff.mpr (covers_of_isWrapped hwrapped)]
      dsimp only [bind, Option.bind_some]
      rw [pieces?_eq]
      rfl
    next => rfl

end Campaign
