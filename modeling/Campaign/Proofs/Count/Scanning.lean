import Campaign.Proofs.Brace.Matching
import Campaign.Proofs.Count.Variations
import Campaign.Proofs.Template.Splitting

/-!
# Counting on the text alone

The number of variations can be told without a template: scan the text for matched braces, split
what is between the two, count every piece in the same way, add up, and multiply. Each piece is
scanned and split anew. That the counter agrees needs that matching and splitting inside a group
find what they find in the whole text.
-/

namespace Campaign

open Text Brace

namespace Text

/-- The characters of a text that end by a byte position. -/
def beforeByte : List Char → Nat → List Char
  | [], _ => []
  | c :: rest, n => if c.utf8Size ≤ n then c :: beforeByte rest (n - c.utf8Size) else []

theorem length_beforeByte_le (text : List Char) (n : Nat) :
    (beforeByte text n).length ≤ text.length := by
  induction text generalizing n with
  | nil => exact Nat.le_refl _
  | cons c rest ih =>
      rw [beforeByte]
      split
      · exact Nat.succ_le_succ (ih _)
      · exact Nat.zero_le _

theorem beforeByte_append (a b : List Char) : beforeByte (a ++ b) (byteLength a) = a := by
  induction a with
  | nil =>
      cases b with
      | nil => rfl
      | cons c b => exact if_neg (Nat.not_le.mpr c.utf8Size_pos)
  | cons c rest ih =>
      rw [List.cons_append, beforeByte, byteLength_cons, if_pos (Nat.le_add_right _ _),
        Nat.add_sub_cancel_left, ih]

end Text

namespace Brace

theorem length_le_of_mem_splitFrom {balance : Int} {text piece : List Char}
    (h : piece ∈ (splitFrom balance text).toList) : piece.length ≤ text.length := by
  induction text generalizing balance piece with
  | nil => exact Nat.le_of_eq (congrArg List.length (List.mem_singleton.mp h))
  | cons c rest ih =>
      rw [splitFrom] at h
      split at h
      next =>
        rcases List.mem_cons.mp h with rfl | h
        · exact Nat.zero_le _
        · exact Nat.le_succ_of_le (ih h)
      next =>
        rcases Pieces.mem_toList_of_mem_mapFirst h with rfl | h
        · exact Nat.succ_le_succ (ih (Pieces.first_mem_toList _))
        · exact Nat.le_succ_of_le (ih h)

end Brace

/-- The number of variations of a text by a scan from the left: a brace that is matched counts for
the pieces between it and its partner together, and the scan goes on after the partner. -/
def textVariations : List Char → Nat
  | [] => 1
  | c :: rest =>
    match findClose? (c :: rest) 0 with
    | none => textVariations rest
    | some stop =>
      let inner := beforeByte rest (stop - 2)
      ((split inner).toList.attach.map fun ⟨piece, _⟩ => textVariations piece).sum *
        textVariations (rest.drop (inner.length + 1))
termination_by text => text.length
decreasing_by
  · exact Nat.lt_succ_self _
  · next hpiece =>
      have hinner := length_beforeByte_le rest (stop - 2)
      exact Nat.lt_succ_of_le (Nat.le_trans (length_le_of_mem_splitFrom hpiece) hinner)
  · rw [List.length_drop, List.length_cons]
    omega

theorem textVariations_of_none {c : Char} {rest : List Char}
    (h : findClose? (c :: rest) 0 = none) : textVariations (c :: rest) = textVariations rest := by
  rw [textVariations, h]

/-- A matched brace counts its pieces together, times what follows its partner. -/
theorem textVariations_of_some {c : Char} {rest : List Char} {stop : Nat}
    (h : findClose? (c :: rest) 0 = some stop) :
    textVariations (c :: rest) =
      ((split (beforeByte rest (stop - 2))).toList.map textVariations).sum *
        textVariations (rest.drop ((beforeByte rest (stop - 2)).length + 1)) := by
  rw [textVariations, h]
  dsimp only
  rw [List.attach_map_val (f := textVariations)]

namespace Template

/-- A character that belongs to no group opens none. -/
theorem Canonical.findClose?_char {c : Char} {rest : Template} (h : (char c rest).Canonical) :
    findClose? (c :: rest.render) 0 = none := by
  by_cases hopen : c = '{'
  · rw [hopen, findClose?_zero_open, (h.1 hopen).closeWithin?_eq_none]
    rfl
  · exact findClose?_zero_of_ne hopen rest.render

/-- The scan from the brace that opens a group finds the end of the group. -/
theorem Balanced.findClose?_group {content : Template} (h : content.Balanced) (rest : List Char) :
    findClose? ('{' :: (content.render ++ '}' :: rest)) 0 = some (content.byteLength + 2) := by
  rw [findClose?_zero_open, h.closeWithin?_close, Option.map_some]
  congr 1
  omega

/-- The scan of a template's text counts its expansions. -/
theorem Canonical.textVariations_render {t : Template} (h : t.Canonical) :
    textVariations t.render = t.allExpansions.length := by
  induction t using allExpansions.induct with
  | case1 => rw [render, textVariations, allExpansions_empty]; rfl
  | case2 c rest ih =>
      rw [render, textVariations_of_none h.findClose?_char, ih h.2, length_allExpansions_char]
  | case3 content rest ihcontent ihrest =>
      have hinner : beforeByte (content.render ++ '}' :: rest.render) content.byteLength =
          content.render := by
        rw [byteLength_eq, beforeByte_append]
      have hafter : (content.render ++ '}' :: rest.render).drop (content.render.length + 1) =
          rest.render := by
        rw [List.drop_append]
        simp
      have hpieces : (content.alternatives.toList.map render).map textVariations =
          content.alternatives.toList.map fun a => a.allExpansions.length := by
        rw [List.map_map]
        apply List.map_congr_left
        intro a ha
        -- An alternative of a balanced content is balanced, so it is scanned like a whole text.
        exact ihcontent a ha (h.1.of_mem_alternatives ha).canonical
      rw [render, List.cons_append, textVariations_of_some (h.1.findClose?_group rest.render),
        Nat.add_sub_cancel, hinner, hafter, h.1.split_render, Pieces.toList_map, hpieces,
        ihrest h.2, length_allExpansions_group]

end Template

/-- The counter holds what the scan of the text counts, clamped once, and holds one for a text that
nests too deep. It is never zero and never wraps. -/
theorem countVariations_eq_textVariations (text : List Char) :
    (countVariations text = match Template.parse text with
      | .ok _ => min (textVariations text) wordMax
      | .error _ => 1) ∧
    0 < countVariations text ∧ countVariations text ≤ wordMax := by
  have hpos : 0 < (enumeration text).length := by
    rw [enumeration]
    split
    next t _ => exact t.length_allExpansions_pos
    next => exact Nat.one_pos
  rw [countVariations_eq_clamp]
  refine ⟨?_, clamp_pos hpos, Nat.min_le_right _ _⟩
  cases hparse : Template.parse text with
  | ok t =>
      have hcount := (Template.canonical_of_parse hparse).textVariations_render
      rw [Template.render_of_parse hparse] at hcount
      rw [enumeration_of_ok hparse, hcount]
      rfl
  | error e =>
      rw [enumeration_of_error hparse]
      rfl

end Campaign
