import Campaign.Proofs.Brace.Grammar
import Campaign.Proofs.Template.Enclosed
import Campaign.Proofs.Template.Splitting
import Campaign.Proofs.Text.Slices

/-!
# Where a text is cut

A text is cut into pieces at its separators with as many opening as closing braces before them, and
nowhere else, whether its braces match or not. Inside a group the braces before a separator are even
exactly when the separator is outside the groups of the content. So the pieces there are texts whose
braces match among themselves, and cutting them again does nothing.
-/

namespace Campaign

open Text Brace Template

namespace Pieces

/-- Pieces are one piece, or a piece cut off in front of others. -/
@[elab_as_elim]
theorem induction_cut {α : Type} {motive : Pieces α → Prop}
    (single : ∀ piece, motive (single piece))
    (cut : ∀ piece separator p, motive p → motive (p.cut piece separator)) (p : Pieces α) :
    motive p := by
  obtain ⟨first, others⟩ := p
  induction others generalizing first with
  | nil => exact single first
  | cons next others ih => exact cut first next.1 ⟨next.2, others⟩ (ih next.2)

/-- The spans of further pieces, the first of them behind a separator that stands at a byte. -/
def laterSpans (stop : Nat) : List (Char × List Char) → List Span
  | [] => []
  | (separator, next) :: others =>
    let start := stop + separator.utf8Size
    ⟨start, start + byteLength next⟩ :: laterSpans (start + byteLength next) others

/-- The spans of pieces whose text stands at a byte position. -/
def spans (position : Nat) (p : Pieces (List Char)) : List Span :=
  ⟨position, position + byteLength p.first⟩ :: laterSpans (position + byteLength p.first) p.others

/-- Where the separators stand: every piece but the last ends on the one behind it. -/
def cuts (position : Nat) (p : Pieces (List Char)) : List Nat :=
  (p.spans position).dropLast.map Span.stop

section Cuts

variable {position : Nat} {p : Pieces (List Char)}

theorem spans_single (position : Nat) (piece : List Char) :
    (single piece).spans position = [⟨position, position + byteLength piece⟩] := rfl

theorem spans_cut (position : Nat) (piece : List Char) (separator : Char)
    (p : Pieces (List Char)) :
    (p.cut piece separator).spans position =
      ⟨position, position + byteLength piece⟩ ::
        p.spans (position + byteLength piece + separator.utf8Size) := rfl

theorem cuts_single (position : Nat) (piece : List Char) : (single piece).cuts position = [] := rfl

theorem cuts_cut (position : Nat) (piece : List Char) (separator : Char)
    (p : Pieces (List Char)) :
    (p.cut piece separator).cuts position =
      (position + byteLength piece) ::
        p.cuts (position + byteLength piece + separator.utf8Size) := rfl

/-- A text in front of the first piece moves every cut by its bytes. -/
theorem cuts_mapFirst_append (position : Nat) (before : List Char) (p : Pieces (List Char)) :
    (p.mapFirst (before ++ ·)).cuts position = p.cuts (position + byteLength before) := by
  cases p using induction_cut with
  | single piece => rfl
  | cut piece separator p =>
      have hcut := cuts_cut position (before ++ piece) separator p
      rw [byteLength_append, ← Nat.add_assoc] at hcut
      exact hcut.trans (cuts_cut _ piece separator p).symm

theorem cuts_mapFirst_cons (position : Nat) (c : Char) (p : Pieces (List Char)) :
    (p.mapFirst (c :: ·)).cuts position = p.cuts (position + c.utf8Size) :=
  cuts_mapFirst_append position [c] p

theorem le_of_mem_cuts {cut : Nat} (h : cut ∈ p.cuts position) : position ≤ cut := by
  induction p using induction_cut generalizing position with
  | single piece => cases h
  | cut piece separator p ih =>
      rw [cuts_cut] at h
      rcases List.mem_cons.mp h with rfl | h
      · exact Nat.le_add_right _ _
      · have hle := ih h
        omega

/-- Cuts stand in order and none twice. -/
theorem pairwise_cuts (position : Nat) (p : Pieces (List Char)) :
    (p.cuts position).Pairwise (· < ·) := by
  induction p using induction_cut generalizing position with
  | single piece => exact List.Pairwise.nil
  | cut piece separator p ih =>
      rw [cuts_cut]
      refine List.pairwise_cons.mpr ⟨?_, ih _⟩
      intro cut hcut
      have hle := le_of_mem_cuts hcut
      have hpos := separator.utf8Size_pos
      omega

section Stands

variable {text after : List Char}

/-- The spans of pieces that stand in a text cover them there. -/
theorem forall₂_covers (h : fromByte? text position = some (p.join ++ after)) :
    List.Forall₂ (Span.Covers · text ·) (p.spans position) p.toList := by
  induction p using induction_cut generalizing position with
  | single piece =>
      rw [join_single] at h
      exact .cons ⟨after, h, rfl⟩ .nil
  | cut piece separator p ih =>
      rw [join_cut, List.append_assoc] at h
      exact .cons ⟨_, h, rfl⟩ (ih (fromByte?_add (a := [separator]) (fromByte?_add h)))

/-- The separators of pieces that stand in a text are found there between them. -/
theorem map_charAt?_cuts (h : fromByte? text position = some (p.join ++ after)) :
    (p.cuts position).map (charAt? text) = p.separators.map some := by
  induction p using induction_cut generalizing position with
  | single piece => rfl
  | cut piece separator p ih =>
      rw [join_cut, List.append_assoc] at h
      have hseparator := fromByte?_add h
      have hchar := charAt?_eq_some_iff.mpr ⟨_, hseparator⟩
      rw [cuts_cut]
      exact congrArg₂ List.cons hchar (ih (fromByte?_add (a := [separator]) hseparator))

end Stands

end Cuts

end Pieces

namespace Brace

/-- How many more braces open than close in a text. -/
def excess (text : List Char) : ℤ := text.count '{' - text.count '}'

theorem excess_cons (c : Char) (text : List Char) :
    excess (c :: text) = weight c + excess text := by
  unfold excess weight
  rw [List.count_cons, List.count_cons]
  by_cases hopen : c = '{'
  · subst hopen
    simp
    omega
  · by_cases hclose : c = '}'
    · subst hclose
      simp
      omega
    · simp [hopen, hclose]

/-- A separator stands at a byte position where the balance is zero, in a text that stands at a
position itself and has a balance before it. -/
def CutsAt (balance : ℤ) (position : Nat) (text : List Char) (cut : Nat) : Prop :=
  ∃ before c after, text = before ++ c :: after ∧ cut = position + Text.byteLength before ∧
    isSeparator c ∧ balance + excess before = 0

section CutsAt

variable {balance : ℤ} {position cut : Nat}

theorem not_cutsAt_nil : ¬ CutsAt balance position [] cut := by
  rintro ⟨before, c, after, htext, _⟩
  cases before <;> cases htext

/-- A text is cut at its first character, or behind it with that character's weight in the balance.
-/
theorem cutsAt_cons {c : Char} {rest : List Char} :
    CutsAt balance position (c :: rest) cut ↔
      (cut = position ∧ isSeparator c ∧ balance = 0) ∨
        CutsAt (balance + weight c) (position + c.utf8Size) rest cut := by
  constructor
  · rintro ⟨before, d, after, htext, rfl, hd, hbalance⟩
    cases before with
    | nil =>
        cases htext
        rw [excess, List.count_nil, List.count_nil] at hbalance
        exact Or.inl ⟨rfl, hd, by omega⟩
    | cons _ before =>
        cases htext
        rw [excess_cons, ← Int.add_assoc] at hbalance
        exact Or.inr ⟨before, d, after, rfl, by rw [byteLength_cons, Nat.add_assoc], hd, hbalance⟩
  · rintro (⟨rfl, hc, rfl⟩ | ⟨before, d, after, rfl, rfl, hd, hbalance⟩)
    · exact ⟨[], c, rest, rfl, rfl, hc, rfl⟩
    · refine ⟨c :: before, d, after, rfl, by rw [byteLength_cons, Nat.add_assoc], hd, ?_⟩
      rw [excess_cons, ← Int.add_assoc, hbalance]

theorem weight_of_isSeparator {c : Char} (h : isSeparator c) : weight c = 0 := by
  have hbrace := not_or.mp (not_brace_of_isSeparator h)
  exact weight_of_ordinary hbrace.1 hbrace.2

/-- The splitter cuts at the separators where the balance is zero. -/
theorem mem_cuts_splitFrom {text : List Char} :
    cut ∈ (splitFrom balance text).cuts position ↔ CutsAt balance position text cut := by
  -- On the text that is left: what has been read counts by its balance and its length only.
  induction text generalizing balance position with
  | nil => exact iff_of_false List.not_mem_nil not_cutsAt_nil
  | cons c rest ih =>
      rw [cutsAt_cons, splitFrom]
      split
      next h =>
        obtain ⟨hbalance, hc⟩ := Bool.and_eq_true_iff.mp h
        rw [Pieces.cuts_cut, List.mem_cons, ih, weight_of_isSeparator hc, Int.add_zero]
        exact or_congr_left (and_iff_left ⟨hc, of_decide_eq_true hbalance⟩).symm
      next h =>
        rw [Pieces.cuts_mapFirst_cons, ih]
        refine (or_iff_right ?_).symm
        rintro ⟨_, hc, hbalance⟩
        exact h (Bool.and_eq_true_iff.mpr ⟨decide_eq_true hbalance, hc⟩)

end CutsAt

end Brace

namespace Template

/-- The alternatives of a content are cut at its separators outside all groups. -/
theorem mem_cuts_alternatives {t : Template} {position cut : Nat} :
    cut ∈ (t.alternatives.map render).cuts position ↔
      ∃ c, (cut, c) ∈ t.literals position ∧ isSeparator c := by
  -- A separator inside a group cuts only the content of this group, so groups are passed over.
  induction t generalizing position with
  | empty => simp [alternatives, literals, Pieces.cuts_single]
  | char c rest ih =>
      rw [alternatives, literals]
      split
      next hc =>
        rw [Pieces.map_cut, Pieces.cuts_cut, List.mem_cons, render, byteLength_nil, Nat.add_zero,
          ih]
        constructor
        · rintro (rfl | ⟨d, hd, hseparator⟩)
          · exact ⟨c, List.mem_cons_self, hc⟩
          · exact ⟨d, List.mem_cons_of_mem _ hd, hseparator⟩
        · rintro ⟨d, hd, hseparator⟩
          rcases List.mem_cons.mp hd with heq | hd
          · exact Or.inl (Prod.mk.inj heq).1
          · exact Or.inr ⟨d, hd, hseparator⟩
      next hc =>
        rw [map_render_mapFirst_char, Pieces.cuts_mapFirst_cons, ih]
        refine exists_congr fun d => and_congr_left fun hseparator => ?_
        rw [List.mem_cons, or_iff_right]
        intro heq
        obtain ⟨_, rfl⟩ := Prod.mk.inj heq
        exact hc hseparator
  | group content rest _ ih =>
      rw [alternatives, map_render_mapFirst_group, Pieces.cuts_mapFirst_append, byteLength_braces,
        ← Nat.add_assoc, ih, literals]

/-- An enclosed template is its own only alternative. -/
theorem Enclosed.alternatives_eq {t : Template} (h : t.Enclosed) :
    t.alternatives = .single t := by
  have halone := h.alternatives_append empty
  rw [append_empty] at halone
  rw [halone, alternatives]
  exact congrArg Pieces.single t.append_empty

/-- The outermost separators of a text are the literal characters of its template that separate. -/
theorem exists_mem_literals_iff {text : List Char} {i : Nat} :
    (∃ c, (i, c) ∈ (ofText text).literals 0 ∧ isSeparator c) ↔
      ∃ c, charAt? text i = some c ∧ isSeparator c ∧ Outside text i := by
  constructor
  · rintro ⟨c, hliteral, hc⟩
    have hplaced := literals_subset _ _ hliteral
    rw [render_ofText] at hplaced
    exact ⟨c, mem_placed_zero.mp hplaced, hc,
      fun start stop hclose => not_inside_of_mem_literals hliteral hclose⟩
  · rintro ⟨c, hchar, hc, hout⟩
    exact ⟨c, mem_literals_of_forall (mem_placed_zero.mpr hchar) hout, hc⟩

end Template

/-- Pieces with the separators between them make up a content, which is cut at the separators with
as many opening as closing braces before them. -/
structure CutsEvenly (content : List Char) (p : Pieces (List Char)) : Prop where
  ne_nil : p.toList ≠ []
  join_eq : p.join = content
  covers : List.Forall₂ (Span.Covers · content ·) (p.spans 0) p.toList
  separators_eq : (p.cuts 0).map (charAt? content) = p.separators.map some
  ascending : (p.cuts 0).Pairwise (· < ·)
  mem_cuts_iff : ∀ cut, cut ∈ p.cuts 0 ↔
    ∃ before c after, content = before ++ c :: after ∧ Text.byteLength before = cut ∧
      isSeparator c ∧ (before.count '{' : ℤ) - before.count '}' = 0

/-- All braces of each piece are matched in it, so it is not cut again, and the content is cut at
the separators outside all its groups. -/
structure CutsOutside (content : List Char) (p : Pieces (List Char)) : Prop where
  matched : ∀ piece ∈ p.toList, ∀ position c, charAt? piece position = some c →
    ¬ Loose piece position c
  split_eq : ∀ piece ∈ p.toList, split piece = .single piece
  mem_cuts_iff : ∀ cut, cut ∈ p.cuts 0 ↔
    ∃ c, charAt? content cut = some c ∧ isSeparator c ∧ Outside content cut

/-- Splitting cuts every content at its separators of balance zero, and nothing is lost. -/
theorem cutsEvenly_split (content : List Char) : CutsEvenly content (split content) := by
  have hfrom : fromByte? content 0 = some ((split content).join ++ []) := by
    rw [join_split, List.append_nil, fromByte?_zero]
  refine ⟨Pieces.toList_ne_nil _, join_split content, Pieces.forall₂_covers hfrom,
    Pieces.map_charAt?_cuts hfrom, Pieces.pairwise_cuts 0 _, ?_⟩
  intro cut
  rw [split, mem_cuts_splitFrom, CutsAt]
  simp only [Nat.zero_add, Int.zero_add, excess, eq_comm]

/-- The pieces of a balanced text are balanced, and none of them would be cut again. -/
theorem Template.Balanced.cutsOutside_split {t : Template} (h : t.Balanced) :
    CutsOutside t.render (split t.render) := by
  have hpiece : ∀ piece ∈ (split t.render).toList,
      ∃ a : Template, a.Enclosed ∧ a.render = piece := by
    intro piece hpiece
    rw [h.split_render, Pieces.toList_map] at hpiece
    obtain ⟨a, ha, rfl⟩ := List.mem_map.mp hpiece
    exact ⟨a, (part_of_mem_alternatives ha).enclosed h, rfl⟩
  refine ⟨?_, ?_, ?_⟩
  · intro piece hmem
    obtain ⟨a, ha, rfl⟩ := hpiece piece hmem
    exact ha.selfContained_render.matched
  · intro piece hmem
    obtain ⟨a, ha, rfl⟩ := hpiece piece hmem
    rw [ha.balanced.split_render, ha.alternatives_eq, Pieces.map_single]
  · intro cut
    rw [h.split_render, mem_cuts_alternatives, ← exists_mem_literals_iff,
      h.canonical.ofText_render]

/-- What is between the braces that a scan has matched is a balanced text. -/
theorem Brace.exists_balanced_between {text content : List Char} {i e : Nat}
    (hclose : findClose? text i = some e) (hcontent : Span.Covers ⟨i + 1, e - 1⟩ text content) :
    ∃ t : Template, t.Balanced ∧ t.render = content := by
  obtain ⟨t, after, ht, hfrom, rfl⟩ := findClose?_eq_some_iff_balanced.mp hclose
  have hcovers : Span.Covers ⟨i + 1, i + t.byteLength + 2 - 1⟩ text t.render := by
    refine ⟨_, fromByte?_add (a := ['{']) hfrom, ?_⟩
    rw [← byteLength_eq]
    dsimp only
    omega
  exact ⟨t, ht, hcovers.unique hcontent⟩

/-- Splitting cuts every content at the separators with as many opening as closing braces before
them. The content of a group falls into pieces that are balanced and not cut again, and is cut at
the separators outside all its groups. -/
theorem split_cuts (content : List Char) :
    CutsEvenly content (split content) ∧
    ∀ text i e, findClose? text i = some e → Span.Covers ⟨i + 1, e - 1⟩ text content →
      CutsOutside content (split content) := by
  refine ⟨cutsEvenly_split content, ?_⟩
  intro text i e hclose hcontent
  obtain ⟨t, ht, rfl⟩ := exists_balanced_between hclose hcontent
  exact ht.cutsOutside_split

/-- A content with a group in it, behind a character of two bytes. -/
theorem split_cuts_nested :
    findClose? "é{a|{b/c}}".toList 2 = some 11 ∧
    Span.Covers ⟨3, 10⟩ "é{a|{b/c}}".toList "a|{b/c}".toList ∧
    CutsEvenly "a|{b/c}".toList (split "a|{b/c}".toList) ∧
    CutsOutside "a|{b/c}".toList (split "a|{b/c}".toList) := by
  have hclose : findClose? "é{a|{b/c}}".toList 2 = some 11 := by decide
  have hcovers : Span.Covers ⟨3, 10⟩ "é{a|{b/c}}".toList "a|{b/c}".toList :=
    ⟨['}'], by decide, by decide⟩
  obtain ⟨heven, houtside⟩ := split_cuts "a|{b/c}".toList
  exact ⟨hclose, hcovers, heven, houtside _ _ _ hclose hcovers⟩

example : (split "a|{b/c}".toList).cuts 0 = [1] ∧ (split "\x7d|\x7ba/b".toList).cuts 0 = [4] := by
  decide

end Campaign
