import Campaign.Proofs.Block.Segmentation
import Campaign.Proofs.Layout.Tiling
import Campaign.Proofs.Template.Nesting

/-!
# Inert characters

Literal characters mean nothing by themselves. A separator may become the other one, and a loose
brace, a separator outside all groups or an ordinary character may become ordinary text of as many
bytes: the text keeps its layout, its counts and the bounds of its blocks, or is refused with the
same error.
-/

namespace Campaign

open Text Brace

/-- No matched pair of braces is around a byte. -/
def Brace.Outside (text : List Char) (position : Nat) : Prop :=
  ∀ start stop, findClose? text start = some stop → ¬ (start ≤ position ∧ position < stop)

/-- One character of a text gives way to others that take as many bytes and mean as little. A
character of one byte is an ASCII one. -/
inductive Replacement : List Char → List Char → Prop
  | separator (before after : List Char) {c d : Char} (hc : isSeparator c) (hd : isSeparator d) :
      Replacement (before ++ c :: after) (before ++ d :: after)
  | brace (before after : List Char) {c d : Char}
      (hc : Loose (before ++ c :: after) (byteLength before) c) (hd : isOrdinary d)
      (hsize : d.utf8Size = 1) : Replacement (before ++ c :: after) (before ++ d :: after)
  | outside (before after : List Char) {c d : Char} (hc : isSeparator c)
      (hout : Outside (before ++ c :: after) (byteLength before)) (hd : isOrdinary d)
      (hsize : d.utf8Size = 1) : Replacement (before ++ c :: after) (before ++ d :: after)
  | ordinary (before after : List Char) {c : Char} {run : List Char} (hc : isOrdinary c)
      (hrun : ∀ d ∈ run, isOrdinary d) (hsize : byteLength run = c.utf8Size) :
      Replacement (before ++ c :: after) (before ++ run ++ after)

/-- The bytes of a block and, of a group, the count. -/
def Block.outline : Block → Nat × Option Nat
  | literal text => (byteLength text, none)
  | group raw _ count => (byteLength raw, some count)

/-- Two texts differ in nothing that a reader of spans, counts and blocks sees. -/
structure Alike (u v : List Char) : Prop where
  layout_eq : (Template.parse u).map Template.layout = (Template.parse v).map Template.layout
  count_eq : countVariations u = countVariations v
  blocks_eq : (segment u).map Block.outline = (segment v).map Block.outline

theorem Alike.refl (text : List Char) : Alike text text := ⟨rfl, rfl, rfl⟩

/-- What a reader cannot tell apart twice, it cannot tell apart at all. -/
theorem Alike.trans {u v w : List Char} (huv : Alike u v) (hvw : Alike v w) : Alike u w :=
  ⟨huv.layout_eq.trans hvw.layout_eq, huv.count_eq.trans hvw.count_eq,
    huv.blocks_eq.trans hvw.blocks_eq⟩

/-- A block outline in front of others, of some bytes of literal text. -/
def growFirst (bytes : Nat) : List (Nat × Option Nat) → List (Nat × Option Nat)
  | (n, none) :: later => (bytes + n, none) :: later
  | outlines => (bytes, none) :: outlines

theorem growFirst_growFirst (first second : Nat) (outlines : List (Nat × Option Nat)) :
    growFirst first (growFirst second outlines) = growFirst (first + second) outlines := by
  match outlines with
  | [] => rfl
  | (n, none) :: later => simp [growFirst, Nat.add_assoc]
  | (n, some count) :: later => rfl

/-- A character in front of blocks lengthens a literal run or starts one. -/
theorem Block.map_outline_consChar (c : Char) (blocks : List Block) :
    (consChar c blocks).map outline = growFirst c.utf8Size (blocks.map outline) := by
  match blocks with
  | [] => rfl
  | literal text :: later => rfl
  | group raw alternatives count :: later => rfl

theorem Pieces.toList_mapFirst_congr {α : Type} {p q : Pieces α} (h : p.toList = q.toList)
    (f : α → α) : (p.mapFirst f).toList = (q.mapFirst f).toList := by
  obtain ⟨hfirst, hothers⟩ := List.cons.inj h
  rw [mapFirst, mapFirst, toList, toList, hfirst, hothers]

namespace Template

section Chars

variable {run : List Char}

theorem byteLength_chars (run : List Char) (t : Template) :
    (chars run t).byteLength = Text.byteLength run + t.byteLength := by
  rw [byteLength_eq, byteLength_eq, render_chars, byteLength_append]

theorem tooDeep?_chars (allowed position : Nat) (run : List Char) (t : Template) :
    (chars run t).tooDeep? allowed position =
      t.tooDeep? allowed (position + Text.byteLength run) := by
  induction run generalizing position with
  | nil => rfl
  | cons c run ih =>
      rw [byteLength_cons, ← Nat.add_assoc, ← ih]
      rfl

theorem stretch_chars {inside : Bool} (hrun : ∀ c ∈ run, ¬ cuts inside c)
    (start position number : Nat) (t : Template) :
    (chars run t).stretch inside start position number =
      t.stretch inside start (position + Text.byteLength run) number := by
  induction run generalizing position with
  | nil => rfl
  | cons c run ih =>
      obtain ⟨hc, hrun⟩ := List.forall_mem_cons.mp hrun
      rw [byteLength_cons, ← Nat.add_assoc, ← ih hrun]
      change (char c (chars run t)).stretch inside start position number = _
      rw [stretch, if_neg hc]

theorem pieceVariations_chars {inside : Bool} (hrun : ∀ c ∈ run, ¬ cuts inside c) (t : Template) :
    (chars run t).pieceVariations inside = t.pieceVariations inside := by
  induction run with
  | nil => rfl
  | cons c run ih =>
      obtain ⟨hc, hrun⟩ := List.forall_mem_cons.mp hrun
      rw [← ih hrun]
      exact if_neg hc

/-- Characters in front of a template are literal text in front of its blocks. -/
theorem map_outline_blocks_chars (hrun : run ≠ []) (t : Template) :
    (chars run t).blocks.map Block.outline =
      growFirst (Text.byteLength run) (t.blocks.map Block.outline) := by
  induction run with
  | nil => exact absurd rfl hrun
  | cons c run ih =>
      cases run with
      | nil => exact Block.map_outline_consChar c t.blocks
      | cons d run =>
          rw [byteLength_cons, ← growFirst_growFirst, ← ih (List.cons_ne_nil d run),
            ← Block.map_outline_consChar]
          rfl

end Chars

/-- Characters cut where another one does: either is one separator, or none of them cuts. -/
def CutsLike (place : Bool) (c : Char) (run : List Char) : Prop :=
  (isSeparator c ∧ ∃ d, run = [d] ∧ isSeparator d) ∨ (¬ cuts place c ∧ ∀ d ∈ run, ¬ cuts place d)

namespace Replaces

variable {c : Char} {run : List Char} {place inside : Bool} {t t' : Template}

/-- A replacement of as many bytes keeps the length of a template in bytes. -/
theorem byteLength_eq (h : Replaces c run place inside t t')
    (hsize : Text.byteLength run = c.utf8Size) : t'.byteLength = t.byteLength := by
  induction h with
  | here rest => rw [byteLength_chars, hsize, byteLength]
  | char d _ ih => rw [byteLength, byteLength, ih]
  | content rest _ ih => rw [byteLength, byteLength, ih]
  | rest content _ ih => rw [byteLength, byteLength, ih]

/-- A replacement of as many bytes keeps the first group that is too deep where it was. -/
theorem tooDeep?_eq (h : Replaces c run place inside t t')
    (hsize : Text.byteLength run = c.utf8Size) (allowed position : Nat) :
    t'.tooDeep? allowed position = t.tooDeep? allowed position := by
  induction h generalizing allowed position with
  | here rest => rw [tooDeep?_chars, hsize, tooDeep?]
  | char d _ ih => exact ih allowed _
  | content rest h ih => cases allowed <;> simp only [tooDeep?, ih, h.byteLength_eq hsize]
  | rest content _ ih => cases allowed <;> simp only [tooDeep?, ih]

/-- A replacement of as many bytes that cuts alike keeps every node and every sequence. -/
theorem stretch_eq (h : Replaces c run place inside t t')
    (hsize : Text.byteLength run = c.utf8Size) (hcuts : CutsLike place c run)
    (start position number : Nat) :
    t'.stretch inside start position number = t.stretch inside start position number := by
  induction h generalizing start position number with
  | here rest =>
      rcases hcuts with ⟨hc, d, rfl, hd⟩ | ⟨hc, hrun⟩
      · change (Template.char d rest).stretch place start position number = _
        rw [stretch, stretch, cuts, cuts, hc, hd, utf8Size_of_isSeparator hc,
          utf8Size_of_isSeparator hd]
      · rw [stretch_chars hrun, hsize, stretch, if_neg hc]
  | char d _ ih => simp only [stretch, ih]
  | content rest h ih => simp only [stretch, ih, h.byteLength_eq hsize]
  | rest content _ ih => simp only [stretch, ih]

/-- A replacement that cuts alike keeps the count of each piece. -/
theorem toList_pieceVariations_eq (h : Replaces c run place inside t t')
    (hcuts : CutsLike place c run) :
    (t'.pieceVariations inside).toList = (t.pieceVariations inside).toList := by
  induction h with
  | here rest =>
      rcases hcuts with ⟨hc, d, rfl, hd⟩ | ⟨hc, hrun⟩
      · change ((Template.char d rest).pieceVariations place).toList = _
        rw [pieceVariations, pieceVariations, cuts, cuts, hc, hd]
        split <;> rfl
      · rw [pieceVariations_chars hrun, pieceVariations, if_neg hc]
  | char d _ ih =>
      rw [pieceVariations, pieceVariations]
      split
      next => exact congrArg (1 :: ·) ih
      next => exact ih
  | content rest _ ih => rw [pieceVariations, pieceVariations, groupVariations, groupVariations, ih]
  | rest content _ ih => exact Pieces.toList_mapFirst_congr ih _

/-- A replacement of as many bytes that cuts alike keeps the bounds and the count of each block. -/
theorem map_outline_blocks_eq (h : Replaces c run place inside t t')
    (hsize : Text.byteLength run = c.utf8Size) (hcuts : CutsLike place c run) :
    t'.blocks.map Block.outline = t.blocks.map Block.outline := by
  induction h with
  | here rest =>
      have hrun : run ≠ [] := by
        rintro rfl
        exact Nat.ne_of_gt c.utf8Size_pos hsize.symm
      rw [map_outline_blocks_chars hrun, hsize, blocks, Block.map_outline_consChar]
  | char d _ ih => rw [blocks, blocks, Block.map_outline_consChar, ih, Block.map_outline_consChar]
  | content rest h _ =>
      have hlength := h.byteLength_eq hsize
      rw [Template.byteLength_eq, Template.byteLength_eq] at hlength
      have hcounts := h.toList_pieceVariations_eq hcuts
      simp only [blocks, List.map_cons, Block.outline, groupVariations, hcounts, byteLength_append,
        byteLength_cons, List.cons_append, hlength]
  | rest content _ ih => rw [blocks, blocks, List.map_cons, List.map_cons, ih]

/-- Texts whose templates differ in such a replacement look alike to a reader. -/
theorem alike {u v : List Char} (h : Replaces c run place false (ofText u) (ofText v))
    (hsize : Text.byteLength run = c.utf8Size) (hcuts : CutsLike place c run) : Alike u v := by
  have hdeep := h.tooDeep?_eq hsize maxDepth 0
  cases hu : parse u with
  | ok t =>
      obtain ⟨rfl, hnone⟩ := parse_eq_ok_iff.mp hu
      have hv : parse v = .ok (ofText v) := parse_eq_ok_iff.mpr ⟨rfl, hdeep.trans hnone⟩
      have hstretch := h.stretch_eq hsize hcuts 0 0 0
      refine ⟨?_, ?_, ?_⟩
      · rw [hu, hv, Except.map, Except.map, layout, layout, hstretch]
      · rw [countVariations_of_ok hu, countVariations_of_ok hv]
        exact (List.cons.inj (h.toList_pieceVariations_eq hcuts)).1.symm
      · rw [segment_of_ok hu, segment_of_ok hv, h.map_outline_blocks_eq hsize hcuts]
  | error e =>
      obtain ⟨hlimit, hfound⟩ := parse_eq_error_iff.mp hu
      have hv : parse v = .error e := parse_eq_error_iff.mpr ⟨hlimit, hdeep.trans hfound⟩
      have hlength := h.byteLength_eq hsize
      rw [Template.byteLength_eq, Template.byteLength_eq, render_ofText, render_ofText] at hlength
      refine ⟨?_, ?_, ?_⟩
      · rw [hu, hv]
      · rw [countVariations_of_error hu, countVariations_of_error hv]
      · rw [(segment_of_error hu).2, (segment_of_error hv).2]
        simp only [List.map_singleton, Block.outline, hlength]

end Replaces

end Template

theorem not_brace_of_isSeparator {c : Char} (h : isSeparator c) : ¬ (c = '{' ∨ c = '}') := by
  rintro (rfl | rfl) <;> cases h

theorem not_isSeparator_of_loose {text : List Char} {position : Nat} {c : Char}
    (h : Loose text position c) : ¬ isSeparator c := by
  intro hc
  exact not_brace_of_isSeparator hc (h.imp And.left And.left)

theorem not_cuts_of_not_isSeparator {c : Char} (h : ¬ isSeparator c) (place : Bool) :
    ¬ Template.cuts place c :=
  fun hcut => h (Bool.and_eq_true_iff.mp hcut).2

/-- Characters other than separators cut like ordinary ones, in a group or not. -/
theorem cutsLike_of_ordinary {c : Char} {run : List Char} (hc : ¬ isSeparator c)
    (hrun : ∀ d ∈ run, isOrdinary d) (place : Bool) : Template.CutsLike place c run :=
  Or.inr ⟨not_cuts_of_not_isSeparator hc place,
    fun d hd => not_cuts_of_not_isSeparator (hrun d hd).2.2 place⟩

/-- A literal character gives way to others that cut like it. -/
theorem alike_of_literal {before after run : List Char} {c : Char}
    (hloose : c = '{' ∨ c = '}' → Loose (before ++ c :: after) (byteLength before) c)
    (hrun : ∀ d ∈ run, d ≠ '{' ∧ d ≠ '}') (hsize : byteLength run = c.utf8Size)
    (hcuts : ∀ place, (place = true → ¬ Outside (before ++ c :: after) (byteLength before)) →
      Template.CutsLike place c run) :
    Alike (before ++ c :: after) (before ++ run ++ after) := by
  obtain ⟨place, hreplaces, hplace⟩ := Template.ofText_replaces run hloose hrun
  refine hreplaces.alike hsize (hcuts place ?_)
  intro htrue hout
  obtain ⟨start, stop, hclose, hbounds⟩ := hplace htrue
  exact hout start stop hclose hbounds

/-- One replacement changes nothing that a reader sees. -/
theorem Replacement.alike {u v : List Char} (h : Replacement u v) : Alike u v := by
  cases h with
  | @separator before after c d hc hd =>
      have hbrace := not_or.mp (not_brace_of_isSeparator hd)
      rw [List.append_cons before d]
      apply alike_of_literal
      · exact fun h => absurd h (not_brace_of_isSeparator hc)
      · exact List.forall_mem_singleton.mpr hbrace
      · rw [byteLength_cons, utf8Size_of_isSeparator hc, utf8Size_of_isSeparator hd]
        rfl
      · exact fun _ _ => Or.inl ⟨hc, d, rfl, hd⟩
  | @brace before after c d hc hd hsize =>
      have hone : c.utf8Size = 1 := by
        rcases hc with ⟨rfl, _⟩ | ⟨rfl, _⟩ <;> rfl
      rw [List.append_cons before d]
      apply alike_of_literal
      · exact fun _ => hc
      · exact List.forall_mem_singleton.mpr ⟨hd.1, hd.2.1⟩
      · rw [byteLength_cons, hsize, hone]
        rfl
      · intro place _
        apply cutsLike_of_ordinary (not_isSeparator_of_loose hc)
        exact List.forall_mem_singleton.mpr hd
  | @outside before after c d hc hout hd hsize =>
      rw [List.append_cons before d]
      apply alike_of_literal
      · exact fun h => absurd h (not_brace_of_isSeparator hc)
      · exact List.forall_mem_singleton.mpr ⟨hd.1, hd.2.1⟩
      · rw [byteLength_cons, utf8Size_of_isSeparator hc, hsize]
        rfl
      · -- Outside every group no separator cuts, nor does what replaces it.
        intro place hplace
        cases place with
        | true => exact absurd hout (hplace rfl)
        | false => exact Or.inr ⟨Bool.false_ne_true, fun _ _ => Bool.false_ne_true⟩
  | @ordinary before after c run hc hrun hsize =>
      apply alike_of_literal
      · exact fun h => absurd h (not_or.mpr ⟨hc.1, hc.2.1⟩)
      · exact fun d hd => ⟨(hrun d hd).1, (hrun d hd).2.1⟩
      · exact hsize
      · exact fun place _ => cutsLike_of_ordinary hc.2.2 hrun place

/-- Replacing inert characters, any number of them, changes neither the layout of a text nor the
error it is refused with, and neither its count nor those of its blocks nor their bounds. -/
theorem alike_of_replacements {u v : List Char} (h : Relation.ReflTransGen Replacement u v) :
    Alike u v := by
  induction h with
  | refl => exact Alike.refl u
  | tail _ hstep ih => exact ih.trans hstep.alike

/-- A separator outside all groups, one inside, a loose brace and a character of two bytes, each
replaced. -/
theorem alike_of_replacements_each :
    Relation.ReflTransGen Replacement ['|', '{', 'a', '/', 'b', '}', '{', 'é']
        ['-', '{', 'a', '|', 'b', '}', 'x', 'y', 'z'] ∧
      Alike ['|', '{', 'a', '/', 'b', '}', '{', 'é']
        ['-', '{', 'a', '|', 'b', '}', 'x', 'y', 'z'] := by
  have hdash : isOrdinary '-' := by
    unfold isOrdinary
    decide
  have hx : isOrdinary 'x' := by
    unfold isOrdinary
    decide
  have haccent : isOrdinary 'é' := by
    unfold isOrdinary
    decide
  have hrun : ∀ d ∈ ['y', 'z'], isOrdinary d := by
    simp [isOrdinary, isSeparator]
  have hout : Outside ['|', '{', 'a', '/', 'b', '}', '{', 'é'] 0 := by
    rintro start stop hclose ⟨hle, _⟩
    obtain rfl := Nat.le_zero.mp hle
    cases hclose
  have hreplaced : Relation.ReflTransGen Replacement ['|', '{', 'a', '/', 'b', '}', '{', 'é']
      ['-', '{', 'a', '|', 'b', '}', 'x', 'y', 'z'] := by
    refine .head (.outside [] _ rfl hout hdash rfl) ?_
    refine .head (.separator ['-', '{', 'a'] _ rfl (d := '|') rfl) ?_
    refine .head (.brace ['-', '{', 'a', '|', 'b', '}'] _ (Or.inl ⟨rfl, rfl⟩) hx rfl) ?_
    exact .single (.ordinary ['-', '{', 'a', '|', 'b', '}', 'x'] [] haccent hrun rfl)
  exact ⟨hreplaced, alike_of_replacements hreplaced⟩

end Campaign
