import Campaign.Proofs.Brace.Ranges
import Campaign.Proofs.Layout.Subtrees

/-!
# Parsing by positions

A layout can be read from a text byte by byte: where a group opens, its content is cut out and
split, every piece is read as a sequence of its own, and reading goes on behind the group. Every
access is checked, and so is that no group ends past the sequence that it is in. The reading never
fails, and gives the layout of the template of the text, or the error for one that nests too deep.
-/

namespace Campaign

open Text Brace Template

/-- Where the group ends that opens at a byte, if one does; nothing past the end of the text. -/
def closeAt? (text : List Char) (position : Nat) : Option (Option Nat) := do
  let byte ← (bytes text)[position]?
  let close? ← (closes text)[position]?
  return if byte = UInt8.ofNat '{'.toNat then close? else none

/-- What is read at some depth of nesting. -/
structure Parser where
  text : List Char
  /-- How many more groups may be nested here. -/
  allowed : Nat

namespace Parser

mutual

/-- Reads a sequence to its end from a byte on, the literal run before it having started at another
one. Gives the nodes that are added, from a number on, and the numbers of those in the sequence. -/
def readNodes? (p : Parser) (stop run position number : Nat) :
    ExceptT NestingError Option (List Node × List Nat) := do
  if position < stop then
    match ← closeAt? p.text position with
    | none => p |>.readNodes? stop run (position + 1) number
    | some close =>
      -- A group ends no later than the sequence that it is in.
      (guard (close ≤ stop) : Option Unit)
      let literal := runNode run position
      let (inner, node) ← p |>.readGroup? ⟨position, close⟩ (number + literal.length)
      let index := number + literal.length + inner.length
      let (rest, children) ← p |>.readNodes? stop close close (index + 1)
      return (literal ++ inner ++ node :: rest, runChild run position number ++ index :: children)
  else return (runNode run stop, runChild run stop number)
partial_fixpoint

/-- Reads a group, unless no more groups may be nested here. Gives the nodes that are added before
it, from a number on, and its own node. -/
def readGroup? (p : Parser) (span : Span) (number : Nat) :
    ExceptT NestingError Option (List Node × Node) := do
  match p.allowed with
  | 0 => throw ⟨maxDepth, span.start⟩
  | deeper + 1 =>
    let content ← slice? p.text ⟨span.start + 1, span.stop - 1⟩
    let pieces := (ranges content).map (Span.shift (span.start + 1))
    let (nodes, alternatives) ← { p with allowed := deeper } |>.readAlternatives? pieces number
    return (nodes, .group span alternatives)
partial_fixpoint

/-- Reads the pieces of a group one after another. -/
def readAlternatives? (p : Parser) (pieces : List Span) (number : Nat) :
    ExceptT NestingError Option (List Node × List Sequence) := do
  match pieces with
  | [] => return ([], [])
  | span :: later =>
    let (nodes, children) ← p |>.readNodes? span.stop span.start span.start number
    let (more, alternatives) ← p |>.readAlternatives? later (number + nodes.length)
    return (nodes ++ more, ⟨span, children⟩ :: alternatives)
partial_fixpoint

end

/-- Reads the rest of a piece, whose text stands at a byte, and the pieces after it. -/
def readPieces? (p : Parser) (run position number : Nat) (pieces : Pieces (List Char)) :
    ExceptT NestingError Option Stretch := do
  let stop := position + byteLength pieces.first
  let (nodes, children) ← p.readNodes? stop run position number
  let later := Pieces.laterSpans stop pieces.others
  let (more, alternatives) ← p.readAlternatives? later (number + nodes.length)
  return ⟨nodes ++ more, children, stop, alternatives⟩

end Parser

/-- Reads the layout of a text. -/
def readLayout? (text : List Char) : Option (Except NestingError Layout) := ExceptT.run do
  let (nodes, children) ← (Parser.mk text maxDepth).readNodes? (byteLength text) 0 0 0
  return ⟨nodes, ⟨⟨0, byteLength text⟩, children⟩⟩

/-- A result, or the error when a group has been found that is nested too deep. -/
def unlessFound {α : Type} (found? : Option Nat) (a : α) : ExceptT NestingError Option α :=
  match found? with
  | some offset => throw ⟨maxDepth, offset⟩
  | none => pure a

section Steps

variable {text : List Char} {position : Nat}

theorem liftM_some_bind {α β : Type} (a : α) (f : α → ExceptT NestingError Option β) :
    (liftM (some a) : ExceptT NestingError Option α) >>= f = f a := rfl

/-- Within the text the table of ends has what the scan finds. -/
theorem closeAt?_eq (h : position < byteLength text) :
    closeAt? text position = some (findClose? text position) := by
  have hlength : position < (bytes text).length := length_bytes text ▸ h
  have hbyte := List.getElem?_eq_getElem hlength
  rw [closeAt?, hbyte, closes_getElem? h]
  dsimp only [bind, Option.bind_some]
  cases hclose : findClose? text position with
  | none => split <;> rfl
  | some close =>
      obtain ⟨rest, _, hfrom, _⟩ := findClose?_eq_some_iff.mp hclose
      have hopen := bytes_getElem? (charAt?_eq_some_iff.mpr ⟨rest, hfrom⟩) (c := '{') (by decide)
      rw [hbyte] at hopen
      rw [if_pos (Option.some.inj hopen)]
      rfl

theorem map_unlessFound {α β : Type} (f : α → β) (found? : Option Nat) (a : α) :
    f <$> unlessFound found? a = unlessFound found? (f a) := by
  cases found? <;> rfl

end Steps

namespace Parser

variable {p : Parser} {stop run position number : Nat}

theorem readNodes?_stop (h : stop ≤ position) :
    p.readNodes? stop run position number =
      pure (runNode run stop, runChild run stop number) := by
  rw [readNodes?, if_neg (Nat.not_lt.mpr h)]

/-- Reading passes over bytes where no group opens. -/
theorem readNodes?_add {k : Nat} (hstop : position + k ≤ stop)
    (hnone : ∀ j < k, closeAt? p.text (position + j) = some none) :
    p.readNodes? stop run position number =
      p.readNodes? stop run (position + k) number := by
  induction k with
  | zero => rfl
  | succ k ih =>
      rw [ih (by omega) fun j hj => hnone j (by omega), readNodes?, if_pos (by omega),
        hnone k (Nat.lt_succ_self k)]
      rfl

/-- Where a group opens within a sequence, the run before it, the group and what follows it are
read. -/
theorem readNodes?_group {close : Nat} (hclose : closeAt? p.text position = some (some close))
    (hlt : position < close) (hle : close ≤ stop) :
    p.readNodes? stop run position number = do
      let literal := runNode run position
      let (inner, node) ← p.readGroup? ⟨position, close⟩ (number + literal.length)
      let index := number + literal.length + inner.length
      let (rest, children) ← p.readNodes? stop close close (index + 1)
      return (literal ++ inner ++ node :: rest,
        runChild run position number ++ index :: children) := by
  rw [readNodes?, if_pos (by omega), hclose, liftM_some_bind]
  simp only [guard, if_pos hle]
  rfl

/-- Reading the alternatives of a group by their spans is reading its pieces. -/
theorem readAlternatives?_spans (pieces : Pieces (List Char)) :
    p.readAlternatives? (pieces.spans position) number =
      (fun s => (s.nodes, s.sequences position)) <$>
        p.readPieces? position position number pieces := by
  rw [Pieces.spans, readAlternatives?, readPieces?]
  simp only [map_bind, map_pure, Stretch.sequences]

theorem readPieces?_empty :
    p.readPieces? run position number (.single []) =
      pure ⟨runNode run position, runChild run position number, position, []⟩ := by
  rw [readPieces?, show (Pieces.single ([] : List Char)).first = [] from rfl, byteLength_nil,
    Nat.add_zero, readNodes?_stop (Nat.le_refl position), pure_bind,
    show Pieces.laterSpans position (Pieces.single ([] : List Char)).others = [] from rfl]
  dsimp only
  rw [readAlternatives?, pure_bind, List.append_nil]

/-- At the end of a piece reading goes on behind the separator. -/
theorem readPieces?_cut (pieces : Pieces (List Char)) (separator : Char) :
    p.readPieces? run position number (pieces.cut [] separator) =
      (fun s => ⟨runNode run position ++ s.nodes, runChild run position number, position,
        s.sequences (position + separator.utf8Size)⟩) <$>
        p.readPieces? (position + separator.utf8Size) (position + separator.utf8Size)
          (number + (runNode run position).length) pieces := by
  have hlater : Pieces.laterSpans position (pieces.cut [] separator).others =
      pieces.spans (position + separator.utf8Size) := rfl
  rw [readPieces?, show (pieces.cut [] separator).first = [] from rfl, byteLength_nil, Nat.add_zero,
    readNodes?_stop (Nat.le_refl position), hlater, pure_bind]
  simp only [readAlternatives?_spans, map_eq_pure_bind, bind_assoc, pure_bind]

/-- Reading passes over a character at which no group opens. -/
theorem readPieces?_mapFirst_cons {c : Char} (pieces : Pieces (List Char))
    (hnone : ∀ j < c.utf8Size, closeAt? p.text (position + j) = some none) :
    p.readPieces? run position number (pieces.mapFirst (c :: ·)) =
      p.readPieces? run (position + c.utf8Size) number pieces := by
  have hstop : position + byteLength (pieces.mapFirst (c :: ·)).first =
      position + c.utf8Size + byteLength pieces.first := by
    rw [Nat.add_assoc]
    rfl
  rw [readPieces?, readPieces?, hstop, readNodes?_add (by omega) hnone]
  rfl

/-- Where a group opens the group is read, and what follows it behind it. -/
theorem readPieces?_mapFirst_append (raw : List Char) (pieces : Pieces (List Char))
    (hraw : raw ≠ [])
    (hclose : closeAt? p.text position = some (some (position + byteLength raw))) :
    p.readPieces? run position number (pieces.mapFirst (raw ++ ·)) = do
      let literal := runNode run position
      let close := position + byteLength raw
      let (inner, node) ← p.readGroup? ⟨position, close⟩ (number + literal.length)
      let index := number + literal.length + inner.length
      let s ← p.readPieces? close close (index + 1) pieces
      return ⟨literal ++ inner ++ node :: s.nodes,
        runChild run position number ++ index :: s.children, s.stop, s.later⟩ := by
  have hstop : position + byteLength (pieces.mapFirst (raw ++ ·)).first =
      position + byteLength raw + byteLength pieces.first := by
    rw [Nat.add_assoc, ← byteLength_append]
    rfl
  have hpos : 0 < byteLength raw := by
    apply Nat.pos_of_ne_zero
    exact fun hzero => hraw (eq_nil_of_byteLength hzero)
  rw [readPieces?, hstop, readNodes?_group hclose (by omega) (by omega)]
  simp only [readPieces?, bind_assoc, pure_bind, List.length_append, List.length_cons,
    List.append_assoc, List.cons_append, Nat.add_assoc, Nat.add_comm 1, Pieces.mapFirst]

end Parser

namespace Template

/-- A template stands within the bytes of the text. -/
theorem StandsAt.le_byteLength {t : Template} {text : List Char} {position : Nat}
    (h : t.StandsAt text position) : position + t.byteLength ≤ Text.byteLength text := by
  obtain ⟨after, hfrom⟩ := h
  obtain ⟨before, rfl, rfl⟩ := fromByte?_eq_some_iff.mp hfrom
  rw [byteLength_append, byteLength_append, byteLength_eq]
  omega

/-- Within the bytes of a template a text matches the braces of the template's groups and no
others. -/
def MatchedIn (t : Template) (text : List Char) (position : Nat) : Prop :=
  ∀ i e, position ≤ i → i < position + t.byteLength →
    (findClose? text i = some e ↔ ⟨i, e⟩ ∈ t.groupSpans position)

namespace MatchedIn

variable {c : Char} {content rest : Template} {text : List Char} {position : Nat}

theorem findClose?_char (h : (char c rest).MatchedIn text position) {j : Nat}
    (hj : j < c.utf8Size) : findClose? text (position + j) = none := by
  apply Option.eq_none_iff_forall_ne_some.mpr
  intro e hclose
  have hspan := (h _ e (Nat.le_add_right _ _) (by rw [byteLength]; omega)).mp hclose
  have hbounds := groupSpans_bounds (t := rest) hspan
  dsimp only at hbounds
  omega

theorem rest_char (h : (char c rest).MatchedIn text position) :
    rest.MatchedIn text (position + c.utf8Size) :=
  fun i e hle hlt => h i e (by omega) (by rw [byteLength]; omega)

theorem findClose?_group (h : (group content rest).MatchedIn text position) :
    findClose? text position = some (position + content.byteLength + 2) :=
  (h _ _ (Nat.le_refl _) (by rw [byteLength]; omega)).mpr List.mem_cons_self

theorem content_group (h : (group content rest).MatchedIn text position) :
    content.MatchedIn text (position + 1) := by
  intro i e hle hlt
  rw [h i e (by omega) (by rw [byteLength]; omega), groupSpans, List.mem_append, List.mem_cons]
  constructor
  · rintro ((heq | hspan) | hspan)
    · have hi := congrArg Span.start heq
      dsimp only at hi
      omega
    · exact hspan
    · have hbounds := groupSpans_bounds hspan
      dsimp only at hbounds
      omega
  · exact fun hspan => Or.inl (Or.inr hspan)

theorem rest_group (h : (group content rest).MatchedIn text position) :
    rest.MatchedIn text (position + content.byteLength + 2) := by
  intro i e hle hlt
  rw [h i e (by omega) (by rw [byteLength]; omega), groupSpans, List.mem_append, List.mem_cons]
  constructor
  · rintro ((heq | hspan) | hspan)
    · have hi := congrArg Span.start heq
      dsimp only at hi
      omega
    · have hbounds := groupSpans_bounds hspan
      dsimp only at hbounds
      omega
    · exact hspan
  · exact Or.inr

end MatchedIn

/-- A text matches the braces of the template that it is read as. -/
theorem matchedIn_ofText (text : List Char) : (ofText text).MatchedIn text 0 :=
  fun i e _ _ => (mem_groupSpans_ofText (s := ⟨i, e⟩)).symm

theorem map_shift_spans (bytes position : Nat) (p : Pieces (List Char)) :
    (p.spans position).map (Span.shift bytes) = p.spans (position + bytes) := by
  induction p using Pieces.induction_cut generalizing position with
  | single piece =>
      rw [Pieces.spans_single, Pieces.spans_single, List.map_singleton, Span.shift,
        Nat.add_right_comm]
  | cut piece separator p ih =>
      rw [Pieces.spans_cut, List.map_cons, ih, Pieces.spans_cut, Span.shift,
        Nat.add_right_comm _ bytes, Nat.add_right_comm _ bytes]

/-- A group is read from its content. -/
theorem readGroup?_eq {content rest : Template} {text : List Char} {position : Nat}
    (hbalanced : content.Balanced) (hstands : (group content rest).StandsAt text position)
    {deeper number : Nat} {inner : Stretch} {found? : Option Nat}
    (hcontent : (Parser.mk text deeper).readPieces? (position + 1) (position + 1) number
      ((content.sections true).map render) = unlessFound found? inner) :
    (Parser.mk text (deeper + 1)).readGroup? ⟨position, position + content.byteLength + 2⟩ number =
      unlessFound found? (inner.nodes,
        .group ⟨position, position + content.byteLength + 2⟩ (inner.sequences (position + 1))) := by
  have hcovers : Span.Covers ⟨position + 1, position + content.byteLength + 2 - 1⟩ text
      content.render := by
    have hcontent := hstands.content_group.covers
    rw [Nat.add_right_comm] at hcontent
    exact hcontent
  rw [Parser.readGroup?, slice?_eq_some_iff.mpr hcovers]
  dsimp only
  rw [liftM_some_bind, ranges_eq, map_shift_spans, hbalanced.split_render, Nat.zero_add,
    Parser.readAlternatives?_spans, ← sections_true, hcontent]
  cases found? <;> rfl

/-- Reading the sections of a template gives its stretch, unless a group in it is too deep. -/
theorem readPieces?_eq (inside : Bool) {t : Template} {text : List Char} {position : Nat}
    (hcanonical : t.Canonical) (hstands : t.StandsAt text position)
    (hmatched : t.MatchedIn text position) (allowed run number : Nat) :
    (Parser.mk text allowed).readPieces? run position number ((t.sections inside).map render) =
      unlessFound (t.tooDeep? allowed position) (t.stretch inside run position number) := by
  -- On the template, along which the reading goes; the text is met through the positions only.
  induction t generalizing inside position allowed run number with
  | empty =>
      rw [sections_empty, Pieces.map_single, render, Parser.readPieces?_empty, tooDeep?, stretch]
      rfl
  | char c rest ih =>
      have hrest := ih inside hcanonical.2 hstands.rest_char hmatched.rest_char
      rw [sections_char, stretch, tooDeep?]
      split
      next hcut =>
        rw [Pieces.map_cut, render, Parser.readPieces?_cut, hrest, map_unlessFound]
      next hcut =>
        rw [map_render_mapFirst_char, Parser.readPieces?_mapFirst_cons, hrest]
        intro j hj
        have hlt := hstands.le_byteLength
        rw [byteLength] at hlt
        change closeAt? text (position + j) = some none
        rw [closeAt?_eq (by omega), hmatched.findClose?_char hj]
  | group content rest ihcontent ihrest =>
      have hrest := ihrest inside hcanonical.2 hstands.rest_group hmatched.rest_group
      have hcontent :=
        ihcontent true hcanonical.1.canonical hstands.content_group hmatched.content_group
      have hlength : position + Text.byteLength ('{' :: content.render ++ ['}']) =
          position + content.byteLength + 2 := by
        rw [byteLength_braces, Nat.add_assoc]
      have hraw : '{' :: content.render ++ ['}'] ≠ [] := List.cons_ne_nil _ _
      have hclose : closeAt? text position =
          some (some (position + Text.byteLength ('{' :: content.render ++ ['}']))) := by
        have hlt := hstands.le_byteLength
        rw [byteLength] at hlt
        rw [closeAt?_eq (by omega), hmatched.findClose?_group, hlength]
      rw [sections_group, map_render_mapFirst_group,
        Parser.readPieces?_mapFirst_append _ _ hraw hclose, hlength]
      dsimp only
      cases allowed with
      | zero =>
          -- The group is refused before its content is looked at, and with it all of the text.
          rw [Parser.readGroup?]
          rfl
      | succ deeper =>
          rw [readGroup?_eq hcanonical.1 hstands (hcontent _ _ _), tooDeep?]
          cases content.tooDeep? deeper (position + 1) with
          | some found => rfl
          | none =>
              rw [unlessFound, pure_bind]
              dsimp only
              rw [hrest, ← map_eq_pure_bind, map_unlessFound]
              rfl

end Template

/-- Reading a text is reading it as one piece. -/
theorem readLayout?_eq_map (text : List Char) :
    readLayout? text = ((fun s => ⟨s.nodes, ⟨⟨0, s.stop⟩, s.children⟩⟩) <$>
      (Parser.mk text maxDepth).readPieces? 0 0 0 (.single text) :
        ExceptT NestingError Option Layout).run := by
  have hlater : Pieces.laterSpans (byteLength text) (Pieces.single text).others = [] := rfl
  rw [readLayout?, Parser.readPieces?, show (Pieces.single text).first = text from rfl]
  simp only [Nat.zero_add, hlater, Parser.readAlternatives?, pure_bind, map_bind, map_pure,
    List.append_nil]

/-- Reading a text by positions, with every access checked, gives the layout of its template or the
error with which it is refused. -/
theorem readLayout?_eq (text : List Char) :
    readLayout? text = some ((parse text).map layout) := by
  have hstands := (ofText text).standsAt_render
  rw [render_ofText] at hstands
  have hread := readPieces?_eq false (canonical_ofText text) hstands (matchedIn_ofText text)
    maxDepth 0 0
  rw [sections_false, Pieces.map_single, render_ofText] at hread
  rw [readLayout?_eq_map, hread, map_unlessFound, parse]
  cases (ofText text).tooDeep? maxDepth 0 <;> rfl

end Campaign
