import Campaign.Proofs.Brace.Cuts
import Campaign.Proofs.Layout.Visiting
import Campaign.Proofs.Sample.Residue
import Campaign.Proofs.Count.Variations
import Campaign.Template.Block

/-!
# Going through a layout

Counting, listing and random expansion are three visitors of a layout, and blocks are made of the
nodes of its root. Each looks its nodes up by their numbers, cuts their spans out of the text and
fails when that is not possible. On the layout of a template none of them fails, and each gives what
the template itself gives: a count is multiplied up group by group instead of from the end of a
piece on, and a list is cut to the limit after every group, which both come to the same.
-/

namespace Campaign

open Text Brace Template

namespace Visitor

/-- Multiplies the variations of groups. -/
def counting : Visitor Unit Nat where
  start := 1
  literal count _ := count
  group count alternatives s := some (saturatingMul count (groupVariations alternatives), s)
  literal_nil _ := rfl
  literal_append _ _ _ := rfl

/-- Goes on with each text listed so far, up to a limit of them. -/
def expanding (limit : Nat) : Visitor Unit (List (List Char)) where
  start := [[]]
  literal texts run := texts.map (· ++ run)
  group texts alternatives s :=
    some (crossUpTo limit texts (chainUpTo limit alternatives.toList), s)
  literal_nil texts := by simp
  literal_append texts first second := by simp

theorem counting_start : counting.start = 1 := rfl

theorem expanding_start (limit : Nat) : (expanding limit).start = [[]] := rfl

end Visitor

/-- Where a random expansion by some source of choices stands. -/
structure Draws (σ : Type) where
  source : σ
  resolved : Nat
  truncated : Bool

namespace Visitor

/-- Shows one of the alternatives, or writes the group back when enough groups have been resolved.
A choice gives nothing when it never settles, and fails when there is no alternative of its
number. -/
def sampling {σ : Type} (choose? : Nat → σ → Option (Nat × σ)) : Visitor (Draws σ) (List Char) where
  start := []
  literal := (· ++ ·)
  group shown alternatives s :=
    if s.resolved < maxResolved then do
      let (i, source) ← choose? alternatives.toList.length s.source
      let chosen ← alternatives.toList[i]?
      return (shown ++ chosen, { s with source, resolved := s.resolved + 1 })
    else some (shown ++ ('{' :: alternatives.join ++ ['}']), { s with truncated := true })
  literal_nil := List.append_nil
  literal_append shown first second := (List.append_assoc shown first second).symm

theorem sampling_start {σ : Type} (choose? : Nat → σ → Option (Nat × σ)) :
    (sampling choose?).start = [] := rfl

end Visitor

namespace Layout

variable (l : Layout) (text : List Char)

/-- The block of a node; nothing when it is not there or one of its spans is not within the text. -/
def block? (number : Nat) : Option Block := do
  match ← l.nodes[number]? with
  | .text span => return .literal (← slice? text span)
  | .group span alternatives =>
    let raw ← slice? text span
    let pieces ← alternatives.mapM fun a => slice? text a.span
    let (counts, _) ← l.visitAlternatives? text .counting alternatives ()
    return .group raw pieces (groupVariations counts)

def blocks? : Option (List Block) := l.root.nodes.mapM (l.block? text)

def variations? : Option Nat :=
  (l.visitRoot? text .counting ()).map Prod.fst

def expansions? (limit : Nat) : Option (List (List Char)) :=
  if limit = 0 then some []
  else (l.visitRoot? text (.expanding limit) ()).map Prod.fst

/-- A random expansion by some source of choices. -/
def sample? {σ : Type} (choose? : Nat → σ → Option (Nat × σ)) (source : σ) : Option (Sample × σ) :=
  (l.visitRoot? text (.sampling choose?) ⟨source, 0, false⟩).map fun (shown, s) =>
    (⟨shown, s.resolved, s.truncated⟩, s.source)

end Layout

section Counting

/-- Counting starts at one, which changes no count. -/
theorem Template.mapFirst_pieceVariations (inside : Bool) (t : Template) :
    (t.pieceVariations inside).mapFirst (saturatingMul 1) = t.pieceVariations inside := by
  have hclamp : ∀ n, saturatingMul 1 (clamp n) = clamp n := by
    intro n
    rw [saturatingMul_clamp_right, saturatingMul, Nat.one_mul, clamp]
  rw [pieceVariations_eq]
  simp only [Pieces.mapFirst, Pieces.map, hclamp]

/-- Multiplying the variations of the groups one after another gives the count of each piece. -/
theorem Template.visit?_counting (inside : Bool) (t : Template) {count : Nat}
    (hcount : count ≤ wordMax) :
    t.visit? .counting inside count () =
      some ((t.pieceVariations inside).mapFirst (saturatingMul count), ()) := by
  -- What comes of a group is within a word again, so the bound carries on to the rest.
  have hone : ∀ {count}, count ≤ wordMax → saturatingMul count 1 = count := by
    intro count hcount
    rw [saturatingMul, Nat.mul_one, Nat.min_eq_left hcount]
  have hstart : (1 : Nat) ≤ wordMax := by decide
  induction t generalizing inside count with
  | empty =>
      rw [visit?, pieceVariations, Pieces.single, Pieces.single, Pieces.mapFirst, hone hcount]
  | char c rest ih =>
      rw [visit?, pieceVariations]
      split
      next =>
        rw [Visitor.counting_start, ih inside hstart, mapFirst_pieceVariations, Option.map_some,
          Pieces.mapFirst_cut, hone hcount]
      next => exact ih inside hcount
  | group content rest ihcontent ihrest =>
      have hgroup : ∀ alternatives, Visitor.counting.group count alternatives () =
          some (saturatingMul count (groupVariations alternatives), ()) := fun _ => rfl
      have hle : saturatingMul count (groupVariations (content.pieceVariations true)) ≤ wordMax :=
        Nat.min_le_right _ _
      rw [visit?, Visitor.counting_start, ihcontent true hstart, mapFirst_pieceVariations]
      dsimp only [bind, Option.bind_some]
      rw [hgroup, Option.bind_some, ihrest inside hle, pieceVariations, Pieces.mapFirst_mapFirst,
        Pieces.mapFirst, Pieces.mapFirst, saturatingMul_assoc]

end Counting

section Expanding

variable {limit : Nat} {texts : List (List Char)}

theorem length_crossUpTo_le (limit : Nat) (as bs : List (List Char)) :
    (crossUpTo limit as bs).length ≤ limit := by
  rw [crossUpTo_eq_take]
  exact List.length_take_le _ _

/-- Products up to a limit may be taken in any order, if the last factor is not empty. -/
theorem crossUpTo_assoc (as bs : List (List Char)) {cs : List (List Char)} (hcs : cs ≠ []) :
    crossUpTo limit (crossUpTo limit as bs) cs = crossUpTo limit as (crossUpTo limit bs cs) := by
  rw [crossUpTo_eq_take, crossUpTo_eq_take, crossUpTo_eq_take, crossUpTo_eq_take,
    take_cross_take_left (Nat.le_refl limit) _ hcs, take_cross_take_right, cross_assoc]

theorem crossUpTo_start (hlength : texts.length ≤ limit) : crossUpTo limit [[]] texts = texts := by
  rw [crossUpTo_eq_take, cross_singleton]
  simp [List.take_of_length_le hlength]

theorem crossUpTo_end (hlength : texts.length ≤ limit) : crossUpTo limit texts [[]] = texts := by
  rw [crossUpTo_eq_take]
  simp [cross, List.take_of_length_le hlength]

/-- A character at the seam may go with either factor. -/
theorem crossUpTo_map_append (c : Char) (as bs : List (List Char)) :
    crossUpTo limit (as.map (· ++ [c])) bs = crossUpTo limit as (bs.map (c :: ·)) := by
  rw [crossUpTo_eq_take, crossUpTo_eq_take]
  simp [cross, List.flatMap_map, Function.comp_def]

theorem Template.length_pieceExpansions_le (hlimit : 0 < limit) (inside : Bool) (t : Template) :
    ((t.pieceExpansions inside limit).first).length ≤ limit := by
  rw [pieceExpansions_eq hlimit]
  exact List.length_take_le _ _

theorem Template.pieceExpansions_ne_nil (hlimit : 0 < limit) (inside : Bool) (t : Template) :
    (t.pieceExpansions inside limit).first ≠ [] := by
  rw [pieceExpansions_eq hlimit]
  exact List.ne_nil_of_length_pos (by
    simp [Pieces.map, List.length_take, hlimit, length_allExpansions_pos])

theorem Template.mapFirst_pieceExpansions (hlimit : 0 < limit) (inside : Bool) (t : Template) :
    (t.pieceExpansions inside limit).mapFirst (crossUpTo limit [[]]) =
      t.pieceExpansions inside limit := by
  rw [Pieces.mapFirst, crossUpTo_start (t.length_pieceExpansions_le hlimit inside)]

/-- Going on with the choices of the groups one after another lists the expansions of each piece. -/
theorem Template.visit?_expanding (hlimit : 0 < limit) (inside : Bool) (t : Template)
    (htexts : texts.length ≤ limit) :
    t.visit? (.expanding limit) inside texts () =
      some ((t.pieceExpansions inside limit).mapFirst (crossUpTo limit texts), ()) := by
  have hstart : ([[]] : List (List Char)).length ≤ limit := hlimit
  induction t generalizing inside texts with
  | empty =>
      rw [visit?, pieceExpansions, Pieces.single, Pieces.single, Pieces.mapFirst,
        crossUpTo_end htexts]
  | char c rest ih =>
      rw [visit?, pieceExpansions]
      dsimp only
      split
      next =>
        rw [Visitor.expanding_start, ih inside hstart,
          mapFirst_pieceExpansions hlimit, Option.map_some, Pieces.mapFirst_cut,
          crossUpTo_end htexts]
      next =>
        have hlength : (texts.map (· ++ [c])).length ≤ limit := by rwa [List.length_map]
        rw [show (Visitor.expanding limit).literal texts [c] = texts.map (· ++ [c]) from rfl,
          ih inside hlength, Pieces.mapFirst_mapFirst, Pieces.mapFirst, Pieces.mapFirst,
          crossUpTo_map_append]
  | group content rest ihcontent ihrest =>
      have hgroup : ∀ alternatives, (Visitor.expanding limit).group texts alternatives () =
          some (crossUpTo limit texts (chainUpTo limit alternatives.toList), ()) := fun _ => rfl
      rw [visit?, Visitor.expanding_start, ihcontent true hstart,
        mapFirst_pieceExpansions hlimit]
      dsimp only [bind, Option.bind_some]
      -- Both ways keep the first texts, since each choice behind the group ends in some text.
      rw [hgroup, Option.bind_some, ihrest inside (length_crossUpTo_le _ _ _), pieceExpansions,
        Pieces.mapFirst_mapFirst, Pieces.mapFirst, Pieces.mapFirst,
        crossUpTo_assoc _ _ (rest.pieceExpansions_ne_nil hlimit inside)]

end Expanding

section Sampling

/-- Where a walk stands, with its source of words as a source of choices. -/
def Walk.draws (w : Walk) : Draws Source := ⟨w.source, w.resolved, w.truncated⟩

/-- The sampler goes on behind a group as the walk does: what is chosen is one of the
alternatives. -/
theorem Visitor.sampling_group (shown : List Char) (alternatives : Pieces (List Char)) (w : Walk) :
    (Visitor.sampling Source.choose?).group shown alternatives w.draws =
      (w.resolve? alternatives).map fun (chosen, w) => (shown ++ chosen, w.draws) := by
  rw [Walk.resolve?]
  dsimp only [Visitor.sampling, Walk.draws]
  split
  next =>
    cases hchoose : w.source.choose? alternatives.toList.length with
    | none => rfl
    | some next =>
        have hi : next.1 < alternatives.toList.length :=
          Source.choose?_lt (List.length_pos_iff.mpr alternatives.toList_ne_nil) hchoose
        dsimp only [bind, pure, Option.bind_some, Option.map_some]
        rw [List.getD_eq_getElem?_getD, List.getElem?_eq_getElem hi]
        rfl
  next => rfl

/-- Sampling group after group is the walk over a template. -/
theorem Template.visit?_sampling (inside : Bool) (t : Template) (shown : List Char) (w : Walk) :
    t.visit? (.sampling Source.choose?) inside shown w.draws =
      (t.walk? inside w).map fun (pieces, w) => (pieces.mapFirst (shown ++ ·), w.draws) := by
  have hstart : ∀ p : Pieces (List Char), p.mapFirst ([] ++ ·) = p := fun _ => rfl
  induction t generalizing inside shown w with
  | empty => simp [visit?, walk?, Pieces.mapFirst, Pieces.single]
  | char c rest ih =>
      rw [visit?, walk?]
      by_cases hcut : cuts inside c
      · rw [if_pos hcut, Visitor.sampling_start, ih]
        cases rest.walk? inside w with
        | none => rfl
        | some next =>
            dsimp only [bind, pure, Option.bind_some, Option.map_some]
            rw [if_pos hcut, hstart, Pieces.mapFirst_cut, List.append_nil]
      · rw [if_neg hcut, show (Visitor.sampling Source.choose?).literal shown [c] =
          shown ++ [c] from rfl, ih]
        cases rest.walk? inside w with
        | none => rfl
        | some next => simp [hcut, Pieces.mapFirst_mapFirst]
  | group content rest ihcontent ihrest =>
      -- Content, choice and rest one after another; a walk that fails does so at the same place.
      rw [visit?, walk?, Visitor.sampling_start, ihcontent]
      cases content.walk? true w with
      | none => rfl
      | some inner =>
          dsimp only [bind, pure, Option.bind_some, Option.map_some]
          rw [hstart, Visitor.sampling_group]
          cases inner.2.resolve? inner.1 with
          | none => rfl
          | some chosen =>
              dsimp only [Option.bind_some, Option.map_some]
              rw [ihrest]
              cases rest.walk? inside chosen.2 with
              | none => rfl
              | some right => simp [Pieces.mapFirst_mapFirst]

end Sampling

section Blocks

/-- A literal run in front of blocks that start with a group becomes one block. -/
theorem foldr_consChar (run : List Char) {blocks : List Block}
    (h : ∀ b ∈ blocks.head?, b.isGroup) :
    run.foldr Block.consChar blocks = if run = [] then blocks else .literal run :: blocks := by
  induction run with
  | nil => rfl
  | cons c run ih =>
      rw [List.foldr_cons, ih]
      by_cases hrun : run = []
      · subst hrun
        cases blocks with
        | nil => rfl
        | cons b blocks =>
            cases b with
            | literal text => cases h _ rfl
            | group raw alternatives count => rfl
      · rw [if_neg hrun, if_neg (List.cons_ne_nil _ _)]
        rfl

/-- The spans of the sequences of a stretch are those of the pieces that it lays out. -/
theorem Template.map_span_later (inside : Bool) (run position number : Nat) (t : Template) :
    let s := t.stretch inside run position number
    let p := (t.sections inside).map render
    s.stop = position + Text.byteLength p.first ∧
      s.later.map Sequence.span = Pieces.laterSpans s.stop p.others := by
  induction t generalizing run position number with
  | empty =>
      rw [sections_empty]
      exact ⟨rfl, rfl⟩
  | char c rest ih =>
      rw [sections_char, stretch]
      split
      -- A separator ends the sequence here, and the next one starts right behind it.
      next =>
        obtain ⟨hstop, hlater⟩ := ih (position + c.utf8Size) (position + c.utf8Size)
          (number + (runNode run position).length)
        refine ⟨rfl, ?_⟩
        rw [Pieces.map_cut]
        dsimp only [Stretch.sequences, Pieces.cut, Pieces.laterSpans]
        rw [List.map_cons, hlater, hstop]
      next =>
        obtain ⟨hstop, hlater⟩ := ih run (position + c.utf8Size) number
        rw [map_render_mapFirst_char]
        refine ⟨?_, hlater⟩
        rw [hstop, Nat.add_assoc]
        rfl
  | group content rest _ ih =>
      obtain ⟨hstop, hlater⟩ := ih (position + content.byteLength + 2)
        (position + content.byteLength + 2) _
      rw [sections_group, map_render_mapFirst_group]
      refine ⟨hstop.trans ?_, hlater⟩
      rw [Pieces.mapFirst, byteLength_append, byteLength_braces, Nat.add_assoc position,
        Nat.add_assoc]

variable {l : Layout} {text run : List Char} {start position number : Nat} {t : Template}

/-- The sequences of a stretch cover the pieces of the text that it lays out. -/
theorem forall₂_covers_sequences (inside : Bool) (number : Nat)
    (hstands : t.StandsAt text position) :
    List.Forall₂ (Span.Covers · text ·)
      (((t.stretch inside position position number).sequences position).map Sequence.span)
      ((t.sections inside).map render).toList := by
  obtain ⟨hstop, hlater⟩ := t.map_span_later inside position position number
  obtain ⟨after, hfrom⟩ := hstands
  rw [← join_map_render_sections inside t] at hfrom
  have hcovers := Pieces.forall₂_covers hfrom
  rw [Stretch.sequences, List.map_cons, hlater, hstop]
  exact hcovers

theorem Template.StandsAt.covers_group {content rest : Template}
    (h : (group content rest).StandsAt text position) :
    Span.Covers ⟨position, position + content.byteLength + 2⟩ text
      ('{' :: content.render ++ ['}']) := by
  obtain ⟨after, hfrom⟩ := h
  refine ⟨rest.render ++ after, ?_, ?_⟩
  · rw [hfrom, render]
    simp
  · rw [byteLength_braces, Nat.add_assoc]

theorem mapM_block?_runChild (hsits : Sits l.nodes number (runNode start position))
    (hcovers : Span.Covers ⟨start, position⟩ text run) :
    (runChild start position number).mapM (l.block? text) =
      some (if run = [] then [] else [.literal run]) := by
  unfold runChild runNode at *
  obtain ⟨_, _, hstop⟩ := id hcovers
  dsimp only at hstop
  split
  next hlt =>
    have hrun : run ≠ [] := by
      rintro rfl
      rw [byteLength_nil] at hstop
      omega
    rw [if_pos hlt] at hsits
    rw [if_neg hrun, List.mapM_cons, Layout.block?, hsits.head]
    dsimp only [bind, Option.bind_some]
    rw [slice?_eq_some_iff.mpr hcovers]
    rfl
  next hge =>
    obtain rfl : run = [] := eq_nil_of_byteLength (by omega)
    rfl

/-- The node of a group is the block of its template. -/
theorem block?_group {content rest : Template} {index first : Nat}
    (hstands : (group content rest).StandsAt text position)
    (hinner : Sits l.nodes first (content.stretch true (position + 1) (position + 1) first).nodes)
    (hnode : l.nodes[index]? = some (.group ⟨position, position + content.byteLength + 2⟩
      ((content.stretch true (position + 1) (position + 1) first).sequences (position + 1)))) :
    l.block? text index = some (.group ('{' :: content.render ++ ['}']) content.pieces.toList
      (groupVariations (content.pieceVariations true))) := by
  have hraw := hstands.covers_group
  have hpieces : ((content.stretch true (position + 1) (position + 1) first).sequences
      (position + 1)).mapM (fun a => slice? text a.span) = some content.pieces.toList := by
    have hslices := mapM_slice? (forall₂_covers_sequences true first hstands.content_group)
    rw [List.mapM_map] at hslices
    exact hslices
  have hcounts : l.visitAlternatives? text .counting
      ((content.stretch true (position + 1) (position + 1) first).sequences (position + 1)) () =
        some (content.pieceVariations true, ()) := by
    rw [Layout.visitAlternatives?_sequences, visitStretch?_eq _ true hstands.content_group hinner
      hstands.content_group.covers_nil]
    exact (content.visit?_counting true (by decide)).trans
      (congrArg (fun p => some (p, ())) (content.mapFirst_pieceVariations true))
  rw [Layout.block?, hnode]
  dsimp only [bind, Option.bind_some]
  rw [slice?_eq_some_iff.mpr hraw]
  dsimp only [Option.bind_some]
  rw [hpieces]
  dsimp only [Option.bind_some]
  rw [hcounts]
  rfl

/-- The blocks of the nodes of a stretch are the blocks of the template. -/
theorem mapM_block?_stretch (hstands : t.StandsAt text position)
    (hsits : Sits l.nodes number (t.stretch false start position number).nodes)
    (hcovers : Span.Covers ⟨start, position⟩ text run) :
    (t.stretch false start position number).children.mapM (l.block? text) =
      some (run.foldr Block.consChar t.blocks) := by
  induction t generalizing start position number run with
  | empty =>
      rw [stretch, mapM_block?_runChild hsits hcovers, blocks, foldr_consChar]
      rintro b ⟨⟩
  | char c rest ih =>
      have hrest := ih hstands.rest_char hsits (hcovers.append_char hstands.charAt?_char)
      rw [List.foldr_append] at hrest
      exact hrest
  | group content rest _ ih =>
      obtain ⟨hliteral, hinner, hnode, hafter⟩ := hsits.group
      have hrest := ih hstands.rest_group hafter hstands.rest_group.covers_nil
      rw [List.foldr_nil] at hrest
      rw [stretch]
      dsimp only
      rw [List.mapM_append, mapM_block?_runChild hliteral hcovers, List.mapM_cons,
        block?_group hstands hinner hnode, hrest, blocks, foldr_consChar]
      · dsimp only [bind, pure, Option.bind_some]
        split <;> rfl
      · rintro b ⟨⟩
        rfl

end Blocks

namespace Layout

/-- Counting through the layout gives the count of the template. -/
theorem variations?_layout (t : Template) : t.layout.variations? t.render = some t.variations := by
  rw [variations?, visitRoot?_layout, Visitor.counting_start, t.visit?_counting false (by decide),
    t.mapFirst_pieceVariations]
  rfl

/-- Listing through the layout gives the bounded enumeration of the template. -/
theorem expansions?_layout (t : Template) (limit : Nat) :
    t.layout.expansions? t.render limit = some (t.expansions limit) := by
  rw [expansions?]
  split
  next hzero =>
    rw [hzero, expansions, List.take_zero]
  next hne =>
    have hlimit := Nat.pos_of_ne_zero hne
    have hstart : ([[]] : List (List Char)).length ≤ limit := hlimit
    rw [visitRoot?_layout, Visitor.expanding_start, t.visit?_expanding hlimit false hstart,
      t.mapFirst_pieceExpansions hlimit, expansions,
      List.take_of_length_le (t.length_pieceExpansions_le hlimit false)]
    rfl

/-- Sampling through the layout is the random expansion of the template. -/
theorem sample?_layout (t : Template) (source : Source) :
    t.layout.sample? t.render Source.choose? source = t.sample? source := by
  have hvisit := t.visit?_sampling false [] ⟨source, 0, false⟩
  have hroot := visitRoot?_layout (.sampling Source.choose?) t (Walk.draws ⟨source, 0, false⟩)
  rw [Visitor.sampling_start, hvisit] at hroot
  have hstart : (⟨source, 0, false⟩ : Draws Source) = Walk.draws ⟨source, 0, false⟩ := rfl
  rw [Layout.sample?, hstart, hroot, Template.sample?]
  cases t.walk? false ⟨source, 0, false⟩ <;> rfl

/-- The blocks that the layout shows are those of the template. -/
theorem blocks?_layout (t : Template) : t.layout.blocks? t.render = some t.blocks :=
  mapM_block?_stretch t.standsAt_render t.sits_layout t.standsAt_render.covers_nil

/-- Every source whose choices settle and are among the alternatives gives a random expansion. -/
theorem exists_sample? {σ : Type} {choose? : Nat → σ → Option (Nat × σ)}
    (hchoose : ∀ n s, 0 < n → ∃ i after, choose? n s = some (i, after) ∧ i < n) (t : Template)
    (source : σ) :
    ∃ sample after, t.layout.sample? t.render choose? source = some (sample, after) := by
  have hgroup : ∀ shown alternatives s, ∃ next after,
      (Visitor.sampling choose?).group shown alternatives s = some (next, after) := by
    intro shown alternatives s
    dsimp only [Visitor.sampling]
    split
    next =>
      have hpos : 0 < alternatives.toList.length :=
        List.length_pos_iff.mpr alternatives.toList_ne_nil
      obtain ⟨i, after, hchosen, hi⟩ := hchoose _ s.source hpos
      rw [hchosen]
      dsimp only [bind, pure, Option.bind_some]
      rw [List.getElem?_eq_getElem hi]
      exact ⟨_, _, rfl⟩
    next => exact ⟨_, _, rfl⟩
  obtain ⟨pieces, after, hvisit⟩ := exists_visit?_eq_some hgroup false t [] ⟨source, 0, false⟩
  rw [Layout.sample?, visitRoot?_layout, Visitor.sampling_start, hvisit]
  exact ⟨_, _, rfl⟩

end Layout

end Campaign
