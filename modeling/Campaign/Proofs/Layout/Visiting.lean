import Campaign.Proofs.Layout.Tiling
import Campaign.Proofs.Text.Slices

/-!
# Visiting the nodes of a layout

Counting, listing and sampling all go through a layout in the same way: they look up the nodes of a
sequence by their numbers, cut literal runs out of the text, visit the alternatives of a group one
after another, and read the separators between them off the text. With every access checked a visit
of a layout is the same as one of the template that was laid out, in which nothing is looked up.
-/

namespace Campaign

open Text Brace Template

/-- What a visit makes of the runs and groups that it passes, from left to right. -/
structure Visitor (σ α : Type) where
  /-- What there is at the start of a sequence. -/
  start : α
  literal : α → List Char → α
  /-- Goes on behind a group, given what was made of its alternatives; nothing when it fails. -/
  group : α → Pieces α → σ → Option (α × σ)
  literal_nil : ∀ a, literal a [] = a
  literal_append : ∀ a first second,
    literal a (first ++ second) = literal (literal a first) second

variable {σ α : Type}

/-- Visits a template, which has several pieces only inside a group. -/
def Template.visit? (v : Visitor σ α) (inside : Bool) : Template → α → σ → Option (Pieces α × σ)
  | empty, a, s => some (.single a, s)
  | char c rest, a, s =>
    if cuts inside c then
      (rest.visit? v inside v.start s).map fun (others, s) => (others.cut a c, s)
    else rest.visit? v inside (v.literal a [c]) s
  | group content rest, a, s => do
    let (alternatives, s) ← content.visit? v true v.start s
    let (a, s) ← v.group a alternatives s
    rest.visit? v inside a s

namespace Layout

mutual

/-- Visits the nodes with some numbers; nothing when one of them is not there or covers no part of
the text. -/
def visitNodes? (l : Layout) (text : List Char) (v : Visitor σ α) (numbers : List Nat) (a : α)
    (s : σ) : Option (α × σ) := do
  match numbers with
  | [] => return (a, s)
  | number :: numbers =>
    match ← l.nodes[number]? with
    | .text span =>
      let run ← slice? text span
      l |>.visitNodes? text v numbers (v.literal a run) s
    | .group _ alternatives =>
      let (results, s) ← l |>.visitAlternatives? text v alternatives s
      let (a, s) ← v.group a results s
      l |>.visitNodes? text v numbers a s
partial_fixpoint

/-- Visits the alternatives of a group; nothing when there are none. -/
def visitAlternatives? (l : Layout) (text : List Char) (v : Visitor σ α)
    (alternatives : List Sequence) (s : σ) : Option (Pieces α × σ) := do
  match alternatives with
  | [] => none
  | first :: later =>
    let (a, s) ← l |>.visitNodes? text v first.nodes v.start s
    l |>.visitLater? text v a first.span.stop later s
partial_fixpoint

/-- Visits the alternatives behind one, each of which has a separator before it. -/
def visitLater? (l : Layout) (text : List Char) (v : Visitor σ α) (a : α) (stop : Nat)
    (later : List Sequence) (s : σ) : Option (Pieces α × σ) := do
  match later with
  | [] => return (.single a, s)
  | next :: later =>
    let byte ← (bytes text)[stop]?
    let (others, s) ← l |>.visitAlternatives? text v (next :: later) s
    return (others.cut a (Char.ofNat byte.toNat), s)
partial_fixpoint

end

/-- Visits all that is in a layout. -/
def visitRoot? (l : Layout) (text : List Char) (v : Visitor σ α) (s : σ) : Option (α × σ) :=
  l.visitNodes? text v l.root.nodes v.start s

section Steps

variable {l : Layout} {text run : List Char} {v : Visitor σ α} {start position number : Nat}

/-- A literal run is taken in, if there is a node for it or not. -/
theorem visitNodes?_runChild (hsits : Sits l.nodes number (runNode start position))
    (hcovers : Span.Covers ⟨start, position⟩ text run) (numbers : List Nat) (a : α) (s : σ) :
    l.visitNodes? text v (runChild start position number ++ numbers) a s =
      l.visitNodes? text v numbers (v.literal a run) s := by
  unfold runChild runNode at *
  split
  next hlt =>
    rw [if_pos hlt] at hsits
    rw [List.singleton_append, visitNodes?, hsits.head]
    dsimp only [bind, Option.bind_some]
    rw [slice?_eq_some_iff.mpr hcovers]
    rfl
  next hge =>
    obtain ⟨_, _, hstop⟩ := hcovers
    dsimp only at hstop
    obtain rfl : run = [] := eq_nil_of_byteLength (by omega)
    rw [v.literal_nil]
    rfl

/-- Visits the rest of a stretch, from inside one sequence on. -/
def visitStretch? (l : Layout) (text : List Char) (v : Visitor σ α) (stretch : Stretch) (a : α)
    (s : σ) : Option (Pieces α × σ) := do
  let (a, s) ← l.visitNodes? text v stretch.children a s
  l.visitLater? text v a stretch.stop stretch.later s

/-- Visiting the alternatives of a group is visiting the stretch of its content. -/
theorem visitAlternatives?_sequences (stretch : Stretch) (start : Nat) (s : σ) :
    l.visitAlternatives? text v (stretch.sequences start) s =
      l.visitStretch? text v stretch v.start s := by
  rw [Stretch.sequences, visitAlternatives?]
  rfl

end Steps

end Layout

theorem Template.StandsAt.covers_nil {t : Template} {text : List Char} {position : Nat}
    (h : t.StandsAt text position) : Span.Covers ⟨position, position⟩ text [] := by
  obtain ⟨after, hfrom⟩ := h
  exact ⟨_, hfrom, rfl⟩

/-- A separator is one byte, which is the character. -/
theorem charOfByte_of_isSeparator {c : Char} (h : isSeparator c) :
    Char.ofNat (UInt8.ofNat c.toNat).toNat = c := by
  rcases Bool.or_eq_true_iff.mp h with h | h <;> rw [beq_iff_eq.mp h] <;> rfl

namespace Template

/-- Visiting a stretch of a layout is visiting the template that it lays out. -/
theorem visitStretch?_eq (v : Visitor σ α) (inside : Bool) {l : Layout} {text run : List Char}
    {start position number : Nat} {t : Template} (hstands : t.StandsAt text position)
    (hsits : Sits l.nodes number (t.stretch inside start position number).nodes)
    (hcovers : Span.Covers ⟨start, position⟩ text run) (a : α) (s : σ) :
    l.visitStretch? text v (t.stretch inside start position number) a s =
      t.visit? v inside (v.literal a run) s := by
  -- Along the template; the run before the position is what has not become a node yet.
  induction t generalizing inside start position number run a s with
  | empty =>
      have hchild := Layout.visitNodes?_runChild (v := v) hsits hcovers [] a s
      rw [List.append_nil] at hchild
      rw [stretch, Layout.visitStretch?, hchild, Layout.visitNodes?]
      dsimp only [bind, pure, Option.bind_some]
      rw [Layout.visitLater?]
      rfl
  | char c rest ih =>
      have hrest := hstands.rest_char
      rw [stretch] at hsits ⊢
      rw [visit?]
      split at hsits
      next hcut =>
        have hseparator : isSeparator c := (Bool.and_eq_true_iff.mp hcut).2
        -- The separator is read off the text as one byte, and the next sequence starts behind it.
        have hbyte := bytes_getElem? hstands.charAt?_char (utf8Size_of_isSeparator hseparator)
        have hlater := ih inside hrest hsits.right hrest.covers_nil v.start s
        have hchild := Layout.visitNodes?_runChild (v := v) hsits.left hcovers [] a s
        rw [List.append_nil] at hchild
        rw [if_pos hcut, if_pos hcut, Layout.visitStretch?, hchild, Layout.visitNodes?]
        dsimp only [bind, pure, Option.bind_some]
        rw [Stretch.sequences, Layout.visitLater?, hbyte]
        dsimp only [bind, pure, Option.bind_some]
        rw [← Stretch.sequences, Layout.visitAlternatives?_sequences, hlater, v.literal_nil,
          charOfByte_of_isSeparator hseparator, Option.map_eq_bind]
        rfl
      next hcut =>
        have hcovers := hcovers.append_char hstands.charAt?_char
        rw [if_neg hcut, if_neg hcut, ih inside hrest hsits hcovers, v.literal_append]
  | group content rest ihcontent ihrest =>
      obtain ⟨hliteral, hinner, hnode, hafter⟩ := hsits.group
      have hempty := hstands.content_group.covers_nil
      have hcontent := ihcontent true hstands.content_group hinner hempty v.start s
      rw [stretch, visit?, Layout.visitStretch?]
      dsimp only
      rw [Layout.visitNodes?_runChild hliteral hcovers, Layout.visitNodes?, hnode]
      dsimp only [bind, Option.bind_some]
      -- The alternatives, what the visitor makes of the group, and the nodes behind it.
      rw [Layout.visitAlternatives?_sequences, hcontent, v.literal_nil, Option.bind_assoc]
      apply Option.bind_congr
      rintro ⟨alternatives, s⟩ _
      rw [Option.bind_assoc]
      apply Option.bind_congr
      rintro ⟨a, s⟩ _
      have hrest := ihrest inside hstands.rest_group hafter hstands.rest_group.covers_nil a s
      rw [v.literal_nil] at hrest
      exact hrest

/-- Visiting the layout of a template is visiting the template. -/
theorem visitRoot?_layout (v : Visitor σ α) (t : Template) (s : σ) :
    t.layout.visitRoot? t.render v s =
      (t.visit? v false v.start s).map fun (pieces, s) => (pieces.first, s) := by
  have hvisit := visitStretch?_eq v false t.standsAt_render t.sits_layout
    t.standsAt_render.covers_nil v.start s
  rw [v.literal_nil, Layout.visitStretch?, (t.stretch_outside 0 0 0).1] at hvisit
  rw [← hvisit, Layout.visitRoot?]
  have hchildren : (t.stretch false 0 0 0).children = t.layout.root.nodes := rfl
  rw [hchildren]
  cases t.layout.visitNodes? t.render v t.layout.root.nodes v.start s with
  | none => rfl
  | some root =>
      dsimp only [bind, Option.bind_some]
      rw [Layout.visitLater?]
      rfl

/-- A visit does not fail when the visitor never fails behind a group. -/
theorem exists_visit?_eq_some {v : Visitor σ α}
    (hgroup : ∀ a alternatives s, ∃ b after, v.group a alternatives s = some (b, after))
    (inside : Bool) (t : Template) (a : α) (s : σ) :
    ∃ pieces after, t.visit? v inside a s = some (pieces, after) := by
  induction t generalizing inside a s with
  | empty => exact ⟨_, _, rfl⟩
  | char c rest ih =>
      rw [visit?]
      split
      next =>
        obtain ⟨pieces, after, hrest⟩ := ih inside v.start s
        rw [hrest]
        exact ⟨_, _, rfl⟩
      next => exact ih inside _ s
  | group content rest ihcontent ihrest =>
      obtain ⟨alternatives, inner, hcontent⟩ := ihcontent true v.start s
      obtain ⟨b, behind, hbehind⟩ := hgroup a alternatives inner
      rw [visit?, hcontent]
      dsimp only [bind, Option.bind_some]
      rw [hbehind]
      exact ihrest inside b behind

end Template

end Campaign
