import Campaign.Proofs.Layout.Arena
import Campaign.Proofs.Template.Depth
import Campaign.Proofs.Template.Position
import Mathlib.Data.List.Chain

/-!
# Layouts lose nothing

The nodes of every sequence tile it, and the alternatives of every group tile what stands between
its braces, up to one separator between each two. A literal node inside a group has neither a brace
nor a separator, and no literal node has a brace of a matched pair.
-/

namespace Campaign

open Text Brace

/-- Non-empty spans follow one another without a gap from one position to another. -/
def Tiles : Nat → List Span → Nat → Prop
  | start, [], stop => start = stop
  | start, s :: rest, stop => s.start = start ∧ s.start < s.stop ∧ Tiles s.stop rest stop

/-- Sequences follow a position, one separator before each, and the last one ends at another. -/
def Separated (text : List Char) : Nat → List Sequence → Nat → Prop
  | start, [], stop => start = stop
  | start, s :: rest, stop =>
    (∃ c, charAt? text start = some c ∧ isSeparator c) ∧ s.span.start = start + 1 ∧
      Separated text s.span.stop rest stop

/-- A character that means nothing in a group. -/
def isOrdinary (c : Char) : Prop := c ≠ '{' ∧ c ≠ '}' ∧ ¬ isSeparator c

/-- A span cuts a run of characters out of a text. -/
def Span.Covers (s : Span) (text run : List Char) : Prop :=
  ∃ after, fromByte? text s.start = some (run ++ after) ∧ s.stop = s.start + byteLength run

/-- A span covers a run without braces and without characters that cut. -/
def Span.CoversPlain (inside : Bool) (text : List Char) (s : Span) : Prop :=
  ∃ run, s.Covers text run ∧ ∀ c ∈ run, c ≠ '{' ∧ c ≠ '}' ∧ ¬ Template.cuts inside c

theorem Span.Covers.append_char {run stop : Nat} {text literal : List Char} {c : Char}
    (h : Span.Covers ⟨run, stop⟩ text literal) (hchar : charAt? text stop = some c) :
    Span.Covers ⟨run, stop + c.utf8Size⟩ text (literal ++ [c]) := by
  obtain ⟨after, hfrom, hstop⟩ := h
  obtain ⟨rest, hrest⟩ := charAt?_eq_some_iff.mp hchar
  have hafter : after = c :: rest := by
    have hlater := fromByte?_add hfrom
    rw [← hstop, hrest] at hlater
    exact (Option.some.inj hlater).symm
  refine ⟨rest, ?_, ?_⟩
  · rw [hfrom, hafter, List.append_assoc]
    rfl
  · simp only [byteLength_append, byteLength_cons, byteLength_nil] at hstop ⊢
    omega

theorem Template.StandsAt.coversPlain {t : Template} {text : List Char} {position : Nat}
    (h : t.StandsAt text position) (inside : Bool) :
    Span.CoversPlain inside text ⟨position, position⟩ := by
  obtain ⟨after, hfrom⟩ := h
  exact ⟨[], ⟨_, hfrom, rfl⟩, List.forall_mem_nil _⟩

/-- A plain run stays plain with a character that is no brace and does not cut. -/
theorem Span.CoversPlain.append_char {inside : Bool} {run stop : Nat} {text : List Char} {c : Char}
    (h : Span.CoversPlain inside text ⟨run, stop⟩) (hchar : charAt? text stop = some c)
    (hplain : c ≠ '{' ∧ c ≠ '}' ∧ ¬ Template.cuts inside c) :
    Span.CoversPlain inside text ⟨run, stop + c.utf8Size⟩ := by
  obtain ⟨literal, hcovers, hliteral⟩ := h
  refine ⟨literal ++ [c], hcovers.append_char hchar, ?_⟩
  exact List.forall_mem_append.mpr ⟨hliteral, List.forall_mem_singleton.mpr hplain⟩

/-- The nodes of a sequence tile it, no two literal ones next to each other. -/
structure Sequence.Tiled (arena : List Node) (s : Sequence) (children : List Node) : Prop where
  numbers_eq : s.nodes.map (arena[·]?) = children.map some
  tiles : Tiles s.span.start (children.map Node.span) s.span.stop
  isChain : children.IsChain fun a b => a.isGroup ∨ b.isGroup

/-- A group stands between braces, and its alternatives share what is between them. -/
structure Span.Bracketed (text : List Char) (s : Span) (alternatives : List Sequence) : Prop where
  two_le : s.start + 2 ≤ s.stop
  opened : charAt? text s.start = some '{'
  closed : charAt? text (s.stop - 1) = some '}'
  separated : ∃ first others, alternatives = first :: others ∧ first.span.start = s.start + 1 ∧
    Separated text first.span.stop others (s.stop - 1)

/-- A layout covers its text and keeps the grammar of groups. -/
structure Layout.Lossless (text : List Char) (l : Layout) : Prop where
  root_span : l.root.span = ⟨0, byteLength text⟩
  tiled : ∀ s ∈ l.sequences, ∃ children, s.Tiled l.nodes children
  bracketed : ∀ s alternatives, .group s alternatives ∈ l.nodes → s.Bracketed text alternatives
  ordinary : ∀ s alternatives, .group s alternatives ∈ l.nodes → ∀ a ∈ alternatives,
    ∀ n ∈ a.nodes, ∀ literal, l.nodes[n]? = some (.text literal) →
      ∃ run, literal.Covers text run ∧ ∀ c ∈ run, isOrdinary c
  unmatched : ∀ literal, .text literal ∈ l.nodes → ∀ i e, findClose? text i = some e →
    ¬ (literal.start ≤ i ∧ i < literal.stop) ∧ ¬ (literal.start < e ∧ e ≤ literal.stop)

/-- A part of an arena fills the numbers from a given one on. -/
def Sits (arena : List Node) (number : Nat) (nodes : List Node) : Prop :=
  nodes <+: arena.drop number

theorem Sits.left {arena : List Node} {number : Nat} {first second : List Node}
    (h : Sits arena number (first ++ second)) : Sits arena number first :=
  (List.prefix_append first second).trans h

theorem Sits.right {arena : List Node} {number : Nat} {first second : List Node}
    (h : Sits arena number (first ++ second)) : Sits arena (number + first.length) second := by
  obtain ⟨rest, hrest⟩ := h
  refine ⟨rest, ?_⟩
  rw [← List.drop_drop, ← hrest, List.append_assoc, List.drop_left]

theorem Sits.head {arena : List Node} {number : Nat} {node : Node} {nodes : List Node}
    (h : Sits arena number (node :: nodes)) : arena[number]? = some node := by
  obtain ⟨rest, hrest⟩ := h
  rw [← Nat.add_zero number, ← List.getElem?_drop, ← hrest]
  rfl

/-- Where the parts of a stretch around a group sit. -/
theorem Sits.group {arena : List Node} {number : Nat} {before inside after : List Node}
    {node : Node} (h : Sits arena number (before ++ inside ++ node :: after)) :
    Sits arena number before ∧ Sits arena (number + before.length) inside ∧
      arena[number + before.length + inside.length]? = some node ∧
        Sits arena (number + before.length + inside.length + 1) after := by
  have hright := h.right
  rw [List.length_append, ← Nat.add_assoc] at hright
  have hnode : Sits arena (number + before.length + inside.length) ([node] ++ after) := hright
  exact ⟨h.left.left, h.left.right, hright.head, hnode.right⟩

theorem Sits.upTo_group {arena : List Node} {number : Nat} {before inside after : List Node}
    {node : Node} (h : Sits arena number (before ++ inside ++ node :: after)) :
    Sits arena (number + before.length) (inside ++ [node]) := by
  rw [List.append_assoc, ← List.singleton_append, ← List.append_assoc inside] at h
  exact h.right.left

namespace Template

theorem runChild_map {arena : List Node} {run stop number : Nat}
    (h : Sits arena number (runNode run stop)) :
    (runChild run stop number).map (arena[·]?) = (runNode run stop).map some := by
  unfold runChild runNode at *
  split
  next hlt =>
    rw [if_pos hlt] at h
    rw [List.map_singleton, List.map_singleton, h.head]
  next => rfl

/-- A run has one node at most, so no two literal ones meet. -/
theorem isChain_runNode (run stop : Nat) :
    (runNode run stop).IsChain fun a b => a.isGroup ∨ b.isGroup := by
  unfold runNode
  split
  · exact List.isChain_singleton _
  · exact List.isChain_nil

theorem tiles_runNode {run position stop : Nat} {spans : List Span} (hrun : run ≤ position)
    (h : Tiles position spans stop) :
    Tiles run ((runNode run position).map Node.span ++ spans) stop := by
  unfold runNode
  split
  next hlt => exact ⟨rfl, hlt, h⟩
  next hge =>
    have heq : run = position := by omega
    rw [heq]
    exact h

/-- A run alone tiles the sequence that it makes up. -/
theorem tiled_runNode {arena : List Node} {run position number : Nat} (hrun : run ≤ position)
    (hsits : Sits arena number (runNode run position)) :
    Sequence.Tiled arena ⟨⟨run, position⟩, runChild run position number⟩
      (runNode run position) := by
  refine ⟨runChild_map hsits, ?_, isChain_runNode run position⟩
  rw [← List.append_nil (List.map _ _)]
  exact tiles_runNode hrun rfl

/-- The sequences of a stretch are tiled by nodes that the stretch itself adds to the arena. -/
theorem stretch_tiled (inside : Bool) {arena : List Node} {run position number : Nat} (t : Template)
    (hrun : run ≤ position)
    (hsits : Sits arena number (t.stretch inside run position number).nodes) :
    ∀ s ∈ (t.stretch inside run position number).sequences run, ∃ children,
      s.Tiled arena children := by
  revert hrun hsits
  fun_induction stretch inside run position number t with
  | case1 inside run position number =>
      intro hrun hsits
      exact List.forall_mem_singleton.mpr ⟨_, tiled_runNode hrun hsits⟩
  | case2 inside run position number c rest after hcut text s ih =>
      intro hrun hsits
      refine List.forall_mem_cons.mpr ⟨⟨_, tiled_runNode hrun hsits.left⟩, ?_⟩
      exact ih (Nat.le_refl after) hsits.right
  | case3 inside run position number c rest after hcut ih =>
      intro hrun hsits
      exact ih (by omega) hsits
  | case4 inside run position number content rest text inner index stop node s ihcontent ihrest =>
      intro hrun hsits
      obtain ⟨htext, _, hnode, hafter⟩ := hsits.group
      have hs := ihrest (Nat.le_refl stop) hafter
      obtain ⟨⟨children, hfirst⟩, hlater⟩ := List.forall_mem_cons.mp hs
      -- The run before the group, the group and the children after it make up one sequence.
      refine List.forall_mem_cons.mpr ⟨⟨text ++ node :: children, ?_, ?_, ?_⟩, hlater⟩
      · rw [List.map_append, List.map_append, List.map_cons, List.map_cons, runChild_map htext,
          hfirst.numbers_eq, hnode]
      · rw [List.map_append]
        refine tiles_runNode hrun ⟨rfl, ?_, hfirst.tiles⟩
        change position < stop
        omega
      · refine List.isChain_append.mpr ⟨isChain_runNode run position, ?_, ?_⟩
        · exact List.isChain_cons.mpr ⟨fun _ _ => Or.inl rfl, hfirst.isChain⟩
        · intro a ha b hb
          cases hb
          exact Or.inr rfl

/-- The sequences of a stretch share the text that it lays out, up to the separators. -/
theorem stretch_separated (inside : Bool) (run number : Nat) {position : Nat} {t : Template}
    {text : List Char} (hstands : t.StandsAt text position) :
    Separated text (t.stretch inside run position number).stop
      (t.stretch inside run position number).later (position + t.byteLength) := by
  fun_induction stretch inside run position number t with
  | case1 inside run position number => rfl
  | case2 inside run position number c rest after hcut literal s ih =>
      -- A sequence ends before the separator and the next one starts past it.
      have hseparator : isSeparator c := (Bool.and_eq_true_iff.mp hcut).2
      have hafter : after = position + 1 := by rw [← utf8Size_of_isSeparator hseparator]
      have hs := ih hstands.rest_char
      rw [Nat.add_assoc] at hs
      exact ⟨⟨c, hstands.charAt?_char, hseparator⟩, hafter, hs⟩
  | case3 inside run position number c rest after hcut ih =>
      have hs := ih hstands.rest_char
      rwa [Nat.add_assoc] at hs
  | case4 inside run position number content rest literal inner index stop node s _ ih =>
      have hs := ih hstands.rest_group
      have hend : stop + rest.byteLength = position + (group content rest).byteLength := by
        rw [byteLength]
        omega
      rwa [hend] at hs

/-- Every node for a group lays out a balanced content that stands between two braces, right after
the nodes of this content. -/
theorem exists_content_of_group_mem (inside : Bool) {arena : List Node} {run position number : Nat}
    {t : Template} {text : List Char} (hcanonical : t.Canonical)
    (hstands : t.StandsAt text position)
    (hsits : Sits arena number (t.stretch inside run position number).nodes)
    {span : Span} {alternatives : List Sequence}
    (hmem : .group span alternatives ∈ (t.stretch inside run position number).nodes) :
    ∃ content rest start first, content.Balanced ∧ content.depth < t.depth ∧
      (group content rest).StandsAt text start ∧
      span = ⟨start, start + content.byteLength + 2⟩ ∧
      alternatives = (content.stretch true (start + 1) (start + 1) first).sequences (start + 1) ∧
      Sits arena first ((content.stretch true (start + 1) (start + 1) first).nodes ++
        [.group span alternatives]) := by
  revert hsits hmem
  fun_induction stretch inside run position number t with
  | case1 inside run position number =>
      intro _ hmem
      cases (mem_runNode.mp hmem).2
  | case2 inside run position number c rest after hcut literal s ih =>
      intro hsits hmem
      rcases List.mem_append.mp hmem with hmem | hmem
      · cases (mem_runNode.mp hmem).2
      · exact ih hcanonical.2 hstands.rest_char hsits.right hmem
  | case3 inside run position number c rest after hcut ih =>
      exact ih hcanonical.2 hstands.rest_char
  | case4 inside run position number content rest before inner index stop node s ihcontent ihrest =>
      intro hsits hmem
      obtain ⟨_, hinside, _, hafter⟩ := hsits.group
      -- A node of this stretch is in the content, the group itself or behind the group.
      rcases List.mem_append.mp hmem with hmem | hmem
      · rcases List.mem_append.mp hmem with hmem | hmem
        · cases (mem_runNode.mp hmem).2
        · obtain ⟨core, after, start, first, hbalanced, hdepth, hgroup⟩ :=
            ihcontent hcanonical.1.canonical hstands.content_group hinside hmem
          refine ⟨core, after, start, first, hbalanced, ?_, hgroup⟩
          rw [depth]
          omega
      rcases List.mem_cons.mp hmem with heq | hmem
      · obtain ⟨rfl, rfl⟩ := Node.group.inj heq
        refine ⟨content, rest, position, _, hcanonical.1, ?_, hstands, rfl, rfl, ?_⟩
        · rw [depth]
          omega
        · exact hsits.upTo_group
      · obtain ⟨core, after, start, first, hbalanced, hdepth, hgroup⟩ :=
          ihrest hcanonical.2 hstands.rest_group hafter hmem
        refine ⟨core, after, start, first, hbalanced, ?_, hgroup⟩
        rw [depth]
        omega

theorem span_of_mem_runChild {arena : List Node} {run stop number n : Nat} {span : Span}
    (hn : n ∈ runChild run stop number) (hsits : Sits arena number (runNode run stop))
    (hfound : arena[n]? = some (.text span)) : span = ⟨run, stop⟩ := by
  unfold runChild runNode at *
  split at hn
  next hlt =>
    rw [if_pos hlt] at hsits
    rw [List.mem_singleton.mp hn, hsits.head] at hfound
    exact (Node.text.inj (Option.some.inj hfound)).symm
  next => cases hn

/-- In a balanced template the literal nodes of a stretch have neither braces nor characters that
cut. -/
theorem stretch_coversPlain (inside : Bool) {arena : List Node} {run position number : Nat}
    (start : Nat) {t : Template} {text : List Char} (hbalanced : t.Balanced)
    (hstands : t.StandsAt text position) (hcovers : Span.CoversPlain inside text ⟨run, position⟩)
    (hsits : Sits arena number (t.stretch inside run position number).nodes) :
    ∀ s ∈ (t.stretch inside run position number).sequences start, ∀ n ∈ s.nodes,
      ∀ literal, arena[n]? = some (.text literal) → literal.CoversPlain inside text := by
  have hrun : ∀ {inside run position number}, Span.CoversPlain inside text ⟨run, position⟩ →
      Sits arena number (runNode run position) → ∀ n ∈ runChild run position number,
        ∀ literal, arena[n]? = some (.text literal) → literal.CoversPlain inside text := by
    intro inside run position number hcovers hsits n hn literal hfound
    rw [span_of_mem_runChild hn hsits hfound]
    exact hcovers
  revert start hcovers hsits
  fun_induction stretch inside run position number t with
  | case1 inside run position number =>
      intro start hcovers hsits
      exact List.forall_mem_singleton.mpr (hrun hcovers hsits)
  | case2 inside run position number c rest after hcut nodes s ih =>
      intro start hcovers hsits
      refine List.forall_mem_cons.mpr ⟨hrun hcovers hsits.left, ?_⟩
      have hrest := hstands.rest_char
      exact ih hbalanced.2.2 hrest after (hrest.coversPlain inside) hsits.right
  | case3 inside run position number c rest after hcut ih =>
      -- The run goes on: the character neither is a brace nor cuts.
      intro start hcovers
      apply ih hbalanced.2.2 hstands.rest_char start
      exact hcovers.append_char hstands.charAt?_char ⟨hbalanced.1, hbalanced.2.1, hcut⟩
  | case4 inside run position number content rest nodes inner index stop node s _ =>
      rename_i ih
      intro start hcovers hsits
      obtain ⟨htext, _, hnode, hafter⟩ := hsits.group
      have hrest := hstands.rest_group
      have hs := ih hbalanced.2 hrest start (hrest.coversPlain inside) hafter
      obtain ⟨hfirst, hlater⟩ := List.forall_mem_cons.mp hs
      refine List.forall_mem_cons.mpr ⟨?_, hlater⟩
      refine List.forall_mem_append.mpr ⟨hrun hcovers htext, ?_⟩
      refine List.forall_mem_cons.mpr ⟨?_, hfirst⟩
      intro literal hfound
      exact Node.noConfusion (Option.some.inj (hnode.symm.trans hfound))

/-- A byte of a character that belongs to no group. -/
def LiteralAt (byte position : Nat) : Template → Prop
  | empty => False
  | char c rest =>
    (position ≤ byte ∧ byte < position + c.utf8Size) ∨
      rest.LiteralAt byte (position + c.utf8Size)
  | group content rest =>
    content.LiteralAt byte (position + 1) ∨
      rest.LiteralAt byte (position + content.byteLength + 2)

/-- The literal nodes of a stretch have the bytes of the run before it and its own literal ones. -/
theorem stretch_literalAt (inside : Bool) {run position number : Nat} {t : Template} {span : Span}
    (hmem : .text span ∈ (t.stretch inside run position number).nodes) {byte : Nat}
    (hstart : span.start ≤ byte) (hstop : byte < span.stop) :
    (run ≤ byte ∧ byte < position) ∨ t.LiteralAt byte position := by
  have hrun : ∀ {run position}, .text span ∈ runNode run position →
      run ≤ byte ∧ byte < position := by
    intro run position hmem
    obtain ⟨_, heq⟩ := mem_runNode.mp hmem
    rw [Node.text.inj heq] at hstart hstop
    exact ⟨hstart, hstop⟩
  revert hmem
  -- A byte before the position is in the run, one behind it in a literal of the template.
  fun_induction stretch inside run position number t with
  | case1 inside run position number =>
      intro hmem
      exact Or.inl (hrun hmem)
  | case2 inside run position number c rest after hcut literal s ih =>
      intro hmem
      rcases List.mem_append.mp hmem with hmem | hmem
      · exact Or.inl (hrun hmem)
      · rcases ih hmem with hbyte | hbyte
        · omega
        · exact Or.inr (Or.inr hbyte)
  | case3 inside run position number c rest after hcut ih =>
      intro hmem
      rcases ih hmem with hbyte | hbyte
      · by_cases hlt : byte < position
        · exact Or.inl ⟨hbyte.1, hlt⟩
        · exact Or.inr (Or.inl ⟨by omega, hbyte.2⟩)
      · exact Or.inr (Or.inr hbyte)
  | case4 inside run position number content rest before inner index stop node s ihcontent ihrest =>
      intro hmem
      rcases List.mem_append.mp hmem with hmem | hmem
      · rcases List.mem_append.mp hmem with hmem | hmem
        · exact Or.inl (hrun hmem)
        · rcases ihcontent hmem with hbyte | hbyte
          · omega
          · exact Or.inr (Or.inl hbyte)
      · rcases List.mem_cons.mp hmem with heq | hmem
        · exact Node.noConfusion heq
        · rcases ihrest hmem with hbyte | hbyte
          · omega
          · exact Or.inr (Or.inr hbyte)

theorem LiteralAt.bounds {byte position : Nat} {t : Template} (h : t.LiteralAt byte position) :
    position ≤ byte ∧ byte < position + t.byteLength := by
  induction t generalizing position with
  | empty => exact h.elim
  | char c rest ih =>
      rw [byteLength]
      rcases h with h | h
      · omega
      · have hbounds := ih h
        omega
  | group content rest ihcontent ihrest =>
      rw [byteLength]
      rcases h with h | h
      · have hbounds := ihcontent h
        omega
      · have hbounds := ihrest h
        omega

/-- A literal byte is neither the opening nor the closing brace of a group. -/
theorem LiteralAt.not_brace {byte position : Nat} {t : Template} (h : t.LiteralAt byte position)
    {span : Span} (hspan : span ∈ t.groupSpans position) :
    byte ≠ span.start ∧ byte + 1 ≠ span.stop := by
  induction t generalizing position with
  | empty => exact h.elim
  | char c rest ih =>
      rcases h with h | h
      · have hbounds := groupSpans_bounds (t := rest) hspan
        omega
      · exact ih h hspan
  | group content rest ihcontent ihrest =>
      rw [groupSpans] at hspan
      -- The byte and the span stand on different sides of a brace of the group or on the same side.
      rcases h with h | h
      · have hbyte := h.bounds
        rcases List.mem_append.mp hspan with hspan | hspan
        · rcases List.mem_cons.mp hspan with rfl | hspan
          · dsimp only
            omega
          · exact ihcontent h hspan
        · have hbounds := groupSpans_bounds hspan
          omega
      · have hbyte := h.bounds
        rcases List.mem_append.mp hspan with hspan | hspan
        · rcases List.mem_cons.mp hspan with rfl | hspan
          · dsimp only
            omega
          · have hbounds := groupSpans_bounds hspan
            omega
        · exact ihrest h hspan

/-- The stretch of a whole template fills its layout. -/
theorem sits_layout (t : Template) : Sits t.layout.nodes 0 (t.stretch false 0 0 0).nodes :=
  List.prefix_rfl

/-- A group of a layout is the layout of a balanced content that stands between two braces. -/
theorem Canonical.exists_content {t : Template} (h : t.Canonical) {span : Span}
    {alternatives : List Sequence} (hmem : .group span alternatives ∈ t.layout.nodes) :
    ∃ content rest start first, content.Balanced ∧ content.depth < t.depth ∧
      (group content rest).StandsAt t.render start ∧
      span = ⟨start, start + content.byteLength + 2⟩ ∧
      alternatives = (content.stretch true (start + 1) (start + 1) first).sequences (start + 1) ∧
      Sits t.layout.nodes first ((content.stretch true (start + 1) (start + 1) first).nodes ++
        [.group span alternatives]) :=
  exists_content_of_group_mem false h t.standsAt_render t.sits_layout hmem

theorem root_span (t : Template) : t.layout.root.span = ⟨0, Text.byteLength t.render⟩ := by
  have hstop := (t.stretch_outside 0 0 0).2
  rw [← byteLength_eq]
  exact congrArg (Span.mk 0) (hstop.trans (Nat.zero_add _))

/-- Every sequence of a layout is tiled by its nodes. -/
theorem Canonical.tiled {t : Template} (h : t.Canonical) {s : Sequence}
    (hs : s ∈ t.layout.sequences) : ∃ children, s.Tiled t.layout.nodes children := by
  rcases List.mem_cons.mp hs with rfl | hs
  · exact t.stretch_tiled false (Nat.le_refl 0) t.sits_layout _ List.mem_cons_self
  obtain ⟨node, hnode, ha⟩ := List.mem_flatMap.mp hs
  cases node with
  | text span => cases ha
  | group span alternatives =>
      obtain ⟨content, rest, start, first, _, _, _, rfl, rfl, hinner⟩ := h.exists_content hnode
      exact content.stretch_tiled true (Nat.le_refl _) hinner.left s ha

/-- Every group of a layout stands between its braces and shares out what is between them. -/
theorem Canonical.bracketed {t : Template} (h : t.Canonical) {span : Span}
    {alternatives : List Sequence} (hnode : .group span alternatives ∈ t.layout.nodes) :
    span.Bracketed t.render alternatives := by
  obtain ⟨content, rest, start, first, _, _, hgroup, rfl, rfl, _⟩ := h.exists_content hnode
  have hinner := stretch_separated true (start + 1) first hgroup.content_group
  have hend : start + 1 + content.byteLength = start + content.byteLength + 2 - 1 := by omega
  rw [hend] at hinner
  exact {
    two_le := Nat.add_le_add_right (Nat.le_add_right start _) 2
    opened := hgroup.charAt?_open
    closed := hgroup.charAt?_close
    separated := ⟨_, _, rfl, rfl, hinner⟩ }

/-- The literal nodes inside a group have neither braces nor separators. -/
theorem Canonical.coversPlain {t : Template} (h : t.Canonical) {span literal : Span}
    {alternatives : List Sequence} (hnode : .group span alternatives ∈ t.layout.nodes)
    {a : Sequence} (ha : a ∈ alternatives) {n : Nat} (hn : n ∈ a.nodes)
    (hfound : t.layout.nodes[n]? = some (.text literal)) :
    literal.CoversPlain true t.render := by
  obtain ⟨content, rest, start, first, hbalanced, _, hgroup, rfl, rfl, hinner⟩ :=
    h.exists_content hnode
  have hcontent := hgroup.content_group
  exact stretch_coversPlain true (start + 1) hbalanced hcontent (hcontent.coversPlain true)
    hinner.left a ha n hn literal hfound

/-- Neither brace of a matched pair stands in a literal node. -/
theorem Canonical.unmatched {t : Template} (h : t.Canonical) {literal : Span}
    (hnode : .text literal ∈ t.layout.nodes) {i e : Nat} (hclose : findClose? t.render i = some e) :
    ¬ (literal.start ≤ i ∧ i < literal.stop) ∧ ¬ (literal.start < e ∧ e ≤ literal.stop) := by
  have hspan := h.mem_groupSpans_iff.mpr hclose
  have hbounds := groupSpans_bounds hspan
  have hbyte : ∀ byte, literal.start ≤ byte → byte < literal.stop → byte ≠ i ∧ byte + 1 ≠ e := by
    intro byte hstart hstop
    rcases stretch_literalAt false hnode hstart hstop with hrun | hliteral
    · omega
    · exact hliteral.not_brace hspan
  constructor
  · rintro ⟨hstart, hstop⟩
    exact (hbyte i hstart hstop).1 rfl
  · rintro ⟨hstart, hstop⟩
    dsimp only at hbounds
    exact (hbyte (e - 1) (by omega) (by omega)).2 (by omega)

end Template

/-- The layout of a text that parses loses nothing of it: the nodes tile the sequences, the
alternatives tile the groups, and no literal node has a brace of a group. -/
theorem layout_lossless {text : List Char} {t : Template} (h : Template.parse text = .ok t) :
    t.layout.Lossless text := by
  have hcanonical := Template.canonical_of_parse h
  obtain rfl := Template.render_of_parse h
  exact {
    root_span := t.root_span
    tiled := fun _ hs => hcanonical.tiled hs
    bracketed := fun _ _ hnode => hcanonical.bracketed hnode
    ordinary := fun _ _ hnode _ ha _ hn _ hfound => hcanonical.coversPlain hnode ha hn hfound
    unmatched := fun _ hnode _ _ hclose => hcanonical.unmatched hnode hclose }

/-- A group with a character of two bytes before it and a loose brace behind it. -/
theorem layout_lossless_loose :
    Template.parse ['é', '{', 'a', '|', '}', '}'] = .ok
      (.char 'é' (.group (.char 'a' (.char '|' .empty)) (.char '}' .empty))) ∧
    (Template.char 'é' (.group (.char 'a' (.char '|' .empty)) (.char '}' .empty))).layout.Lossless
      ['é', '{', 'a', '|', '}', '}'] :=
  ⟨rfl, layout_lossless rfl⟩

end Campaign
