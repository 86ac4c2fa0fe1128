import Campaign.Proofs.Layout.Parsing
import Campaign.Proofs.Layout.Traversals

/-!
# No access out of bounds

A text is looked up by byte positions of three kinds: in the whole text, in the content of a group
and in a trimmed text. A position is in bounds when a checked look-up finds something, and a slice
when its ends stand in order at boundaries between characters, which is when a checked slice gives a
part of the text. So a function whose checked form never fails, and gives what the function gives,
makes no access out of bounds. That includes the bound on the end of each group that a parser passes
to, and a choice among alternatives, which is made from at least one.
-/

namespace Campaign

open Text Brace Template

section Spans

variable {text : List Char}

/-- Spans of nodes and alternatives that can be cut out of a text. -/
def Node.Within (text : List Char) (node : Node) : Prop :=
  node.span.Within text ∧ ∀ a ∈ node.alternatives, a.span.Within text

/-- The sequences of a stretch can be cut out of the text that it lays out. -/
theorem forall_within_sequences (inside : Bool) {t : Template} {position : Nat} (number : Nat)
    (hstands : t.StandsAt text position) :
    ∀ s ∈ (t.stretch inside position position number).sequences position, s.span.Within text := by
  intro s hs
  exact forall_within (forall₂_covers_sequences inside number hstands) _ (List.mem_map_of_mem hs)

theorem forall_within_stretch (inside : Bool) {t : Template} {run position number : Nat}
    (hstands : t.StandsAt text position) (hrun : Span.Within ⟨run, position⟩ text) :
    ∀ node ∈ (t.stretch inside run position number).nodes, node.Within text := by
  have hnode : ∀ {run position}, Span.Within ⟨run, position⟩ text →
      ∀ node ∈ runNode run position, node.Within text := by
    intro run position hrun node hnode
    obtain ⟨_, rfl⟩ := mem_runNode.mp hnode
    exact ⟨hrun, List.forall_mem_nil _⟩
  -- The run read so far is carried along, so that it can be cut out where it ends.
  revert hrun
  fun_induction stretch inside run position number t with
  | case1 inside run position number => exact hnode
  | case2 inside run position number c rest after hcut literal s ih =>
      intro hrun
      refine List.forall_mem_append.mpr ⟨hnode hrun, ?_⟩
      exact ih hstands.rest_char hstands.rest_char.covers_nil.within
  | case3 inside run position number c rest after hcut ih =>
      intro hrun
      obtain ⟨literal, hcovers⟩ := Span.within_iff.mp hrun
      exact ih hstands.rest_char (hcovers.append_char hstands.charAt?_char).within
  | case4 inside run position number content rest literal inner index stop node s ihcontent
      ihrest =>
      intro hrun
      have hcontent := hstands.content_group
      have hrest := hstands.rest_group
      refine List.forall_mem_append.mpr ⟨List.forall_mem_append.mpr ⟨hnode hrun, ?_⟩, ?_⟩
      · exact ihcontent hcontent hcontent.covers_nil.within
      · refine List.forall_mem_cons.mpr ⟨⟨?_, ?_⟩, ihrest hrest hrest.covers_nil.within⟩
        · exact hstands.covers_group.within
        · exact forall_within_sequences true _ hcontent

/-- Every number in a layout has a node, and all its spans can be cut out of the text. -/
theorem Template.Canonical.within_layout {t : Template} (h : t.Canonical) :
    ∀ s ∈ t.layout.sequences, s.span.Within t.render ∧
      ∀ n ∈ s.nodes, ∃ node, t.layout.nodes[n]? = some node ∧ node.Within t.render := by
  have hnodes : ∀ node ∈ t.layout.nodes, node.Within t.render :=
    forall_within_stretch false t.standsAt_render t.standsAt_render.covers_nil.within
  intro s hs
  refine ⟨?_, ?_⟩
  · rcases List.mem_cons.mp hs with rfl | hs
    · have hcovers := t.standsAt_render.covers
      rw [Nat.zero_add, byteLength_eq] at hcovers
      rw [root_span]
      exact hcovers.within
    · obtain ⟨node, hnode, ha⟩ := List.mem_flatMap.mp hs
      exact (hnodes node hnode).2 s ha
  · intro n hn
    obtain ⟨children, hchildren⟩ := h.tiled hs
    have hfound := List.mem_map_of_mem (f := (t.layout.nodes[·]?)) hn
    rw [hchildren.numbers_eq] at hfound
    obtain ⟨node, _, hnode⟩ := List.mem_map.mp hfound
    exact ⟨node, hnode.symm, hnodes node (List.mem_of_getElem? hnode.symm)⟩

end Spans

/-- Whatever goes through the layout of a text finds each node and each part of the text that it
looks up, and makes of them what is made of the template. -/
structure Template.Traversed (text : List Char) (t : Template) : Prop where
  within : ∀ s ∈ t.layout.sequences, s.span.Within text ∧
    ∀ n ∈ s.nodes, ∃ node, t.layout.nodes[n]? = some node ∧ node.Within text
  variations_eq : t.layout.variations? text = some t.variations
  blocks_eq : t.layout.blocks? text = some t.blocks
  expansions_eq : ∀ limit, t.layout.expansions? text limit = some (t.expansions limit)
  sample_eq : ∀ source, t.layout.sample? text Source.choose? source = t.sample? source
  exists_sample : ∀ (σ : Type) (choose? : Nat → σ → Option (Nat × σ)),
    (∀ n s, 0 < n → ∃ i after, choose? n s = some (i, after) ∧ i < n) →
      ∀ source, ∃ sample after, t.layout.sample? text choose? source = some (sample, after)

/-- With every access checked, each function gives what it gives without a check: no position is
past the end of what it is looked up in, and every slice has its ends in order and between
characters. -/
structure InBounds (text : List Char) : Prop where
  slice_iff : ∀ s, (slice? text s).isSome ↔ s.Within text
  found : ∀ i e, findClose? text i = some e → Span.Within ⟨i, e⟩ text
  closes_eq : closes? text = some (closes text)
  pieces_eq : pieces? text = some (split text).toList
  layout_eq : readLayout? text = some ((parse text).map layout)
  traversed : ∀ t, parse text = .ok t → t.Traversed text
  unfold_eq : unfoldSlices? text = some (unfold text)

theorem within_of_findClose? {text : List Char} {i e : Nat} (h : findClose? text i = some e) :
    Span.Within ⟨i, e⟩ text := by
  obtain ⟨word, _, hcovers⟩ := findClose?_eq_some_iff_groups.mp h
  exact hcovers.within

/-- Each way through the layout of a canonical template finds what it looks up. -/
theorem Template.Canonical.traversed {t : Template} (h : t.Canonical) : t.Traversed t.render where
  within _ hs := h.within_layout _ hs
  variations_eq := Layout.variations?_layout t
  blocks_eq := Layout.blocks?_layout t
  expansions_eq := Layout.expansions?_layout t
  sample_eq := Layout.sample?_layout t
  exists_sample _ _ hchoose := Layout.exists_sample? hchoose t

/-- No access fails, for any text and whatever goes through its layout. -/
theorem accesses_inBounds (text : List Char) : InBounds text where
  slice_iff _ := slice?_isSome_iff
  found _ _ hclose := within_of_findClose? hclose
  closes_eq := closes?_eq text
  pieces_eq := pieces?_eq text
  layout_eq := readLayout?_eq text
  traversed t hparse := by
    obtain rfl := render_of_parse hparse
    exact (canonical_of_parse hparse).traversed
  unfold_eq := unfoldSlices?_eq text

end Campaign
