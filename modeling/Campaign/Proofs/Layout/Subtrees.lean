import Campaign.Proofs.Layout.Tiling

/-!
# Layouts of cut-out text

The text of a sequence or of a group, cut out and laid out alone, gives the nodes that the whole
layout has for it. Only the place differs: spans are moved by where the text stands and numbers by
where its nodes begin, and its nodes follow one another without others in between.
-/

namespace Campaign

open Text Brace

/-- A span moved to the right. -/
def Span.shift (bytes : Nat) (s : Span) : Span := ⟨s.start + bytes, s.stop + bytes⟩

/-- A sequence moved to the right, its nodes numbered on. -/
def Sequence.shift (bytes numbers : Nat) (s : Sequence) : Sequence :=
  ⟨s.span.shift bytes, s.nodes.map (· + numbers)⟩

def Node.shift (bytes numbers : Nat) : Node → Node
  | text span => text (span.shift bytes)
  | group span alternatives =>
    group (span.shift bytes) (alternatives.map (Sequence.shift bytes numbers))

def Stretch.shift (bytes numbers : Nat) (s : Stretch) : Stretch :=
  ⟨s.nodes.map (Node.shift bytes numbers), s.children.map (· + numbers), s.stop + bytes,
    s.later.map (Sequence.shift bytes numbers)⟩

theorem Stretch.sequences_shift (bytes numbers start : Nat) (s : Stretch) :
    (s.shift bytes numbers).sequences (start + bytes) =
      (s.sequences start).map (Sequence.shift bytes numbers) := rfl

/-- The text that a sequence covers is laid out alone as the sequence with all that it holds. -/
def Layout.Contains (text : List Char) (l : Layout) (s : Sequence) : Prop :=
  ∃ run sub first, s.span.Covers text run ∧ Template.parse run = .ok sub ∧
    sub.layout.root.shift s.span.start first = s ∧
      Sits l.nodes first (sub.layout.nodes.map (Node.shift s.span.start first))

namespace Template

theorem runNode_shift (run stop bytes numbers : Nat) :
    runNode (run + bytes) (stop + bytes) = (runNode run stop).map (Node.shift bytes numbers) := by
  unfold runNode
  by_cases hlt : run < stop
  · rw [if_pos hlt, if_pos (Nat.add_lt_add_right hlt bytes)]
    rfl
  · rw [if_neg hlt, if_neg (by omega)]
    rfl

theorem runChild_shift (run stop number bytes numbers : Nat) :
    runChild (run + bytes) (stop + bytes) (number + numbers) =
      (runChild run stop number).map (· + numbers) := by
  unfold runChild
  by_cases hlt : run < stop
  · rw [if_pos hlt, if_pos (Nat.add_lt_add_right hlt bytes)]
    rfl
  · rw [if_neg hlt, if_neg (by omega)]
    rfl

theorem length_runNode_shift (run stop bytes : Nat) :
    (runNode (run + bytes) (stop + bytes)).length = (runNode run stop).length := by
  rw [runNode_shift run stop bytes 0, List.length_map]

/-- Laying out elsewhere, with other numbers, moves spans and numbers and nothing else. -/
theorem stretch_shift (inside : Bool) (run position number bytes numbers : Nat) (t : Template) :
    t.stretch inside (run + bytes) (position + bytes) (number + numbers) =
      (t.stretch inside run position number).shift bytes numbers := by
  induction t generalizing inside run position number with
  | empty =>
      rw [stretch, stretch, runNode_shift run position bytes numbers, runChild_shift]
      rfl
  | char c rest ih =>
      rw [stretch, stretch]
      dsimp only
      rw [Nat.add_right_comm position bytes]
      split
      next =>
        rw [length_runNode_shift, Nat.add_right_comm number numbers, ih,
          runNode_shift run position bytes numbers, runChild_shift, Stretch.sequences_shift]
        simp only [Stretch.shift, List.map_append]
      next => exact ih inside run _ number
  | group content rest ihcontent ihrest =>
      have hstop : position + bytes + content.byteLength + 2 =
          position + content.byteLength + 2 + bytes := by omega
      -- The shift of the first number is carried past the nodes that come before.
      have hindex : ∀ inner : List Node,
          number + (runNode run position).length + numbers + inner.length + 1 =
            number + (runNode run position).length + inner.length + 1 + numbers := by omega
      rw [stretch, stretch]
      rw [length_runNode_shift, Nat.add_right_comm number numbers,
        Nat.add_right_comm position bytes, ihcontent, hstop, Stretch.sequences_shift,
        runNode_shift run position bytes numbers, runChild_shift]
      simp only [Stretch.shift, List.length_map]
      rw [hindex, ihrest]
      simp only [Stretch.shift, List.map_append, List.map_cons, Node.shift, Span.shift,
        Nat.add_right_comm _ numbers]

/-- The first sequence of a stretch is the stretch of the first section, which has no separator of
its own. -/
theorem stretch_first (inside : Bool) (run position number : Nat) (t : Template) :
    let first := (t.sections inside).first.stretch false run position number
    (t.stretch inside run position number).children = first.children ∧
      (t.stretch inside run position number).stop = first.stop ∧
        first.nodes <+: (t.stretch inside run position number).nodes := by
  induction t generalizing run position number with
  | empty =>
      rw [sections_empty]
      exact ⟨rfl, rfl, List.prefix_rfl⟩
  | char c rest ih =>
      rw [sections_char]
      by_cases hcut : cuts inside c
      · rw [if_pos hcut, stretch, if_pos hcut]
        exact ⟨rfl, rfl, List.prefix_append _ _⟩
      · rw [if_neg hcut, stretch, if_neg hcut]
        exact ih run (position + c.utf8Size) number
  | group content rest _ ih =>
      obtain ⟨hchildren, hstop, hnodes⟩ := ih (position + content.byteLength + 2)
        (position + content.byteLength + 2) _
      rw [sections_group]
      refine ⟨congrArg (_ ++ _ :: ·) hchildren, hstop, ?_⟩
      exact (List.prefix_append_right_inj _).mpr (List.cons_prefix_cons.mpr ⟨rfl, hnodes⟩)

/-- A sequence is what a template without separators is laid out as, where the template stands in
the text, its nodes in an arena one after another. -/
def LaysOut (arena : List Node) (text : List Char) (t : Template) (s : Sequence) : Prop :=
  ∃ start first, t.StandsAt text start ∧
    s = ⟨⟨start, (t.stretch false start start first).stop⟩,
      (t.stretch false start start first).children⟩ ∧
    Sits arena first (t.stretch false start start first).nodes

theorem StandsAt.first_section {t : Template} {text : List Char} {position : Nat}
    (h : t.StandsAt text position) (inside : Bool) :
    (t.sections inside).first.StandsAt text position := by
  obtain ⟨after, hfrom⟩ := h
  rw [← join_map_render_sections inside t, Pieces.join, List.append_assoc] at hfrom
  exact ⟨_, hfrom⟩

/-- The first sequence of a stretch is what the first section is laid out as. -/
theorem laysOut_first (inside : Bool) {arena : List Node} {position number : Nat} {t : Template}
    {text : List Char} (hstands : t.StandsAt text position)
    (hsits : Sits arena number (t.stretch inside position position number).nodes) :
    LaysOut arena text (t.sections inside).first
      ⟨⟨position, (t.stretch inside position position number).stop⟩,
        (t.stretch inside position position number).children⟩ := by
  obtain ⟨hchildren, hstop, hnodes⟩ := t.stretch_first inside position position number
  refine ⟨position, number, hstands.first_section inside, ?_, hnodes.trans hsits⟩
  rw [hchildren, hstop]

/-- The later sequences of a stretch are those of the later sections. -/
theorem laysOut_later (inside : Bool) {arena : List Node} {run position number : Nat} {t : Template}
    {text : List Char} (hstands : t.StandsAt text position)
    (hsits : Sits arena number (t.stretch inside run position number).nodes) :
    ∀ s ∈ (t.stretch inside run position number).later,
      ∃ a ∈ (t.sections inside).others.map Prod.snd, LaysOut arena text a s := by
  revert hsits
  fun_induction stretch inside run position number t with
  | case1 inside run position number => exact fun _ => List.forall_mem_nil _
  | case2 inside run position number c rest after hcut literal s ih =>
      intro hsits
      rw [sections_char, if_pos hcut]
      have hrest := hstands.rest_char
      -- The first sequence of the rest is the one behind this separator.
      refine List.forall_mem_cons.mpr ⟨?_, ?_⟩
      · exact ⟨_, List.mem_cons_self, laysOut_first inside hrest hsits.right⟩
      · intro later hlater
        obtain ⟨a, ha, hlays⟩ := ih hrest hsits.right later hlater
        exact ⟨a, List.mem_cons_of_mem _ ha, hlays⟩
  | case3 inside run position number c rest after hcut ih =>
      rw [sections_char, if_neg hcut]
      exact ih hstands.rest_char
  | case4 inside run position number content rest literal inner index stop node s _ ih =>
      intro hsits
      rw [sections_group]
      exact ih hstands.rest_group hsits.group.2.2.2

/-- Every sequence of a stretch is what some section is laid out as. -/
theorem laysOut_sequences (inside : Bool) {arena : List Node} {position number : Nat}
    {t : Template} {text : List Char} (hstands : t.StandsAt text position)
    (hsits : Sits arena number (t.stretch inside position position number).nodes) :
    ∀ s ∈ (t.stretch inside position position number).sequences position,
      ∃ a ∈ (t.sections inside).toList, LaysOut arena text a s := by
  refine List.forall_mem_cons.mpr ⟨?_, ?_⟩
  · exact ⟨_, Pieces.first_mem_toList _, laysOut_first inside hstands hsits⟩
  · intro s hs
    obtain ⟨a, ha, hlays⟩ := laysOut_later inside hstands hsits s hs
    exact ⟨a, List.mem_cons_of_mem _ ha, hlays⟩

theorem StandsAt.covers {t : Template} {text : List Char} {position : Nat}
    (h : t.StandsAt text position) :
    Span.Covers ⟨position, position + t.byteLength⟩ text t.render := by
  obtain ⟨after, hfrom⟩ := h
  exact ⟨after, hfrom, congrArg (position + ·) t.byteLength_eq⟩

/-- A stretch anywhere is the stretch at the start, moved. -/
theorem stretch_eq_shift (inside : Bool) (start first : Nat) (t : Template) :
    t.stretch inside start start first = (t.stretch inside 0 0 0).shift start first := by
  rw [← stretch_shift, Nat.zero_add, Nat.zero_add]

/-- What a template lays out in a layout is the template's own layout moved. -/
theorem LaysOut.contains {text : List Char} {l : Layout} {t : Template} {s : Sequence}
    (h : LaysOut l.nodes text t s) (hcanonical : t.Canonical) (hdepth : t.depth ≤ maxDepth) :
    l.Contains text s := by
  obtain ⟨start, first, hstands, rfl, hsits⟩ := h
  have hstop := (t.stretch_outside start start first).2
  refine ⟨t.render, t, first, ?_, hcanonical.parse_render hdepth, ?_, ?_⟩
  · rw [hstop]
    exact hstands.covers
  · rw [stretch_eq_shift]
    exact congrArg (fun n => (⟨⟨n, _⟩, _⟩ : Sequence)) (Nat.zero_add start)
  · rw [stretch_eq_shift] at hsits
    exact hsits

/-- The stretch of a group alone: the nodes of its content and then the group. -/
theorem stretch_group_empty (start first : Nat) (content : Template) :
    let inner := content.stretch true (start + 1) (start + 1) first
    (group content empty).stretch false start start first =
      ⟨inner.nodes ++
          [.group ⟨start, start + content.byteLength + 2⟩ (inner.sequences (start + 1))],
        [first + inner.nodes.length], start + content.byteLength + 2, []⟩ := by
  have hrun : ∀ stop, runNode stop stop = [] := fun stop => if_neg (Nat.lt_irrefl stop)
  have hchild : ∀ stop number, runChild stop stop number = [] :=
    fun stop _ => if_neg (Nat.lt_irrefl stop)
  simp [stretch, hrun, hchild]

/-- No two numbers of a layout have the same node. -/
theorem number_unique {t : Template} {m n : Nat} {node : Node}
    (hm : t.layout.nodes[m]? = some node) (hn : t.layout.nodes[n]? = some node) : m = n := by
  have hnodup : t.layout.nodes.Nodup := by
    apply (t.stretch_stopsIn false 0 (Nat.le_refl 0)).1.imp
    intro a b hlt heq
    rw [heq] at hlt
    exact Nat.lt_irrefl _ hlt
  have hlength : m < t.layout.nodes.length := (List.getElem?_eq_some_iff.mp hm).1
  exact (List.getElem?_inj hlength hnodup).mp (hm.trans hn.symm)

/-- Every sequence of a layout is laid out alone as it is in the layout. -/
theorem Canonical.contains_sequence {t : Template} (h : t.Canonical) (hdepth : t.depth ≤ maxDepth)
    {s : Sequence} (hs : s ∈ t.layout.sequences) : t.layout.Contains t.render s := by
  rcases List.mem_cons.mp hs with rfl | hs
  · have hroot := laysOut_first false t.standsAt_render t.sits_layout
    exact hroot.contains h hdepth
  obtain ⟨node, hnode, ha⟩ := List.mem_flatMap.mp hs
  cases node with
  | text span => cases ha
  | group span alternatives =>
      obtain ⟨content, rest, start, first, hbalanced, hlt, hgroup, rfl, rfl, hinner⟩ :=
        h.exists_content hnode
      obtain ⟨a, ha, hlays⟩ := laysOut_sequences true hgroup.content_group hinner.left s ha
      -- An alternative has only what its group's content has.
      have hle := (part_of_mem_alternatives ha).depth_le
      exact hlays.contains (hbalanced.of_mem_alternatives ha).canonical (by omega)

/-- Every group of a layout is laid out alone as it is in the layout. -/
theorem Canonical.contains_group {t : Template} (h : t.Canonical) (hdepth : t.depth ≤ maxDepth)
    {n : Nat} {span : Span} {alternatives : List Sequence}
    (hfound : t.layout.nodes[n]? = some (.group span alternatives)) :
    t.layout.Contains t.render ⟨span, [n]⟩ := by
  obtain ⟨content, rest, start, first, hbalanced, hlt, hgroup, rfl, rfl, hinner⟩ :=
    h.exists_content (List.mem_of_getElem? hfound)
  have hnumber := number_unique hfound hinner.right.head
  have halone : (group content empty).StandsAt t.render start := by
    obtain ⟨after, hfrom⟩ := hgroup
    exact ⟨rest.render ++ after, by simpa [render] using hfrom⟩
  have hlays : LaysOut t.layout.nodes t.render (group content empty)
      ⟨⟨start, start + content.byteLength + 2⟩, [n]⟩ := by
    refine ⟨start, first, halone, ?_, ?_⟩
    · rw [stretch_group_empty, hnumber]
    · rw [stretch_group_empty]
      exact hinner
  have hshallow : (group content empty).depth ≤ maxDepth := by
    rw [depth, depth]
    omega
  exact hlays.contains ⟨hbalanced, trivial⟩ hshallow

end Template

/-- The layout of a text that parses contains the layout of each of its sequences and groups as a
contiguous part: the text of either parses, to what the whole text has there. -/
theorem layout_contains {text : List Char} {t : Template} (h : Template.parse text = .ok t) :
    (∀ s ∈ t.layout.sequences, t.layout.Contains text s) ∧
    ∀ n span alternatives, t.layout.nodes[n]? = some (.group span alternatives) →
      t.layout.Contains text ⟨span, [n]⟩ := by
  have hcanonical := Template.canonical_of_parse h
  have hdepth := (Template.parse_eq_ok_iff_depth.mp h).2
  obtain rfl := Template.render_of_parse h
  constructor
  · exact fun _ hs => hcanonical.contains_sequence hdepth hs
  · exact fun _ _ _ hfound => hcanonical.contains_group hdepth hfound

/-- A group with a group in its second alternative, behind which a brace is loose. -/
theorem layout_contains_nested :
    Template.parse ['{', 'a', '|', '{', 'é', '/', '}', '}', '{'] = .ok
      (.group (.char 'a' (.char '|' (.group (.char 'é' (.char '/' .empty)) .empty)))
        (.char '{' .empty)) ∧
    let l := (Template.group (.char 'a' (.char '|' (.group (.char 'é' (.char '/' .empty)) .empty)))
      (.char '{' .empty)).layout
    (∀ s ∈ l.sequences, l.Contains ['{', 'a', '|', '{', 'é', '/', '}', '}', '{'] s) ∧
    ∀ n span alternatives, l.nodes[n]? = some (.group span alternatives) →
      l.Contains ['{', 'a', '|', '{', 'é', '/', '}', '}', '{'] ⟨span, [n]⟩ :=
  ⟨rfl, layout_contains rfl⟩

end Campaign
