import Campaign.Proofs.Brace.Matching

/-!
# The arena of a layout

The nodes of a layout are numbered in post-order. Each stretch of a layout fills a run of numbers
of its own, with the children of every group before the group, and its nodes stop one after
another. The groups among the nodes are the matched pairs of braces.
-/

namespace Campaign

open Text Brace

namespace Node

def span : Node → Span
  | text span => span
  | group span _ => span

def alternatives : Node → List Sequence
  | text _ => []
  | group _ alternatives => alternatives

def groupSpan? : Node → Option Span
  | text _ => none
  | group span _ => some span

end Node

namespace Layout

/-- The sequence of the whole text and those of all alternatives. -/
def sequences (l : Layout) : List Sequence := l.root :: l.nodes.flatMap Node.alternatives

def groupSpans (l : Layout) : List Span := l.nodes.filterMap Node.groupSpan?

/-- One node stands directly in an alternative of another. -/
def Child (l : Layout) (child parent : Nat) : Prop :=
  ∃ node, l.nodes[parent]? = some node ∧ ∃ a ∈ node.alternatives, child ∈ a.nodes

/-- The nodes are the tree of the groups of a text, numbered in post-order. -/
structure PostOrder (text : List Char) (l : Layout) : Prop where
  mem_groupSpans : ∀ i e, ⟨i, e⟩ ∈ l.groupSpans ↔ findClose? text i = some e
  nodup_groupSpans : l.groupSpans.Nodup
  groupCount_eq : l.groupCount =
    (List.range (byteLength text)).countP fun i => (findClose? text i).isSome
  numbers_perm : (l.sequences.flatMap Sequence.nodes).Perm (List.range l.nodes.length)
  inside_lt : ∀ inner outer, Relation.TransGen l.Child inner outer → inner < outer
  stops_lt : l.nodes.Pairwise fun a b => a.span.stop < b.span.stop

end Layout

/-- Nodes stop one after another between two positions. -/
def StopsIn (low high : Nat) (nodes : List Node) : Prop :=
  nodes.Pairwise (fun a b => a.span.stop < b.span.stop) ∧
    ∀ node ∈ nodes, low < node.span.stop ∧ node.span.stop ≤ high

theorem StopsIn.mono {low low' high high' : Nat} {nodes : List Node} (h : StopsIn low' high' nodes)
    (hlow : low ≤ low') (hhigh : high' ≤ high) : StopsIn low high nodes := by
  refine ⟨h.1, ?_⟩
  intro node hnode
  have hbounds := h.2 node hnode
  omega

/-- Nodes that stop before others may be put in front of them. -/
theorem StopsIn.append {low middle high : Nat} {first second : List Node}
    (hfirst : StopsIn low middle first) (hsecond : StopsIn middle high second)
    (hlow : low ≤ middle) (hhigh : middle ≤ high) : StopsIn low high (first ++ second) := by
  refine ⟨List.pairwise_append.mpr ⟨hfirst.1, hsecond.1, ?_⟩, ?_⟩
  · intro a ha b hb
    exact Nat.lt_of_le_of_lt (hfirst.2 a ha).2 (hsecond.2 b hb).1
  · exact List.forall_mem_append.mpr
      ⟨(hfirst.mono (Nat.le_refl low) hhigh).2, (hsecond.mono hlow (Nat.le_refl high)).2⟩

theorem stopsIn_singleton {low high : Nat} {node : Node} (hlow : low < node.span.stop)
    (hhigh : node.span.stop ≤ high) : StopsIn low high [node] :=
  ⟨List.pairwise_singleton _ _, List.forall_mem_singleton.mpr ⟨hlow, hhigh⟩⟩

namespace Template

theorem mem_runNode {run stop : Nat} {node : Node} :
    node ∈ runNode run stop ↔ run < stop ∧ node = .text ⟨run, stop⟩ := by
  unfold runNode
  split <;> simp [*]

theorem runNode_alternatives (run stop : Nat) :
    (runNode run stop).flatMap Node.alternatives = [] := by
  unfold runNode
  split <;> rfl

theorem runNode_groupSpan (run stop : Nat) : (runNode run stop).filterMap Node.groupSpan? = [] := by
  unfold runNode
  split <;> rfl

theorem stopsIn_runNode (run stop : Nat) : StopsIn run stop (runNode run stop) := by
  unfold runNode
  split
  next hlt => exact stopsIn_singleton hlt (Nat.le_refl stop)
  next => exact ⟨List.Pairwise.nil, List.forall_mem_nil _⟩

/-- A literal run is numbered as the node that it has, if it has one. -/
theorem runChild_eq (run stop number : Nat) :
    runChild run stop number = List.range' number (runNode run stop).length := by
  unfold runChild runNode
  split <;> rfl

/-- Outside every group a stretch has one sequence, which ends where the template does. -/
theorem stretch_outside (run position number : Nat) (t : Template) :
    (t.stretch false run position number).later = [] ∧
      (t.stretch false run position number).stop = position + t.byteLength := by
  induction t generalizing run position number with
  | empty => exact ⟨rfl, rfl⟩
  | char c rest ih =>
      have hrest := ih run (position + c.utf8Size) number
      rwa [Nat.add_assoc] at hrest
  | group content rest _ ih =>
      have hlength : (group content rest).byteLength =
          content.byteLength + rest.byteLength + 2 := rfl
      obtain ⟨hlater, hstop⟩ := ih (position + content.byteLength + 2)
        (position + content.byteLength + 2) _
      refine ⟨hlater, hstop.trans ?_⟩
      omega

/-- A stretch numbers each of its nodes once, in one of its sequences or in an alternative. -/
theorem stretch_numbers_perm (inside : Bool) (run position number start : Nat) (t : Template) :
    let s := t.stretch inside run position number
    ((s.sequences start ++ s.nodes.flatMap Node.alternatives).flatMap Sequence.nodes).Perm
      (List.range' number s.nodes.length) := by
  fun_induction stretch inside run position number t generalizing start with
  | case1 inside run position number =>
      simp [Stretch.sequences, runNode_alternatives, runChild_eq]
  | case2 inside run position number c rest after hcut text s ih =>
      have hs := ih after
      simp only [Stretch.sequences, runChild_eq, List.cons_append, List.flatMap_cons,
        List.flatMap_append, text, runNode_alternatives, List.nil_append, List.length_append,
        ← List.range'_append_1] at hs ⊢
      exact hs.append_left _
  | case3 inside run position number c rest after hcut ih => exact ih start
  | case4 inside run position number content rest text inner index stop node s ihcontent ihrest =>
      have hinner := ihcontent (position + 1)
      have hs := ihrest stop
      have hrange : List.range' number (text ++ inner.nodes ++ node :: s.nodes).length =
          List.range' number text.length ++ List.range' (number + text.length) inner.nodes.length ++
            index :: List.range' (index + 1) s.nodes.length := by
        simp only [List.length_append, List.length_cons, ← List.range'_append_1, List.range'_succ,
          index, Nat.add_assoc, List.append_assoc]
      -- The numbers inside the group, then the group's own number, then those after the group.
      have hgather : (List.range' number text.length ++ (inner.sequences (position + 1) ++
          inner.nodes.flatMap Node.alternatives).flatMap Sequence.nodes ++
            index :: (s.sequences stop ++ s.nodes.flatMap Node.alternatives).flatMap
              Sequence.nodes).Perm
          (List.range' number (text ++ inner.nodes ++ node :: s.nodes).length) := by
        rw [hrange]
        exact (hinner.append_left _).append (hs.cons _)
      refine List.Perm.trans (List.perm_iff_count.mpr ?_) hgather
      intro n
      simp only [Stretch.sequences, runChild_eq, text, node, runNode_alternatives,
        Node.alternatives, List.cons_append, List.nil_append, List.append_assoc, List.flatMap_cons,
        List.flatMap_append, List.count_append, List.count_cons]
      omega

/-- The alternatives of a group number only nodes before it. -/
theorem stretch_alternatives_lt (inside : Bool) (run position number : Nat) (t : Template) :
    ∀ p ∈ (t.stretch inside run position number).nodes.zipIdx number,
      ∀ a ∈ p.1.alternatives, ∀ n ∈ a.nodes, n < p.2 := by
  have hrun : ∀ run stop number, ∀ p ∈ (runNode run stop).zipIdx number,
      ∀ a ∈ p.1.alternatives, ∀ n ∈ a.nodes, n < p.2 := by
    intro run stop number p hp a ha
    obtain ⟨_, hnode⟩ := mem_runNode.mp (List.fst_mem_of_mem_zipIdx hp)
    rw [hnode] at ha
    cases ha
  fun_induction stretch inside run position number t with
  | case1 inside run position number => exact hrun run position number
  | case2 inside run position number c rest after hcut text s ih =>
      rw [List.zipIdx_append]
      exact List.forall_mem_append.mpr ⟨hrun run position number, ih⟩
  | case3 inside run position number c rest after hcut ih => exact ih
  | case4 inside run position number content rest text inner index stop node s ihcontent ihrest =>
      rw [List.zipIdx_append, List.zipIdx_append, List.zipIdx_cons, List.length_append,
        ← Nat.add_assoc]
      refine List.forall_mem_append.mpr ⟨List.forall_mem_append.mpr ⟨?_, ihcontent⟩, ?_⟩
      · exact hrun run position number
      refine List.forall_mem_cons.mpr ⟨?_, ihrest⟩
      intro a ha n hn
      -- The nodes of the content have the numbers up to that of the group, each one once.
      have hmem : n ∈ (inner.sequences (position + 1) ++
          inner.nodes.flatMap Node.alternatives).flatMap Sequence.nodes :=
        List.mem_flatMap.mpr ⟨a, List.mem_append_left _ ha, hn⟩
      have hnumbers := stretch_numbers_perm true (position + 1) (position + 1)
        (number + text.length) (position + 1) content
      exact (List.mem_range'_1.mp (hnumbers.mem_iff.mp hmem)).2

/-- The nodes of a stretch stop one after another within its bytes, a group behind all that is
inside it. -/
theorem stretch_stopsIn (inside : Bool) {run position : Nat} (number : Nat) (t : Template)
    (hrun : run ≤ position) :
    StopsIn run (position + t.byteLength) (t.stretch inside run position number).nodes := by
  fun_induction stretch inside run position number t with
  | case1 inside run position number => exact stopsIn_runNode run position
  | case2 inside run position number c rest after hcut text s ih =>
      have hlength : (char c rest).byteLength = c.utf8Size + rest.byteLength := rfl
      have hs : StopsIn position (position + (char c rest).byteLength) s.nodes :=
        (ih (Nat.le_refl after)).mono (by omega) (by omega)
      exact (stopsIn_runNode run position).append hs hrun (by omega)
  | case3 inside run position number c rest after hcut ih =>
      have hs := ih (by omega)
      exact hs.mono (Nat.le_refl run) (by rw [byteLength]; omega)
  | case4 inside run position number content rest text inner index stop node s ihcontent ihrest =>
      have hinner := ihcontent (Nat.le_refl (position + 1))
      have hs := ihrest (Nat.le_refl stop)
      have hnode : StopsIn (position + 1 + content.byteLength) stop [node] :=
        stopsIn_singleton (by change _ < stop; omega) (Nat.le_refl stop)
      -- The group stops after everything inside it, by its closing brace.
      have hgroup : StopsIn position stop (inner.nodes ++ [node]) :=
        (hinner.append hnode (by omega) (by omega)).mono (by omega) (Nat.le_refl stop)
      have hend : stop + rest.byteLength = position + (group content rest).byteLength := by
        rw [byteLength]
        omega
      have hall := ((stopsIn_runNode run position).append hgroup hrun (by omega)).append hs
        (by omega) (by omega)
      rw [hend] at hall
      simpa only [List.append_assoc, List.cons_append, List.nil_append] using hall

/-- The groups among the nodes of a stretch are those of the template, each once. -/
theorem groupSpans_stretch_perm (inside : Bool) (run position number : Nat) (t : Template) :
    ((t.stretch inside run position number).nodes.filterMap Node.groupSpan?).Perm
      (t.groupSpans position) := by
  fun_induction stretch inside run position number t with
  | case1 inside run position number => rw [runNode_groupSpan]; rfl
  | case2 inside run position number c rest after hcut text s ih =>
      rw [List.filterMap_append, runNode_groupSpan]
      exact ih
  | case3 inside run position number c rest after hcut ih => exact ih
  | case4 inside run position number content rest text inner index stop node s ihcontent ihrest =>
      rw [List.filterMap_append, List.filterMap_append, runNode_groupSpan]
      exact List.perm_middle.trans ((ihcontent.append ihrest).cons _)

end Template

/-- Where children come before their parents, so does everything further inside. -/
theorem Layout.lt_of_inside {l : Layout} (h : ∀ child parent, l.Child child parent → child < parent)
    {inner outer : Nat} (hinside : Relation.TransGen l.Child inner outer) : inner < outer := by
  induction hinside with
  | single hchild => exact h _ _ hchild
  | tail _ hchild ih => exact Nat.lt_trans ih (h _ _ hchild)

theorem Layout.groupCount_eq_length (l : Layout) : l.groupCount = l.groupSpans.length := by
  unfold Layout.groupCount Layout.groupSpans
  induction l.nodes with
  | nil => rfl
  | cons node nodes ih =>
      cases node with
      | text span => exact ih
      | group span alternatives =>
          rw [List.countP_cons_of_pos rfl]
          exact congrArg (· + 1) ih

/-- The layout of a text that parses is in post-order: its groups are the matched pairs of braces,
every number stands in one place, and a node comes after all that it holds. -/
theorem layout_postOrder {text : List Char} {t : Template} (h : Template.parse text = .ok t) :
    t.layout.PostOrder text := by
  have hperm : t.layout.groupSpans.Perm (matchedSpans 0 text) := by
    rw [← Template.render_of_parse h, (Template.canonical_of_parse h).matchedSpans_render]
    exact t.groupSpans_stretch_perm false 0 0 0
  have hnumbers := t.stretch_numbers_perm false 0 0 0 0
  have hbefore := t.stretch_alternatives_lt false 0 0 0
  have hstops := t.stretch_stopsIn false 0 (Nat.le_refl 0)
  exact {
    mem_groupSpans := fun i e => hperm.mem_iff.trans mem_matchedSpans_zero_iff
    nodup_groupSpans := hperm.nodup_iff.mpr (nodup_matchedSpans 0 text)
    groupCount_eq := by
      rw [Layout.groupCount_eq_length, hperm.length_eq, length_matchedSpans]
    numbers_perm := by
      have hlater := (t.stretch_outside 0 0 0).1
      simp only [Stretch.sequences, hlater, ← List.range_eq_range'] at hnumbers
      exact hnumbers
    inside_lt := by
      intro inner outer hinside
      refine Layout.lt_of_inside ?_ hinside
      rintro child parent ⟨node, hnode, a, ha, hchild⟩
      exact hbefore (node, parent) (List.mem_zipIdx_iff_getElem?.mpr hnode) a ha child hchild
    stops_lt := hstops.1 }

/-- A group inside an alternative, and a loose brace behind. -/
theorem layout_postOrder_nested :
    Template.parse ['{', 'a', '|', '{', 'b', '}', '}', '{'] = .ok
      (.group (.char 'a' (.char '|' (.group (.char 'b' .empty) .empty))) (.char '{' .empty)) ∧
    (Template.group (.char 'a' (.char '|' (.group (.char 'b' .empty) .empty)))
      (.char '{' .empty)).layout.PostOrder ['{', 'a', '|', '{', 'b', '}', '}', '{'] :=
  ⟨rfl, layout_postOrder rfl⟩

end Campaign
