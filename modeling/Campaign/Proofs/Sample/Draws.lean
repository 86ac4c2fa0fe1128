import Campaign.Proofs.Layout.Arena
import Campaign.Proofs.Random.Words
import Campaign.Proofs.Sample.Residue

/-!
# The draws of a random expansion

A random expansion that resolves every group is two things apart: one choice for each group in
post-order, also for the groups in alternatives that are not chosen, and then the text in which
every group gives way to its choice.
-/

namespace Campaign

open Template

theorem Walk.resolve?_of_lt {w : Walk} (hlt : w.resolved < maxResolved)
    (alternatives : Pieces (List Char)) :
    w.resolve? alternatives =
      (w.source.choose? alternatives.toList.length).map fun (i, source) =>
        (alternatives.toList.getD i [], { w with source, resolved := w.resolved + 1 }) := by
  rw [Walk.resolve?, if_pos hlt]
  cases w.source.choose? alternatives.toList.length <;> rfl

namespace Source

/-- Chooses among so many things, once for each number of a list. -/
def chooseAll? : List Nat → Source → Option (List Nat × Source)
  | [], s => some ([], s)
  | n :: sizes, s => do
    let (i, s) ← s.choose? n
    let (choices, s) ← chooseAll? sizes s
    return (i :: choices, s)

theorem chooseAll?_append (sizes more : List Nat) (s : Source) :
    s.chooseAll? (sizes ++ more) = (s.chooseAll? sizes).bind fun (choices, s) =>
      (s.chooseAll? more).map fun (later, s) => (choices ++ later, s) := by
  induction sizes generalizing s with
  | nil => simp [chooseAll?]
  | cons n sizes ih =>
      rw [List.cons_append, chooseAll?, chooseAll?]
      dsimp only [bind, pure]
      rw [Option.bind_assoc]
      apply Option.bind_congr
      rintro ⟨i, next⟩ _
      dsimp only
      rw [ih, Option.bind_assoc, Option.bind_assoc]
      apply Option.bind_congr
      rintro ⟨choices, last⟩ _
      dsimp only [Option.bind_some]
      cases last.chooseAll? more <;> rfl

theorem length_of_chooseAll? {sizes choices : List Nat} {s after : Source}
    (h : s.chooseAll? sizes = some (choices, after)) : choices.length = sizes.length := by
  induction sizes generalizing s choices with
  | nil =>
      cases h
      rfl
  | cons n sizes ih =>
      obtain ⟨⟨i, next⟩, _, h⟩ := Option.bind_eq_some_iff.mp h
      obtain ⟨⟨later, last⟩, hlater, heq⟩ := Option.bind_eq_some_iff.mp h
      cases heq
      exact congrArg (· + 1) (ih hlater)

/-- A word that settles a choice is used up by it, and the choices after it go on from there. -/
theorem chooseAll?_cons_of_accepts {n : Nat} {s : Source} (h : accepts n s.next)
    (sizes : List Nat) :
    s.chooseAll? (n :: sizes) =
      (s.skip.chooseAll? sizes).map fun (choices, after) => (pick n s.next :: choices, after) := by
  rw [chooseAll?, choose?_of_accepts h]
  dsimp only [bind, Option.bind_some]
  cases s.skip.chooseAll? sizes <;> rfl

/-- A source of zeros gives the first thing every time. -/
theorem chooseAll?_of_zero {s : Source} (hzero : ∀ i, s.word i = 0) (sizes : List Nat) :
    s.chooseAll? sizes =
      some (List.replicate sizes.length 0, { s with drawn := s.drawn + sizes.length }) := by
  induction sizes generalizing s with
  | nil => rfl
  | cons n sizes ih =>
      have hnext : s.next = 0 := hzero s.drawn
      have haccepts : accepts n s.next := by
        rw [hnext]
        exact accepts_zero n
      have hlater := @ih s.skip hzero
      rw [chooseAll?_cons_of_accepts haccepts, hlater, hnext, pick_zero]
      simp [skip, List.replicate_succ, Nat.add_assoc, Nat.add_comm 1]

end Source

def Node.size? : Node → Option Nat
  | text _ => none
  | group _ alternatives => some alternatives.length

/-- Among how many alternatives each group chooses, in the order of the nodes. -/
def Layout.groupSizes (l : Layout) : List Nat := l.nodes.filterMap Node.size?

namespace Template

/-- Among how many alternatives each group chooses, a group after the groups inside it. -/
def groupSizes : Template → List Nat
  | empty => []
  | char _ rest => rest.groupSizes
  | group content rest =>
    content.groupSizes ++ content.alternatives.toList.length :: rest.groupSizes

/-- What each piece of a template shows when every group gives way to the alternative chosen for it.
The choices are given in post-order: first those for the groups inside a group, then its own. -/
def showing (inside : Bool) : Template → List Nat → Pieces (List Char)
  | empty, _ => .single []
  | char c rest, choices =>
    let right := rest.showing inside choices
    if cuts inside c then right.cut [] c else right.mapFirst (c :: ·)
  | group content rest, choices =>
    let alternatives := content.showing true (choices.take content.groupCount)
    let chosen := alternatives.toList.getD (choices.getD content.groupCount 0) []
    (rest.showing inside (choices.drop (content.groupCount + 1))).mapFirst (chosen ++ ·)

@[simp] theorem length_groupSizes (t : Template) : t.groupSizes.length = t.groupCount := by
  induction t with
  | empty => rfl
  | char c rest ih => exact ih
  | group content rest ihcontent ihrest =>
      rw [groupSizes, List.length_append, List.length_cons, ihcontent, ihrest, groupCount]
      omega

/-- A group shows the alternative that is chosen behind the choices of its content. -/
theorem showing_group (inside : Bool) {content : Template} (rest : Template) {inner : List Nat}
    (hinner : inner.length = content.groupCount) (i : Nat) (later : List Nat) :
    (group content rest).showing inside (inner ++ i :: later) =
      (rest.showing inside later).mapFirst
        ((content.showing true inner).toList.getD i [] ++ ·) := by
  rw [showing, ← hinner]
  simp

theorem length_showing (inside : Bool) (t : Template) (choices : List Nat) :
    (t.showing inside choices).toList.length = (t.sections inside).toList.length := by
  induction t generalizing inside choices with
  | empty => rw [sections_empty]; rfl
  | char c rest ih =>
      rw [sections_char, showing]
      split
      next => exact congrArg (· + 1) (ih inside choices)
      next => exact ih inside choices
  | group content rest _ ih =>
      rw [sections_group]
      exact ih inside _

/-- The nodes of a stretch have the sizes of the template's groups, in order. -/
theorem groupSizes_stretch (inside : Bool) (run position number start : Nat) (t : Template) :
    (t.stretch inside run position number).nodes.filterMap Node.size? = t.groupSizes ∧
      ((t.stretch inside run position number).sequences start).length =
        (t.sections inside).toList.length := by
  have hrun : ∀ run stop, (runNode run stop).filterMap Node.size? = [] := by
    intro run stop
    unfold runNode
    split <;> rfl
  fun_induction stretch inside run position number t generalizing start with
  | case1 inside run position number =>
      rw [sections_empty]
      exact ⟨hrun run position, rfl⟩
  | case2 inside run position number c rest after hcut text s ih =>
      rw [sections_char, if_pos hcut, List.filterMap_append, hrun]
      exact ⟨(ih start).1, congrArg (· + 1) (ih after).2⟩
  | case3 inside run position number c rest after hcut ih =>
      rw [sections_char, if_neg hcut]
      exact ih start
  | case4 inside run position number content rest text inner index stop node s ihcontent ihrest =>
      rw [sections_group, List.filterMap_append, List.filterMap_append, hrun, groupSizes]
      refine ⟨?_, (ihrest start).2⟩
      have hnode : node.size? = some content.alternatives.toList.length :=
        congrArg some (ihcontent (position + 1)).2
      rw [List.nil_append, (ihcontent start).1, List.filterMap_cons_some hnode, (ihrest start).1]

/-- The sizes of the groups in a layout are those of the template, in post-order. -/
theorem groupSizes_layout (t : Template) : t.layout.groupSizes = t.groupSizes :=
  (t.groupSizes_stretch false 0 0 0 0).1

/-- The choices of a group are those of its content, its own and those of what follows. -/
theorem chooseAll?_group (content rest : Template) (source : Source) :
    source.chooseAll? (group content rest).groupSizes =
      (source.chooseAll? content.groupSizes).bind fun (inner, source) =>
        (source.choose? content.alternatives.toList.length).bind fun (i, source) =>
          (source.chooseAll? rest.groupSizes).map fun (later, source) =>
            (inner ++ i :: later, source) := by
  rw [groupSizes, Source.chooseAll?_append]
  apply Option.bind_congr
  rintro ⟨inner, next⟩ _
  dsimp only [Source.chooseAll?, bind, pure]
  rw [Option.map_bind]
  apply Option.bind_congr
  rintro ⟨i, last⟩ _
  dsimp only [Function.comp]
  cases last.chooseAll? rest.groupSizes <;> rfl

/-- With room for all groups a walk draws for each of them in turn and shows the choices. -/
theorem walk?_eq_chooseAll? {inside : Bool} {t : Template} {w : Walk}
    (hroom : w.resolved + t.groupCount ≤ maxResolved) :
    t.walk? inside w = (w.source.chooseAll? t.groupSizes).map fun (choices, source) =>
      (t.showing inside choices, { w with source, resolved := w.resolved + t.groupCount }) := by
  induction t generalizing inside w with
  | empty => rfl
  | char c rest ih =>
      rw [walk?, ih hroom, groupSizes]
      cases w.source.chooseAll? rest.groupSizes <;> rfl
  | group content rest ihcontent ihrest =>
      have hcount : (group content rest).groupCount =
          content.groupCount + rest.groupCount + 1 := rfl
      have hlt : w.resolved + content.groupCount < maxResolved := by omega
      rw [walk?, ihcontent (by omega), chooseAll?_group, Option.map_bind]
      dsimp only [bind, pure]
      rw [Option.bind_map]
      apply Option.bind_congr
      rintro ⟨inner, source⟩ hcontent
      have hinner : inner.length = content.groupCount := by
        rw [Source.length_of_chooseAll? hcontent, length_groupSizes]
      dsimp only [Function.comp]
      rw [Walk.resolve?_of_lt hlt, Option.bind_map, length_showing, sections_true, Option.map_bind]
      apply Option.bind_congr
      rintro ⟨i, next⟩ _
      -- One more group is resolved when the rest is walked.
      have hnext : w.resolved + content.groupCount + 1 + rest.groupCount ≤ maxResolved := by omega
      dsimp only [Function.comp]
      rw [ihrest hnext, Option.map_map]
      cases next.chooseAll? rest.groupSizes with
      | none => rfl
      | some r =>
          obtain ⟨later, last⟩ := r
          have hresolved : w.resolved + content.groupCount + 1 + rest.groupCount =
              w.resolved + (group content rest).groupCount := by
            omega
          simp only [Option.map_some, Option.bind_some, Function.comp, hresolved,
            showing_group inside rest hinner]

/-- Where all groups can be resolved, a random expansion is one draw for each of them in post-order
and then the text that shows what was drawn. -/
theorem sample?_eq_chooseAll? {t : Template} (hcount : t.groupCount ≤ maxResolved)
    (source : Source) :
    t.sample? source = (source.chooseAll? t.groupSizes).map fun (choices, after) =>
      (⟨(t.showing false choices).first, t.groupCount, false⟩, after) := by
  have hroom : (0 : Nat) + t.groupCount ≤ maxResolved := by rwa [Nat.zero_add]
  rw [sample?, walk?_eq_chooseAll? (w := ⟨source, 0, false⟩) hroom]
  cases source.chooseAll? t.groupSizes with
  | none => rfl
  | some r => simp

/-- A source of zeros chooses the first alternative everywhere, with one word for each group. -/
theorem sample?_of_zero {t : Template} (hcount : t.groupCount ≤ maxResolved) {source : Source}
    (hzero : ∀ i, source.word i = 0) :
    t.sample? source =
      some (⟨(t.showing false (List.replicate t.groupCount 0)).first, t.groupCount, false⟩,
        { source with drawn := source.drawn + t.groupCount }) := by
  rw [sample?_eq_chooseAll? hcount, Source.chooseAll?_of_zero hzero, length_groupSizes]
  rfl

end Template

end Campaign
