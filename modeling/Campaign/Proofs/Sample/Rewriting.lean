import Campaign.Proofs.Sample.Residue

/-!
# Random expansion as rewriting

Random expansion can also be told on the text alone: find the leftmost opening brace whose next
brace is a closing one, put one of the pieces between the two in their place, and begin again.
The walk over a template resolves groups in that same order, so both draw the same words and show
the same text. Loose braces are never rewritten, and where the limit falls inside a nested group
the loop leaves what the walk writes back.
-/

namespace Campaign

open Brace Template

/-- The characters up to the next brace and what follows it, if it is a closing brace. -/
def untilClose? : List Char → Option (List Char × List Char)
  | [] => none
  | c :: rest =>
    if c = '}' then some ([], rest)
    else if c = '{' then none
    else (untilClose? rest).map fun (inner, after) => (c :: inner, after)

/-- The text before the leftmost opening brace whose next brace is a closing one, between the two
and after them. -/
def innermost? : List Char → Option (List Char × List Char × List Char)
  | [] => none
  | c :: rest =>
    match if c = '{' then untilClose? rest else none with
    | some (inner, after) => some ([], inner, after)
    | none => (innermost? rest).map fun (before, inner, after) => (c :: before, inner, after)

/-- Rewrites a text at most so many times, some groups being resolved already: the leftmost opening
brace whose next brace is a closing one gives way, up to that brace, to a piece between the two. The
rewriting is cut short if there is still one after the last time. -/
def rewrite? : (steps resolved : Nat) → List Char → Source → Option (Sample × Source)
  | 0, resolved, text, source => some (⟨text, resolved, (innermost? text).isSome⟩, source)
  | steps + 1, resolved, text, source =>
    match innermost? text with
    | none => some (⟨text, resolved, false⟩, source)
    | some (before, inner, after) => do
      let choices := inner.splitOnP isSeparator
      let (i, source) ← source.choose? choices.length
      rewrite? steps (resolved + 1) (before ++ choices.getD i [] ++ after) source

/-! ### The leftmost innermost group -/

theorem untilClose?_close (rest : List Char) : untilClose? ('}' :: rest) = some ([], rest) := rfl

theorem untilClose?_open (rest : List Char) : untilClose? ('{' :: rest) = none := rfl

theorem untilClose?_ordinary {c : Char} (hopen : c ≠ '{') (hclose : c ≠ '}') (rest : List Char) :
    untilClose? (c :: rest) =
      (untilClose? rest).map fun (inner, after) => (c :: inner, after) := by
  rw [untilClose?, if_neg hclose, if_neg hopen]

/-- Text without braces does not hide the next brace. -/
theorem untilClose?_append {inner : List Char} (h : ∀ c ∈ inner, c ≠ '{' ∧ c ≠ '}')
    (rest : List Char) :
    untilClose? (inner ++ rest) =
      (untilClose? rest).map fun (between, after) => (inner ++ between, after) := by
  induction inner with
  | nil =>
      rw [List.nil_append]
      cases untilClose? rest <;> rfl
  | cons c inner ih =>
      obtain ⟨hc, hinner⟩ := List.forall_mem_cons.mp h
      rw [List.cons_append, untilClose?_ordinary hc.1 hc.2, ih hinner, Option.map_map]
      rfl

theorem innermost?_cons_eq_none {c : Char} {rest : List Char} :
    innermost? (c :: rest) = none ↔
      (c = '{' → untilClose? rest = none) ∧ innermost? rest = none := by
  rw [innermost?]
  by_cases hopen : c = '{'
  · cases untilClose? rest <;> simp [hopen]
  · simp [hopen]

/-- A text whose next brace is no closing one stays so before another such text. -/
theorem untilClose?_eq_none_append {text rest : List Char} (h : untilClose? text = none)
    (hrest : untilClose? rest = none) : untilClose? (text ++ rest) = none := by
  induction text with
  | nil => exact hrest
  | cons c text ih =>
      by_cases hclose : c = '}'
      · rw [hclose, untilClose?_close] at h
        cases h
      by_cases hopen : c = '{'
      · rw [hopen]
        rfl
      · rw [untilClose?_ordinary hopen hclose] at h
        rw [List.cons_append, untilClose?_ordinary hopen hclose,
          ih (Option.map_eq_none_iff.mp h)]
        rfl

/-- A first part that is not rewritten is passed over, if what follows closes none of its braces. -/
theorem innermost?_append {text rest : List Char} (h : innermost? text = none)
    (hrest : untilClose? rest = none) :
    innermost? (text ++ rest) =
      (innermost? rest).map fun (before, inner, after) => (text ++ before, inner, after) := by
  induction text with
  | nil =>
      rw [List.nil_append]
      cases innermost? rest <;> rfl
  | cons c text ih =>
      obtain ⟨huntil, htext⟩ := innermost?_cons_eq_none.mp h
      have hnone : (if c = '{' then untilClose? (text ++ rest) else none) = none := by
        split
        next hopen => exact untilClose?_eq_none_append (huntil hopen) hrest
        next => rfl
      rw [List.cons_append, innermost?, hnone]
      dsimp only
      rw [ih htext, Option.map_map]
      rfl

/-- A group without braces in it is innermost. -/
theorem innermost?_group {inner : List Char} (h : ∀ c ∈ inner, c ≠ '{' ∧ c ≠ '}')
    (after : List Char) :
    innermost? ('{' :: inner ++ '}' :: after) = some ([], inner, after) := by
  rw [List.cons_append, innermost?, if_pos rfl, untilClose?_append h, untilClose?_close]
  simp

theorem innermost?_eq_none_of_not_mem {text : List Char} (h : '{' ∉ text) :
    innermost? text = none := by
  induction text with
  | nil => rfl
  | cons c rest ih =>
      rw [List.mem_cons, not_or] at h
      exact innermost?_cons_eq_none.mpr ⟨fun hopen => absurd hopen.symm h.1, ih h.2⟩

theorem innermost?_isSome_cons (c : Char) {rest : List Char} (h : (innermost? rest).isSome) :
    (innermost? (c :: rest)).isSome := by
  rw [innermost?]
  split
  · rfl
  · rwa [Option.isSome_map]

/-- Wherever a group without braces in it stands, there is an innermost one. -/
theorem innermost?_isSome_of_group {inner : List Char} (h : ∀ c ∈ inner, c ≠ '{' ∧ c ≠ '}')
    (before after : List Char) :
    (innermost? (before ++ ('{' :: inner ++ '}' :: after))).isSome := by
  induction before with
  | nil => rw [List.nil_append, innermost?_group h]; rfl
  | cons c before ih => exact innermost?_isSome_cons c ih

namespace Template

/-- Balanced text without groups has no braces. -/
theorem Balanced.forall_mem_render {t : Template} (h : t.Balanced) (hcount : t.groupCount = 0) :
    ∀ c ∈ t.render, c ≠ '{' ∧ c ≠ '}' := by
  induction t with
  | empty => exact List.forall_mem_nil _
  | char c rest ih =>
      exact List.forall_mem_cons.mpr ⟨⟨h.1, h.2.1⟩, ih h.2.2 hcount⟩
  | group content rest => cases hcount

/-- A template with a group has one without groups in it. -/
theorem exists_innermost {t : Template} (h : t.Canonical) (hcount : 0 < t.groupCount) :
    ∃ before inner after, t.render = before ++ ('{' :: inner ++ '}' :: after) ∧
      ∀ c ∈ inner, c ≠ '{' ∧ c ≠ '}' := by
  induction t with
  | empty => cases hcount
  | char c rest ih =>
      obtain ⟨before, inner, after, heq, hinner⟩ := ih h.2 hcount
      exact ⟨c :: before, inner, after, by rw [render, heq]; rfl, hinner⟩
  | group content rest ih _ =>
      rcases Nat.eq_zero_or_pos content.groupCount with hzero | hpos
      · exact ⟨[], content.render, rest.render, rfl, h.1.forall_mem_render hzero⟩
      · obtain ⟨before, inner, after, heq, hinner⟩ := ih h.1.canonical hpos
        refine ⟨'{' :: before, inner, after ++ '}' :: rest.render, ?_, hinner⟩
        rw [render, heq]
        simp

theorem Opening.untilClose?_eq_none {t : Template} (h : t.Opening) :
    untilClose? t.render = none := by
  induction t with
  | empty => rfl
  | char c rest ih =>
      rw [render]
      by_cases hopen : c = '{'
      · rw [hopen, untilClose?_open]
      · rw [untilClose?_ordinary hopen h.1, ih h.2]
        rfl
  | group content rest => rfl

/-- Without groups nothing is innermost, however many braces are loose. -/
theorem Canonical.innermost?_eq_none {t : Template} (h : t.Canonical) (hcount : t.groupCount = 0) :
    innermost? t.render = none := by
  induction t with
  | empty => rfl
  | char c rest ih =>
      apply innermost?_cons_eq_none.mpr
      refine ⟨?_, ih h.2 hcount⟩
      intro hopen
      exact (h.1 hopen).untilClose?_eq_none
  | group content rest => cases hcount

/-- There is an innermost group exactly if there is a group. -/
theorem Canonical.innermost?_isSome {t : Template} (h : t.Canonical) :
    (innermost? t.render).isSome = decide (0 < t.groupCount) := by
  rcases Nat.eq_zero_or_pos t.groupCount with hzero | hpos
  · rw [h.innermost?_eq_none hzero, hzero]
    rfl
  · obtain ⟨before, inner, after, heq, hinner⟩ := exists_innermost h hpos
    rw [heq, innermost?_isSome_of_group hinner, decide_eq_true hpos]

/-- Without groups the pieces at the separators are the alternatives. -/
theorem splitOnP_render {t : Template} (hcount : t.groupCount = 0) :
    t.render.splitOnP isSeparator = (t.alternatives.map render).toList := by
  induction t with
  | empty => rfl
  | char c rest ih =>
      rw [render, List.splitOnP_cons_eq_if_modifyHead, ih hcount, alternatives]
      split
      next => rfl
      next => rfl
  | group content rest => cases hcount

end Template

/-- What stands before a template leaves the rewriting to the template: none of its opening braces
can be closed from there on. -/
def Ready (before : List Char) (t : Template) : Prop :=
  (innermost? before = none ∧ t.Opening) ∨ ('{' ∉ before ∧ t.Canonical)

namespace Ready

variable {before : List Char} {c : Char} {content rest t : Template}

theorem innermost?_eq_none (h : Ready before t) : innermost? before = none := by
  rcases h with ⟨hbefore, _⟩ | ⟨hbefore, _⟩
  · exact hbefore
  · exact innermost?_eq_none_of_not_mem hbefore

theorem rest_char (h : Ready before (char c rest)) : Ready (before ++ [c]) rest := by
  have hsnoc : innermost? before = none → c ≠ '}' → innermost? (before ++ [c]) = none := by
    intro hbefore hclose
    have huntil : untilClose? [c] = none := by
      rw [untilClose?, if_neg hclose]
      split <;> rfl
    rw [innermost?_append hbefore huntil,
      innermost?_cons_eq_none.mpr ⟨fun _ => rfl, rfl⟩]
    rfl
  rcases h with ⟨hbefore, ht⟩ | ⟨hbefore, ht⟩
  · exact Or.inl ⟨hsnoc hbefore ht.1, ht.2⟩
  · by_cases hopen : c = '{'
    · refine Or.inl ⟨hsnoc (innermost?_eq_none_of_not_mem hbefore) ?_, ht.1 hopen⟩
      rw [hopen]
      decide
    · refine Or.inr ⟨?_, ht.2⟩
      rw [List.mem_append, List.mem_singleton, not_or]
      exact ⟨hbefore, Ne.symm hopen⟩

theorem content_group (h : Ready before (group content rest)) :
    Ready (before ++ ['{']) content := by
  have hcontent : content.Balanced := by
    rcases h with ⟨_, ht⟩ | ⟨_, ht⟩
    · exact ht.1
    · exact ht.1
  refine Or.inl ⟨?_, hcontent.opening⟩
  rw [innermost?_append h.innermost?_eq_none (untilClose?_open [])]
  rfl

/-- What a group gives way to is ready for what follows it. -/
theorem rest_group (h : Ready before (group content rest)) {shown : List Char}
    (hshown : ∀ c ∈ shown, c ≠ '{' ∧ c ≠ '}') : Ready (before ++ shown) rest := by
  have hopen : '{' ∉ shown := fun hmem => (hshown '{' hmem).1 rfl
  rcases h with ⟨hbefore, ht⟩ | ⟨hbefore, ht⟩
  · refine Or.inl ⟨?_, ht.2⟩
    have huntil : untilClose? shown = none := by
      have happend := untilClose?_append hshown []
      rwa [List.append_nil] at happend
    rw [innermost?_append hbefore huntil, innermost?_eq_none_of_not_mem hopen]
    rfl
  · refine Or.inr ⟨?_, ht.2⟩
    rw [List.mem_append, not_or]
    exact ⟨hbefore, hopen⟩

end Ready

/-- Rewriting goes on from where a walk stands. -/
def Walk.rewrite? (w : Walk) (text : List Char) : Option (Sample × Source) :=
  Campaign.rewrite? (maxResolved - w.resolved) w.resolved text w.source

theorem Walk.rewrite?_of_limit {w : Walk} (h : maxResolved ≤ w.resolved) (text : List Char) :
    w.rewrite? text = some (⟨text, w.resolved, (innermost? text).isSome⟩, w.source) := by
  rw [Walk.rewrite?, Nat.sub_eq_zero_of_le h, Campaign.rewrite?]

theorem Walk.rewrite?_of_none (w : Walk) {text : List Char} (h : innermost? text = none) :
    w.rewrite? text = some (⟨text, w.resolved, false⟩, w.source) := by
  rw [Walk.rewrite?]
  cases maxResolved - w.resolved with
  | zero => rw [Campaign.rewrite?, h]; rfl
  | succ steps => rw [Campaign.rewrite?, h]

/-- Rewriting an innermost group and resolving it are the same step. -/
theorem Walk.rewrite?_group {w : Walk} {core : Template} {before : List Char} (after : List Char)
    (hbefore : w.resolved < maxResolved → innermost? before = none)
    (hcore : core.Balanced) (hcount : w.resolved < maxResolved → core.groupCount = 0) :
    w.rewrite? (before ++ ('{' :: core.render ++ '}' :: after)) =
      (w.resolve? (core.alternatives.map render)).bind fun (shown, next) =>
        next.rewrite? (before ++ shown ++ after) := by
  rw [Walk.resolve?]
  split
  next hlt =>
    have hinner := hcore.forall_mem_render (hcount hlt)
    have hsteps : maxResolved - w.resolved = maxResolved - (w.resolved + 1) + 1 := by omega
    have hfind : innermost? (before ++ ('{' :: core.render ++ '}' :: after)) =
        some (before, core.render, after) := by
      have huntil : untilClose? ('{' :: core.render ++ '}' :: after) = none := untilClose?_open _
      rw [innermost?_append (hbefore hlt) huntil, innermost?_group hinner, Option.map_some]
      dsimp only
      rw [List.append_nil]
    rw [Walk.rewrite?, hsteps, Campaign.rewrite?, hfind]
    dsimp only
    rw [splitOnP_render (hcount hlt)]
    cases w.source.choose? (core.alternatives.map render).toList.length <;> rfl
  next hge =>
    -- Past the limit nothing is drawn on either side and the group is written back as it was.
    have hlimit : maxResolved ≤ w.resolved := Nat.le_of_not_lt hge
    have hjoin := join_map_render_sections true core
    rw [sections_true] at hjoin
    rw [Walk.rewrite?_of_limit hlimit, hjoin, Option.bind_some]
    dsimp only
    rw [Walk.rewrite?_of_limit (w := { w with truncated := true }) hlimit]
    simp

/-- What stands for a resolved group leaves the rewriting to the rest, as long as it goes on. -/
theorem Ready.rest_resolve? {w next : Walk} {before chosen : List Char}
    {content rest core : Template} (hcore : core.Balanced)
    (hcount : w.resolved < maxResolved → core.groupCount = 0)
    (hready : w.resolved < maxResolved → Ready before (group content rest))
    (h : w.resolve? (core.alternatives.map render) = some (chosen, next))
    (hlt : next.resolved < maxResolved) : Ready (before ++ chosen) rest := by
  rcases Walk.resolve?_cases h with ⟨hgo, hchosen, _, _⟩ | ⟨hge, _, hresolved, _⟩
  · rw [Pieces.toList_map] at hchosen
    obtain ⟨a, ha, rfl⟩ := List.mem_map.mp hchosen
    have hpart := part_of_mem_alternatives ha
    have hnone : a.groupCount = 0 := Nat.le_zero.mp (hcount hgo ▸ hpart.groupCount_le)
    exact (hready hgo).rest_group ((hpart.balanced hcore).forall_mem_render hnone)
  · omega

namespace Template

/-- A walk over a group goes on from the walk over its content. -/
theorem walk?_group_of_content {inside : Bool} {content rest : Template} {w inner : Walk}
    {alternatives : Pieces (List Char)} (h : content.walk? true w = some (alternatives, inner)) :
    (group content rest).walk? inside w =
      (inner.resolve? alternatives).bind fun (chosen, resolved) =>
        (rest.walk? inside resolved).bind fun (right, next) =>
          some (right.mapFirst (chosen ++ ·), next) := by
  rw [walk?, h]
  rfl

/-- Rewriting a text does to a template in it what the walk over the template does. -/
theorem rewrite?_walk? {inside : Bool} {t : Template} {w : Walk} {before : List Char}
    (after : List Char) (hw : w.resolved ≤ maxResolved) (ht : t.Canonical)
    (hready : w.resolved < maxResolved → Ready before t) :
    w.rewrite? (before ++ t.render ++ after) =
      (t.walk? inside w).bind fun (shown, next) =>
        next.rewrite? (before ++ shown.join ++ after) := by
  -- `before` grows to the right as the walk goes on; that it stays ready carries the induction.
  induction t generalizing inside w before after with
  | empty => rfl
  | char c rest ih =>
      have htext : before ++ (char c rest).render ++ after =
          (before ++ [c]) ++ rest.render ++ after := by
        simp [render]
      rw [htext, ih after hw ht.2 fun hlt => (hready hlt).rest_char, walk?]
      cases rest.walk? inside w with
      | none => rfl
      | some r =>
          obtain ⟨right, next⟩ := r
          by_cases hcut : cuts inside c
          · simp [hcut]
          · simp [hcut]
  | group content rest ihcontent ihrest =>
      have htext : before ++ (group content rest).render ++ after =
          (before ++ ['{']) ++ content.render ++ ('}' :: (rest.render ++ after)) := by
        simp [render]
      rw [htext, ihcontent _ hw ht.1.canonical fun hlt => (hready hlt).content_group]
      cases hcontent : content.walk? true w with
      | none => rw [walk?, hcontent]; rfl
      | some r =>
          obtain ⟨alternatives, inner⟩ := r
          obtain ⟨core, hcore, rfl⟩ := walk?_leaves hw hcontent
          have hresolved := hcore.resolved
          have hgo : inner.resolved < maxResolved → Ready before (group content rest) :=
            fun hlt => hready (by omega)
          have hinner : (before ++ ['{']) ++ core.render ++ ('}' :: (rest.render ++ after)) =
              before ++ ('{' :: core.render ++ '}' :: (rest.render ++ after)) := by
            simp
          -- The content is rewritten to its residue; then the group around the residue is
          -- resolved, and then the rest is rewritten.
          rw [walk?_group_of_content hcontent, Option.bind_some]
          dsimp only
          rw [join_map_render_sections, hinner, inner.rewrite?_group (rest.render ++ after)
            (fun hlt => (hgo hlt).innermost?_eq_none) (hcore.isResidue.balanced ht.1)
            hcore.groupCount_eq_zero, sections_true, Option.bind_assoc]
          apply Option.bind_congr
          rintro ⟨chosen, next⟩ hresolve
          have hnext : next.resolved ≤ maxResolved := by
            rcases Walk.resolve?_cases hresolve with h | h <;> omega
          dsimp only
          rw [← List.append_assoc, ihrest after hnext ht.2
            (Ready.rest_resolve? (hcore.isResidue.balanced ht.1) hcore.groupCount_eq_zero hgo
              hresolve)]
          cases rest.walk? inside next with
          | none => rfl
          | some r => simp

end Template

/-- Where a walk ends the rewriting has nothing more to do. -/
theorem Walk.Leaves.rewrite? {source : Source} {t residue : Template} {after : Walk}
    (h : Walk.Leaves ⟨source, 0, false⟩ t after residue) (ht : t.Canonical) :
    after.rewrite? residue.render =
      some (⟨residue.render, after.resolved, after.truncated⟩, after.source) := by
  have hcanonical := h.isResidue.canonical ht
  have hcount := h.groupCount
  have hresolved := h.resolved
  have htruncated := h.truncated
  rw [Nat.zero_add] at hcount hresolved htruncated
  rw [Bool.false_or] at htruncated
  rcases Nat.eq_zero_or_pos residue.groupCount with hzero | hpos
  · have hnot : ¬ maxResolved < t.groupCount := by omega
    rw [after.rewrite?_of_none (hcanonical.innermost?_eq_none hzero), htruncated,
      decide_eq_false hnot]
  · have hlimit : maxResolved ≤ after.resolved := by omega
    have hmore : maxResolved < t.groupCount := by omega
    rw [Walk.rewrite?_of_limit hlimit, hcanonical.innermost?_isSome, htruncated,
      decide_eq_true hpos, decide_eq_true hmore]

/-- A random expansion is the rewriting of its text: it draws the same choices and shows the same
text, and it is cut short when the rewriting is. -/
theorem sample?_eq_rewrite? {text : List Char} {t : Template} (h : Template.parse text = .ok t)
    (source : Source) : t.sample? source = rewrite? maxResolved 0 text source := by
  have ht : t.Canonical := canonical_of_parse h
  have hwalk : Walk.rewrite? ⟨source, 0, false⟩ ([] ++ t.render ++ []) =
      (t.walk? false ⟨source, 0, false⟩).bind fun (shown, next) =>
        next.rewrite? ([] ++ shown.join ++ []) :=
    rewrite?_walk? [] (Nat.zero_le _) ht fun _ => Or.inr ⟨List.not_mem_nil, ht⟩
  rw [List.nil_append, List.append_nil, render_of_parse h] at hwalk
  calc t.sample? source
      = (t.walk? false ⟨source, 0, false⟩).bind fun (shown, next) =>
          some (⟨shown.first, next.resolved, next.truncated⟩, next.source) := rfl
    _ = (t.walk? false ⟨source, 0, false⟩).bind fun (shown, next) =>
          next.rewrite? ([] ++ shown.join ++ []) := by
        apply Option.bind_congr
        rintro ⟨shown, next⟩ hshown
        obtain ⟨residue, hleaves, rfl⟩ := walk?_leaves (Nat.zero_le _) hshown
        dsimp only
        rw [join_map_render_sections, List.nil_append, List.append_nil, hleaves.rewrite? ht]
        rfl
    _ = rewrite? maxResolved 0 text source := hwalk.symm

/-- A group inside another, whose choice is drawn first. -/
theorem sample?_nested_rewrite? :
    Template.parse ['{', '{', 'a', '|', 'b', '}', '/', 'c', '}'] = .ok
      (.group (.group (.char 'a' (.char '|' (.char 'b' .empty))) (.char '/' (.char 'c' .empty)))
        .empty) ∧
    (Template.group
      (.group (.char 'a' (.char '|' (.char 'b' .empty))) (.char '/' (.char 'c' .empty)))
        .empty).sample? (Source.ofStep 0 1) =
      rewrite? maxResolved 0 ['{', '{', 'a', '|', 'b', '}', '/', 'c', '}'] (Source.ofStep 0 1) :=
  ⟨rfl, sample?_eq_rewrite? rfl (Source.ofStep 0 1)⟩

end Campaign
