import Campaign.Proofs.Sample.Resuming

/-!
# Every choice can be drawn

Whatever alternative one wants of each group, there are words that make a random expansion draw
just these, since a word can be found for each choice by itself. So every expansion of a text is
shown for some source, and the source of zeros shows the first one.
-/

namespace Campaign

open Template

namespace Source

/-- The next words of a source are the given ones. -/
def Gives (s : Source) : List UInt64 → Prop
  | [] => True
  | word :: words => s.next = word ∧ s.skip.Gives words

theorem gives_ofWords (before words : List UInt64) :
    Gives { ofWords (before ++ words).toArray with drawn := before.length } words := by
  induction words generalizing before with
  | nil => trivial
  | cons word words ih =>
      refine ⟨?_, ?_⟩
      · simp [next, ofWords]
      · have hlater := ih (before ++ [word])
        rw [List.append_assoc, List.length_append] at hlater
        exact hlater

/-- Words that stand for given choices make a source draw them, one word for each. -/
theorem chooseAll?_of_gives {sizes choices : List Nat}
    (hchoices : List.Forall₂ (· < ·) choices sizes) (hsizes : ∀ n ∈ sizes, n ≤ UInt64.size)
    {s : Source} (hgives : s.Gives (List.zipWith wordFor sizes choices)) :
    s.chooseAll? sizes = some (choices, { s with drawn := s.drawn + sizes.length }) := by
  induction hchoices generalizing s with
  | nil => rfl
  | @cons i n choices sizes hi _ ih =>
      obtain ⟨hn, hsizes⟩ := List.forall_mem_cons.mp hsizes
      obtain ⟨hnext, hlater⟩ := hgives
      have haccepts : accepts n s.next := by
        rw [hnext]
        exact accepts_wordFor hn hi
      rw [chooseAll?_cons_of_accepts haccepts, ih hsizes hlater, hnext, pick_wordFor hn hi]
      simp [skip, Nat.add_assoc, Nat.add_comm 1]

end Source

namespace Template

/-- A content has at most one alternative more than bytes. -/
theorem length_alternatives_le (t : Template) :
    t.alternatives.toList.length ≤ t.byteLength + 1 := by
  induction t with
  | empty => exact Nat.le_refl _
  | char c rest ih =>
      have hpos := c.utf8Size_pos
      rw [alternatives, byteLength]
      split
      · rw [Pieces.toList_cut, List.length_cons]
        omega
      · change rest.alternatives.toList.length ≤ _
        omega
  | group content rest _ ih =>
      rw [byteLength]
      change rest.alternatives.toList.length ≤ _
      omega

/-- A group has fewer alternatives than the text has bytes. -/
theorem le_byteLength_of_mem_groupSizes {t : Template} {n : Nat} (hn : n ∈ t.groupSizes) :
    n ≤ t.byteLength := by
  induction t with
  | empty => cases hn
  | char c rest ih => exact Nat.le_trans (ih hn) (Nat.le_add_left _ _)
  | group content rest ihcontent ihrest =>
      have hlength := content.length_alternatives_le
      rw [byteLength]
      rcases List.mem_append.mp hn with hn | hn
      · have hle := ihcontent hn
        omega
      rcases List.mem_cons.mp hn with rfl | hn
      · omega
      · have hle := ihrest hn
        omega

/-- A choice below every size, for each group in order. -/
def Chooses (t : Template) (choices : List Nat) : Prop :=
  List.Forall₂ (· < ·) choices t.groupSizes

theorem Chooses.length_eq {t : Template} {choices : List Nat} (h : t.Chooses choices) :
    choices.length = t.groupCount := by
  rw [← length_groupSizes]
  exact List.Forall₂.length_eq h

section Group

variable {content rest : Template} {i : Nat} {inner later choices : List Nat}

/-- Choices for the content, one for the group and choices for what follows are choices for all. -/
theorem Chooses.group (hinner : content.Chooses inner)
    (hi : i < content.alternatives.toList.length) (hlater : rest.Chooses later) :
    (group content rest).Chooses (inner ++ i :: later) :=
  List.rel_append hinner (.cons hi hlater)

/-- Conversely, all choices for a group split in that way. -/
theorem Chooses.exists_of_group (h : (Template.group content rest).Chooses choices) :
    ∃ inner i later, choices = inner ++ i :: later ∧ content.Chooses inner ∧
      i < content.alternatives.toList.length ∧ rest.Chooses later := by
  have hinner := List.forall₂_take_append _ _ _ h
  have hafter := List.forall₂_drop_append _ _ _ h
  obtain ⟨i, later, hi, hlater, heq⟩ := List.forall₂_cons_right_iff.mp hafter
  refine ⟨_, i, later, ?_, hinner, hi, hlater⟩
  rw [← heq, List.take_append_drop]

end Group

theorem replicate_groupCount_group (content rest : Template) :
    List.replicate (group content rest).groupCount 0 =
      List.replicate content.groupCount 0 ++ 0 :: List.replicate rest.groupCount 0 := by
  rw [groupCount, Nat.add_assoc, List.replicate_add]
  rfl

theorem chooses_zero (t : Template) : t.Chooses (List.replicate t.groupCount 0) := by
  induction t with
  | empty => exact .nil
  | char c rest ih => exact ih
  | group content rest ihcontent ihrest =>
      have hpos : 0 < content.alternatives.toList.length := Nat.succ_pos _
      rw [replicate_groupCount_group]
      exact ihcontent.group hpos ihrest

/-- Every expansion of a piece is shown for some choices. -/
theorem exists_chooses (inside : Bool) {t a : Template} {j : Nat} {shown : List Char}
    (ha : (t.sections inside).toList[j]? = some a) (hshown : shown ∈ a.allExpansions) :
    ∃ choices, t.Chooses choices ∧ (t.showing inside choices).toList[j]? = some shown := by
  induction t generalizing inside a j shown with
  | empty =>
      rw [sections_empty] at ha
      cases j with
      | zero =>
          obtain rfl : empty = a := Option.some.inj ha
          rw [allExpansions_empty] at hshown
          exact ⟨[], .nil, congrArg some (List.mem_singleton.mp hshown).symm⟩
      | succ j => cases ha
  | char c rest ih =>
      rw [sections_char] at ha
      simp only [showing]
      split at ha
      next hcut =>
        simp only [if_pos hcut]
        cases j with
        | zero =>
            obtain rfl : empty = a := Option.some.inj ha
            rw [allExpansions_empty] at hshown
            refine ⟨_, rest.chooses_zero, ?_⟩
            exact congrArg some (List.mem_singleton.mp hshown).symm
        | succ j => exact ih inside ha hshown
      next hcut =>
        simp only [if_neg hcut]
        cases j with
        | zero =>
            obtain rfl : char c (rest.sections inside).first = a := Option.some.inj ha
            rw [allExpansions_char] at hshown
            obtain ⟨tail, htail, rfl⟩ := List.mem_map.mp hshown
            obtain ⟨choices, hchoices, heq⟩ := @ih inside _ 0 tail rfl htail
            refine ⟨choices, hchoices, ?_⟩
            exact congrArg (Option.map (c :: ·)) heq
        | succ j => exact @ih inside a (j + 1) shown ha hshown
  | group content rest ihcontent ihrest =>
      rw [sections_group] at ha
      cases j with
      | zero =>
          obtain rfl : group content (rest.sections inside).first = a := Option.some.inj ha
          rw [allExpansions_group] at hshown
          obtain ⟨x, hx, htail⟩ := List.mem_flatMap.mp hshown
          obtain ⟨y, hy, rfl⟩ := List.mem_map.mp htail
          obtain ⟨texts, htexts, hx⟩ := List.mem_flatten.mp hx
          obtain ⟨b, hb, rfl⟩ := List.mem_map.mp htexts
          obtain ⟨i, hi, rfl⟩ := List.getElem_of_mem hb
          -- The group takes the alternative that the text comes from.
          obtain ⟨inner, hinner, hchosen⟩ := ihcontent true (List.getElem?_eq_getElem hi) hx
          obtain ⟨later, hlater, hright⟩ := @ihrest inside _ 0 y rfl hy
          refine ⟨inner ++ i :: later, hinner.group hi hlater, ?_⟩
          rw [showing_group inside rest hinner.length_eq, List.getD_eq_getElem?_getD, hchosen]
          exact congrArg (Option.map (x ++ ·)) hright
      | succ j =>
          obtain ⟨later, hlater, heq⟩ := @ihrest inside a (j + 1) shown ha hshown
          -- The text comes from a later piece, so any choices will do for this group.
          have hpos : 0 < content.alternatives.toList.length := Nat.succ_pos _
          have hinner := content.chooses_zero
          refine ⟨_, hinner.group hpos hlater, ?_⟩
          rw [showing_group inside rest hinner.length_eq]
          exact heq

/-- What a piece shows for some choices is an expansion of it. -/
theorem Chooses.showing_mem (inside : Bool) {t : Template} {choices : List Nat}
    (h : t.Chooses choices) :
    List.Forall₂ (fun shown a => shown ∈ a.allExpansions) (t.showing inside choices).toList
      (t.sections inside).toList := by
  induction t generalizing inside choices with
  | empty =>
      rw [sections_empty]
      exact .cons (allExpansions_empty ▸ List.mem_singleton_self []) .nil
  | char c rest ih =>
      have hrest := ih inside h
      rw [sections_char, showing]
      split
      next => exact .cons (allExpansions_empty ▸ List.mem_singleton_self []) hrest
      next =>
        obtain ⟨hfirst, hothers⟩ := List.forall₂_cons.mp hrest
        refine .cons ?_ hothers
        rw [Pieces.mapFirst, Pieces.mapFirst, allExpansions_char]
        exact List.mem_map_of_mem hfirst
  | group content rest ihcontent ihrest =>
      obtain ⟨inner, i, later, rfl, hinner, hi, hlater⟩ := h.exists_of_group
      obtain ⟨hfirst, hothers⟩ := List.forall₂_cons.mp (ihrest inside hlater)
      have hcontent := ihcontent true hinner
      -- The choice is below the number of alternatives, hence of what they show.
      have hi' : i < (content.showing true inner).toList.length := by
        rwa [hcontent.length_eq]
      have hchosen := hcontent.get hi' hi
      rw [sections_group, showing_group inside rest hinner.length_eq]
      refine .cons ?_ hothers
      rw [Pieces.mapFirst, Pieces.mapFirst, allExpansions_group,
        List.getD_eq_getElem?_getD, List.getElem?_eq_getElem hi', Option.getD_some]
      apply List.mem_flatMap.mpr
      refine ⟨_, List.mem_flatten.mpr ⟨_, List.mem_map_of_mem (List.getElem_mem hi), hchosen⟩, ?_⟩
      exact List.mem_map_of_mem hfirst

/-- Choosing the first alternative everywhere shows the first expansion. -/
theorem showing_zero (inside : Bool) (t : Template) :
    t.showing inside (List.replicate t.groupCount 0) =
      (t.sections inside).map fun a => a.allExpansions.headD [] := by
  induction t generalizing inside with
  | empty =>
      rw [sections_empty, Pieces.map_single, allExpansions_empty]
      rfl
  | char c rest ih =>
      rw [sections_char, showing, groupCount, ih]
      split
      next =>
        rw [Pieces.map_cut, allExpansions_empty]
        rfl
      next =>
        symm
        apply Pieces.map_mapFirst
        intro a
        obtain ⟨first, others, heq⟩ := List.exists_cons_of_ne_nil a.allExpansions_ne_nil
        rw [allExpansions_char, heq]
        rfl
  | group content rest ihcontent ihrest =>
      have hlength : (List.replicate content.groupCount 0).length = content.groupCount :=
        List.length_replicate
      rw [replicate_groupCount_group, showing_group inside rest hlength, ihcontent, ihrest,
        sections_group, sections_true]
      symm
      apply Pieces.map_mapFirst
      intro a
      obtain ⟨x, xs, hx⟩ :=
        List.exists_cons_of_ne_nil content.alternatives.first.allExpansions_ne_nil
      obtain ⟨y, ys, hy⟩ := List.exists_cons_of_ne_nil a.allExpansions_ne_nil
      simp [allExpansions_group, Pieces.toList, Pieces.map, hx, hy, cross_cons]

end Template

/-- Which texts a random expansion of a template can show, and for which draws. -/
structure Reachable (text : List Char) (t : Template) : Prop where
  /-- An expansion is one draw for each group, a group after those inside it, and what they show. -/
  sample?_eq : ∀ source, t.sample? source =
    (source.chooseAll? t.layout.groupSizes).map fun (choices, after) =>
      (⟨(t.showing false choices).first, t.groupCount, false⟩, after)
  exists_words : ∀ choices, List.Forall₂ (· < ·) choices t.layout.groupSizes →
    ∃ words : List UInt64, ∃ after, words.length = t.groupCount ∧ after.drawn = words.length ∧
      (Source.ofWords words.toArray).chooseAll? t.layout.groupSizes = some (choices, after) ∧
      t.sample? (Source.ofWords words.toArray) =
        some (⟨(t.showing false choices).first, t.groupCount, false⟩, after)
  mem_enumeration_iff : ∀ shown, shown ∈ enumeration text ↔
    ∃ choices, List.Forall₂ (· < ·) choices t.layout.groupSizes ∧
      (t.showing false choices).first = shown
  exists_source : ∀ shown ∈ enumeration text, ∃ words : List UInt64,
    (sampleText? text (Source.ofWords words.toArray)).map Prod.fst = some shown
  first_of_zero : ∀ source, (∀ i, source.word i = 0) →
    ∃ shown, expand 1 text = [shown] ∧ (sampleText? text source).map Prod.fst = some shown

section Text

variable {text : List Char} {t : Template}

theorem sampleText?_of_sample? (hparse : parse text = .ok t) {source after : Source} {s : Sample}
    (h : t.sample? source = some (s, after)) :
    (sampleText? text source).map Prod.fst = some s.text := by
  rw [sampleText?_of_ok hparse, h]
  rfl

/-- Any choices are those of some words, one for each group. -/
theorem exists_words_of_chooses {choices : List Nat} (hcount : t.groupCount ≤ maxResolved)
    (hsize : t.byteLength ≤ wordMax) (hchoices : t.Chooses choices) :
    ∃ words : List UInt64, ∃ after, words.length = t.groupCount ∧ after.drawn = words.length ∧
      (Source.ofWords words.toArray).chooseAll? t.groupSizes = some (choices, after) ∧
      t.sample? (Source.ofWords words.toArray) =
        some (⟨(t.showing false choices).first, t.groupCount, false⟩, after) := by
  have hsizes : ∀ n ∈ t.groupSizes, n ≤ UInt64.size := by
    intro n hn
    have hle := le_byteLength_of_mem_groupSizes hn
    exact Nat.le_trans hle (Nat.le_trans hsize (Nat.sub_le _ _))
  have hlength : (List.zipWith Source.wordFor t.groupSizes choices).length = t.groupCount := by
    rw [List.length_zipWith, hchoices.length_eq, length_groupSizes, Nat.min_self]
  have hgives := Source.gives_ofWords [] (List.zipWith Source.wordFor t.groupSizes choices)
  have hdraws := Source.chooseAll?_of_gives hchoices hsizes hgives
  have hdrawn : ([] : List UInt64).length + t.groupSizes.length = t.groupCount := by
    rw [List.length_nil, Nat.zero_add, length_groupSizes]
  refine ⟨_, _, hlength, ?_, hdraws, ?_⟩
  · rw [hlength]
    exact hdrawn
  · rw [sample?_eq_chooseAll? hcount]
    exact congrArg (Option.map _) hdraws

end Text

/-- In a text that parses with at most the limit of groups every choice of alternatives can be
drawn, so a random expansion can show every expansion, and from zeros it shows the first one. The
length of the text is a 64-bit number, for a word chooses among no more things than that. -/
theorem sample?_reachable {text : List Char} {t : Template} (hparse : parse text = .ok t)
    (hsize : Text.byteLength text ≤ wordMax) (hcount : t.groupCount ≤ maxResolved) :
    Reachable text t := by
  have hlength : t.byteLength ≤ wordMax := by
    rwa [byteLength_eq, render_of_parse hparse]
  have hchosen : ∀ shown, shown ∈ enumeration text ↔
      ∃ choices, t.Chooses choices ∧ (t.showing false choices).first = shown := by
    intro shown
    rw [enumeration_of_ok hparse]
    constructor
    · intro hshown
      obtain ⟨choices, hchoices, heq⟩ := @exists_chooses false t t 0 shown rfl hshown
      exact ⟨choices, hchoices, Option.some.inj heq⟩
    · rintro ⟨choices, hchoices, rfl⟩
      exact (List.forall₂_cons.mp (hchoices.showing_mem false)).1
  -- Every choice is drawn by some words, and every expansion is shown for some choices.
  refine ⟨?_, ?_, ?_, ?_, ?_⟩
  · intro source
    rw [groupSizes_layout]
    exact sample?_eq_chooseAll? hcount source
  · intro choices hchoices
    rw [groupSizes_layout] at hchoices ⊢
    exact exists_words_of_chooses hcount hlength hchoices
  · rw [groupSizes_layout]
    exact hchosen
  · intro shown hshown
    obtain ⟨choices, hchoices, rfl⟩ := (hchosen shown).mp hshown
    obtain ⟨words, after, _, _, _, hsample⟩ := exists_words_of_chooses hcount hlength hchoices
    exact ⟨words, sampleText?_of_sample? hparse hsample⟩
  · intro source hzero
    obtain ⟨first, others, heq⟩ := List.exists_cons_of_ne_nil t.allExpansions_ne_nil
    have hsample := sample?_of_zero hcount hzero
    rw [t.showing_zero false, sections_false, Pieces.map_single, heq] at hsample
    refine ⟨first, ?_, sampleText?_of_sample? hparse hsample⟩
    rw [expand, hparse]
    dsimp only
    rw [t.expansions_eq_take, heq]
    rfl

/-- A group in the second alternative of another, with a loose brace behind. -/
theorem sample?_reachable_nested :
    Template.parse ['{', 'a', '|', '{', 'b', '/', 'c', '}', '}', '{'] = .ok
      (.group (.char 'a' (.char '|' (.group (.char 'b' (.char '/' (.char 'c' .empty))) .empty)))
        (.char '{' .empty)) ∧
    Text.byteLength ['{', 'a', '|', '{', 'b', '/', 'c', '}', '}', '{'] ≤ wordMax ∧
    (Template.group
      (.char 'a' (.char '|' (.group (.char 'b' (.char '/' (.char 'c' .empty))) .empty)))
        (.char '{' .empty)).groupCount ≤ maxResolved ∧
    Reachable ['{', 'a', '|', '{', 'b', '/', 'c', '}', '}', '{']
      (.group (.char 'a' (.char '|' (.group (.char 'b' (.char '/' (.char 'c' .empty))) .empty)))
        (.char '{' .empty)) :=
  ⟨rfl, by decide, by decide, sample?_reachable rfl (by decide) (by decide)⟩

end Campaign
