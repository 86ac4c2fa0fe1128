import Campaign.Proofs.Template.Literals

/-!
# The stack of open braces

A single pass over a text keeps the opening braces that have no partner yet on a stack. Wherever the
pass stands, a brace is on the stack with as many above it as its own scan counts as open inside it,
so the closing brace that takes it off is the one at which that scan stops. The groups found in this
way are those of the text read as a template, which are apart or one inside the other.
-/

namespace Campaign

open Text

namespace Brace

/-- The number of open braces after a character; nothing when it closes one that is not counted. -/
def balance? (inner : Nat) (c : Char) : Option Nat :=
  if c = '{' then some (inner + 1)
  else if c = '}' then if inner = 0 then none else some (inner - 1)
  else some inner

/-- A brace opens at a byte position and is still open at the end of a text, and so are a number of
braces behind it. -/
def OpenAt (text : List Char) (position inner : Nat) : Prop :=
  ∃ rest, fromByte? text position = some ('{' :: rest) ∧ rest.foldlM balance? 0 = some inner

section Scan

variable {text : List Char} {c : Char} {i k : Nat}

theorem balance?_open (inner : Nat) : balance? inner '{' = some (inner + 1) := rfl

theorem balance?_close_eq_some_iff {inner : Nat} : balance? inner '}' = some k ↔ inner = k + 1 := by
  cases inner with
  | zero => simp [balance?]
  | succ inner => simp [balance?]

theorem balance?_ordinary (hopen : c ≠ '{') (hclose : c ≠ '}') (inner : Nat) :
    balance? inner c = some inner := by
  rw [balance?, if_neg hopen, if_neg hclose]

theorem balance?_eq_none_iff {inner : Nat} : balance? inner c = none ↔ c = '}' ∧ inner = 0 := by
  unfold balance?
  grind

theorem closeWithin?_cons (inner : Nat) (c : Char) (rest : List Char) :
    closeWithin? inner (c :: rest) =
      match balance? inner c with
      | none => some 1
      | some inner => (closeWithin? inner rest).map (· + c.utf8Size) := by
  by_cases hopen : c = '{'
  · subst hopen
    exact closeWithin?_open inner rest
  · by_cases hclose : c = '}'
    · subst hclose
      cases inner with
      | zero => rfl
      | succ inner => exact closeWithin?_close_succ inner rest
    · rw [balance?_ordinary hopen hclose]
      exact closeWithin?_ordinary hopen hclose inner rest

/-- A scan goes on behind a first part with the braces that are open there, if it did not stop in
that part. -/
theorem closeWithin?_append (inner : Nat) (first rest : List Char) :
    closeWithin? inner (first ++ rest) =
      match first.foldlM balance? inner with
      | none => closeWithin? inner first
      | some inner => (closeWithin? inner rest).map (· + byteLength first) := by
  -- On the first part, over which the braces that are open there grow and shrink.
  induction first generalizing inner with
  | nil => simp
  | cons c first ih =>
      rw [List.cons_append, closeWithin?_cons, closeWithin?_cons, List.foldlM_cons]
      cases balance? inner c with
      | none => rfl
      | some inner =>
          rw [Option.bind_eq_bind, Option.bind_some]
          dsimp only
          rw [ih]
          cases first.foldlM balance? inner with
          | none => rfl
          | some inner =>
              dsimp only
              rw [Option.map_map, byteLength_cons]
              congr 1
              funext n
              dsimp only [Function.comp]
              omega

theorem closeWithin?_nil (inner : Nat) : closeWithin? inner [] = none := by
  cases inner <;> rfl

theorem closeWithin?_singleton (inner : Nat) (c : Char) :
    closeWithin? inner [c] = if c = '}' ∧ inner = 0 then some 1 else none := by
  rw [closeWithin?_cons]
  cases hinner : balance? inner c with
  | none => rw [if_pos (balance?_eq_none_iff.mp hinner)]
  | some k =>
      rw [if_neg fun h => by rw [balance?_eq_none_iff.mpr h] at hinner; cases hinner]
      dsimp only
      rw [closeWithin?_nil]
      rfl

/-- A scan that has not stopped goes on to stop at a closing brace that none is open for. -/
theorem closeWithin?_append_singleton {first : List Char} {n : Nat} :
    closeWithin? 0 (first ++ [c]) = some n ↔ closeWithin? 0 first = some n ∨
      (c = '}' ∧ first.foldlM balance? 0 = some 0 ∧ n = byteLength first + 1) := by
  have hself := closeWithin?_append 0 first []
  rw [List.append_nil] at hself
  rw [closeWithin?_append]
  cases hinner : first.foldlM balance? 0 with
  | none => simp
  | some inner =>
      rw [hinner] at hself
      dsimp only at hself ⊢
      rw [closeWithin?_nil] at hself
      rw [hself, closeWithin?_singleton, Option.some.injEq, ← and_assoc]
      split
      next h => simp [h, eq_comm, Nat.add_comm]
      next h => simp [h]

/-- With one more character at the end, a position has what it had and that character behind it, or
is the new end. -/
theorem fromByte?_append_singleton (text : List Char) (c : Char) (i : Nat) (rest : List Char) :
    fromByte? (text ++ [c]) i = some rest ↔
      (∃ first, fromByte? text i = some first ∧ rest = first ++ [c]) ∨
        (rest = [] ∧ i = byteLength text + c.utf8Size) := by
  constructor
  · intro h
    obtain ⟨before, happend, rfl⟩ := fromByte?_eq_some_iff.mp h
    rcases List.eq_nil_or_concat rest with rfl | ⟨first, d, rfl⟩
    · rw [List.append_nil] at happend
      rw [← happend, byteLength_append]
      exact .inr ⟨rfl, by simp⟩
    · rw [List.concat_eq_append, ← List.append_assoc] at happend
      obtain ⟨rfl, hlast⟩ := List.append_inj' happend rfl
      cases hlast
      exact .inl ⟨first, fromByte?_eq_some_iff.mpr ⟨before, rfl, rfl⟩, List.concat_eq_append⟩
  · rintro (⟨first, hfrom, rfl⟩ | ⟨rfl, rfl⟩)
    · obtain ⟨before, rfl, rfl⟩ := fromByte?_eq_some_iff.mp hfrom
      exact fromByte?_eq_some_iff.mpr ⟨before, (List.append_assoc _ _ _), rfl⟩
    · exact fromByte?_eq_some_iff.mpr ⟨text ++ [c], (List.append_nil _).symm, by simp⟩

theorem fromByte?_append_singleton_open {rest : List Char} :
    fromByte? (text ++ [c]) i = some ('{' :: rest) ↔
      (∃ first, fromByte? text i = some ('{' :: first) ∧ rest = first ++ [c]) ∨
        (c = '{' ∧ i = byteLength text ∧ rest = []) := by
  rw [fromByte?_append_singleton]
  constructor
  · rintro (⟨first, hfrom, hrest⟩ | ⟨hrest, -⟩)
    · cases first with
      | nil =>
          obtain ⟨before, happend, rfl⟩ := fromByte?_eq_some_iff.mp hfrom
          cases hrest
          exact .inr ⟨rfl, by rw [happend, List.append_nil], rfl⟩
      | cons d first =>
          cases hrest
          exact .inl ⟨first, hfrom, rfl⟩
    · cases hrest
  · rintro (⟨first, hfrom, rfl⟩ | ⟨rfl, rfl, rfl⟩)
    · exact .inl ⟨_, hfrom, rfl⟩
    · exact .inl ⟨[], fromByte?_eq_some_iff.mpr ⟨text, (List.append_nil text).symm, rfl⟩, rfl⟩

/-- What is open behind one character more. -/
theorem openAt_append_singleton :
    OpenAt (text ++ [c]) i k ↔
      (∃ inner, OpenAt text i inner ∧ balance? inner c = some k) ∨
        (c = '{' ∧ i = byteLength text ∧ k = 0) := by
  constructor
  · rintro ⟨rest, hfrom, hinner⟩
    rcases fromByte?_append_singleton_open.mp hfrom with ⟨first, hbefore, rfl⟩ | ⟨rfl, rfl, rfl⟩
    · rw [List.foldlM_append] at hinner
      obtain ⟨inner, hfirst, hlast⟩ := Option.bind_eq_some_iff.mp hinner
      rw [List.foldlM_cons] at hlast
      obtain ⟨_, hlast, hnil⟩ := Option.bind_eq_some_iff.mp hlast
      cases hnil
      exact .inl ⟨inner, ⟨first, hbefore, hfirst⟩, hlast⟩
    · cases hinner
      exact .inr ⟨rfl, rfl, rfl⟩
  · rintro (⟨inner, ⟨first, hfrom, hfirst⟩, hlast⟩ | ⟨rfl, rfl, rfl⟩)
    · refine ⟨first ++ [c], fromByte?_append_singleton_open.mpr (.inl ⟨first, hfrom, rfl⟩), ?_⟩
      rw [List.foldlM_append, hfirst]
      simpa using hlast
    · exact ⟨[], fromByte?_append_singleton_open.mpr (.inr ⟨rfl, rfl, rfl⟩), rfl⟩

/-- What is found to close a brace is where the scan behind it stops. -/
theorem findClose?_eq_some_iff {e : Nat} : findClose? text i = some e ↔
    ∃ rest n, fromByte? text i = some ('{' :: rest) ∧ closeWithin? 0 rest = some n ∧
      i + 1 + n = e := by
  constructor
  · intro h
    unfold findClose? at h
    split at h
    next rest hfrom =>
      obtain ⟨n, hclose, rfl⟩ := Option.map_eq_some_iff.mp h
      exact ⟨rest, n, hfrom, hclose, rfl⟩
    next => cases h
  · rintro ⟨rest, n, hfrom, hclose, rfl⟩
    rw [findClose?, hfrom]
    exact congrArg (Option.map (i + 1 + ·)) hclose

theorem byteLength_of_fromByte?_open {rest : List Char}
    (h : fromByte? text i = some ('{' :: rest)) : byteLength text = i + 1 + byteLength rest := by
  obtain ⟨before, rfl, rfl⟩ := fromByte?_eq_some_iff.mp h
  rw [byteLength_append, byteLength_cons, ← Nat.add_assoc]
  rfl

/-- What is matched behind one character more. -/
theorem findClose?_append_singleton {e : Nat} : findClose? (text ++ [c]) i = some e ↔
    findClose? text i = some e ∨ (c = '}' ∧ OpenAt text i 0 ∧ e = byteLength text + 1) := by
  constructor
  · intro h
    obtain ⟨rest, n, hfrom, hclose, rfl⟩ := findClose?_eq_some_iff.mp h
    rcases fromByte?_append_singleton_open.mp hfrom with ⟨first, hbefore, rfl⟩ | ⟨rfl, rfl, rfl⟩
    · rcases closeWithin?_append_singleton.mp hclose with hclose | ⟨rfl, hinner, rfl⟩
      · exact .inl (findClose?_eq_some_iff.mpr ⟨first, n, hbefore, hclose, rfl⟩)
      · refine .inr ⟨rfl, ⟨first, hbefore, hinner⟩, ?_⟩
        rw [byteLength_of_fromByte?_open hbefore, Nat.add_assoc _ _ 1]
    · rw [closeWithin?_nil] at hclose
      cases hclose
  · rintro (h | ⟨rfl, ⟨first, hfrom, hinner⟩, rfl⟩)
    · obtain ⟨rest, n, hfrom, hclose, rfl⟩ := findClose?_eq_some_iff.mp h
      exact findClose?_eq_some_iff.mpr
        ⟨rest ++ [c], n, fromByte?_append_singleton_open.mpr (.inl ⟨rest, hfrom, rfl⟩),
          closeWithin?_append_singleton.mpr (.inl hclose), rfl⟩
    · refine findClose?_eq_some_iff.mpr ⟨first ++ ['}'], byteLength first + 1,
        fromByte?_append_singleton_open.mpr (.inl ⟨first, hfrom, rfl⟩),
        closeWithin?_append_singleton.mpr (.inr ⟨rfl, hinner, rfl⟩), ?_⟩
      rw [byteLength_of_fromByte?_open hfrom, Nat.add_assoc _ _ 1]

theorem findClose?_append_of_not (h : ¬ (c = '}' ∧ OpenAt text i 0)) :
    findClose? (text ++ [c]) i = findClose? text i := by
  apply Option.ext
  intro e
  rw [findClose?_append_singleton, or_iff_left fun hclose => h ⟨hclose.1, hclose.2.1⟩]

/-- A closing brace is the partner of the brace that is open with nothing open inside. -/
theorem findClose?_append_close (h : OpenAt text i 0) :
    findClose? (text ++ ['}']) i = some (byteLength text + 1) :=
  findClose?_append_singleton.mpr (.inr ⟨rfl, h, rfl⟩)

end Scan

/-- What a pass knows behind a first part of a text of some length: the stack holds the braces that
are open there, and the ends are those of the scans of that part. -/
structure Pass.Tracks (p : Pass) (length : Nat) (before : List Char) : Prop where
  position_eq : p.position = byteLength before
  size_eq : p.ends.size = length
  waiting_iff : ∀ inner i, p.waiting[inner]? = some i ↔ OpenAt before i inner
  ends_eq : ∀ i < length, p.ends[i]? = some (findClose? before i)

section Pass

variable {p : Pass} {length : Nat} {before : List Char}

theorem fromByte?_nil_ne_open {i : Nat} {rest : List Char} :
    fromByte? [] i ≠ some ('{' :: rest) := by
  cases i <;> simp [fromByte?]

theorem Pass.tracks_start (length : Nat) : (Pass.start length).Tracks length [] := by
  refine ⟨rfl, Array.size_replicate, ?_, ?_⟩
  · intro inner i
    apply iff_of_false
    · simp [Pass.start]
    · rintro ⟨rest, hfrom, -⟩
      exact fromByte?_nil_ne_open hfrom
  · intro i hi
    have hnone : findClose? [] i = none := by
      apply Option.eq_none_iff_forall_ne_some.mpr
      intro e h
      obtain ⟨rest, _, hfrom, -⟩ := findClose?_eq_some_iff.mp h
      exact fromByte?_nil_ne_open hfrom
    rw [hnone, Pass.start, Array.getElem?_replicate, if_pos hi]

section Step

variable {c : Char}

/-- An opening brace goes on top of the stack. -/
theorem Pass.Tracks.step_open (h : p.Tracks length before) :
    (p.step '{').Tracks length (before ++ ['{']) := by
  refine ⟨?_, h.size_eq, ?_, ?_⟩
  · rw [byteLength_append, ← h.position_eq]
    rfl
  · intro inner i
    rw [openAt_append_singleton]
    cases inner with
    | zero =>
        simp [Pass.step, balance?_open, h.position_eq, eq_comm]
    | succ inner =>
        change p.waiting[inner]? = some i ↔ _
        rw [h.waiting_iff]
        simp [balance?_open]
  · intro i hi
    rw [findClose?_append_of_not fun hclose => absurd hclose.1 (by decide)]
    exact h.ends_eq i hi

theorem Pass.Tracks.step_ordinary (h : p.Tracks length before) (hopen : c ≠ '{')
    (hclose : c ≠ '}') : (p.step c).Tracks length (before ++ [c]) := by
  rw [Pass.step, if_neg hopen, if_neg hclose]
  refine ⟨?_, h.size_eq, ?_, ?_⟩
  · rw [byteLength_append, ← h.position_eq]
    rfl
  · intro inner i
    rw [openAt_append_singleton, h.waiting_iff]
    simp [balance?_ordinary hopen hclose, hopen]
  · intro i hi
    rw [findClose?_append_of_not fun h => hclose h.1]
    exact h.ends_eq i hi

/-- The closing brace takes off the stack the brace whose scan it stops. -/
theorem Pass.Tracks.step_close (h : p.Tracks length before) :
    (p.step '}').Tracks length (before ++ ['}']) := by
  obtain ⟨position, waiting, ends⟩ := p
  cases waiting with
  | nil =>
      -- With nothing open the brace closes no scan, so no entry changes.
      have hnone : ∀ i inner, ¬ OpenAt before i inner := by
        intro i inner hopen
        cases (h.waiting_iff inner i).mpr hopen
      refine ⟨?_, h.size_eq, ?_, ?_⟩
      · rw [byteLength_append, ← h.position_eq]
        rfl
      · intro inner i
        rw [openAt_append_singleton]
        simp [hnone, Pass.step]
      · intro i hi
        rw [findClose?_append_of_not fun hclose => hnone i 0 hclose.2]
        exact h.ends_eq i hi
  | cons start waiting =>
      refine ⟨?_, ?_, ?_, ?_⟩
      · rw [byteLength_append, ← h.position_eq]
        rfl
      · exact Array.size_setIfInBounds.trans h.size_eq
      · intro inner i
        rw [openAt_append_singleton]
        simp only [balance?_close_eq_some_iff, exists_eq_right]
        rw [or_iff_left fun h => absurd h.1 (by decide), ← h.waiting_iff]
        rfl
      · intro i hi
        -- The brace on top gets its entry, and all others keep what they have.
        by_cases hstart : i = start
        · subst hstart
          have hopen : OpenAt before i 0 := (h.waiting_iff 0 i).mp rfl
          have hafter : position = byteLength before := h.position_eq
          rw [findClose?_append_close hopen, ← hafter]
          exact Array.getElem?_setIfInBounds_self_of_lt (h.size_eq ▸ hi)
        · have hopen : ¬ OpenAt before i 0 := fun hopen =>
            hstart (Option.some.inj ((h.waiting_iff 0 i).mpr hopen)).symm
          rw [findClose?_append_of_not fun hclose => hopen hclose.2, ← h.ends_eq i hi]
          exact Array.getElem?_setIfInBounds_ne (Ne.symm hstart)

end Step

/-- A character keeps the stack and the ends true to the scans. -/
theorem Pass.Tracks.step (h : p.Tracks length before) (c : Char) :
    (p.step c).Tracks length (before ++ [c]) := by
  by_cases hopen : c = '{'
  · subst hopen
    exact h.step_open
  · by_cases hclose : c = '}'
    · subst hclose
      exact h.step_close
    · exact h.step_ordinary hopen hclose

/-- What a pass knows stays true along any further text. -/
theorem Pass.Tracks.foldl (h : p.Tracks length before) (rest : List Char) :
    (rest.foldl Pass.step p).Tracks length (before ++ rest) := by
  induction rest generalizing p before with
  | nil => rwa [List.append_nil]
  | cons c rest ih =>
      rw [← List.singleton_append, ← List.append_assoc]
      exact ih (h.step c)

/-- Behind the whole text the stack and the ends are true to all its scans. -/
theorem tracks_closes (text : List Char) :
    (text.foldl Pass.step (.start (byteLength text))).Tracks (byteLength text) text :=
  (Pass.tracks_start _).foldl text

theorem length_closes (text : List Char) : (closes text).length = byteLength text :=
  (tracks_closes text).size_eq

/-- The entry of a byte is what the scan from it finds. -/
theorem closes_getElem? {text : List Char} {i : Nat} (hi : i < byteLength text) :
    (closes text)[i]? = some (findClose? text i) := by
  rw [closes, Array.getElem?_toList]
  exact (tracks_closes text).ends_eq i hi

end Pass

end Brace

/-- Two spans are the same, apart, or one is strictly inside the other. -/
def Span.Laminar (a b : Span) : Prop :=
  a = b ∨ a.stop ≤ b.start ∨ b.stop ≤ a.start ∨ (a.start < b.start ∧ b.stop < a.stop) ∨
    (b.start < a.start ∧ a.stop < b.stop)

theorem Span.Laminar.symm {a b : Span} (h : a.Laminar b) : b.Laminar a := by
  rcases h with rfl | h | h | h | h
  · exact .inl rfl
  · exact .inr (.inr (.inl h))
  · exact .inr (.inl h)
  · exact .inr (.inr (.inr (.inr h)))
  · exact .inr (.inr (.inr (.inl h)))

namespace Template

variable {t : Template} {position : Nat}

/-- A group contains those of its content strictly and ends before those behind it. -/
theorem pairwise_groupSpans (t : Template) (position : Nat) :
    (t.groupSpans position).Pairwise Span.Laminar := by
  induction t generalizing position with
  | empty => exact List.Pairwise.nil
  | char c rest ih => exact ih _
  | group content rest ihcontent ihrest =>
      have hinside : ∀ s ∈ content.groupSpans (position + 1),
          position < s.start ∧ s.stop < position + content.byteLength + 2 := by
        intro s hs
        have hbounds := groupSpans_bounds hs
        omega
      have hbehind : ∀ s ∈ rest.groupSpans (position + content.byteLength + 2),
          position + content.byteLength + 2 ≤ s.start :=
        fun s hs => (groupSpans_bounds hs).1
      rw [groupSpans, List.cons_append]
      refine List.pairwise_cons.mpr ⟨?_, List.pairwise_append.mpr ⟨ihcontent _, ihrest _, ?_⟩⟩
      · intro s hs
        rcases List.mem_append.mp hs with hs | hs
        · exact .inr (.inr (.inr (.inl (hinside s hs))))
        · exact .inr (.inl (hbehind s hs))
      · intro a ha b hb
        exact .inr (.inl (Nat.le_trans (Nat.le_of_lt (hinside a ha).2) (hbehind b hb)))

/-- Two groups of a template are nested or apart. -/
theorem laminar_of_mem_groupSpans {a b : Span} (ha : a ∈ t.groupSpans position)
    (hb : b ∈ t.groupSpans position) : a.Laminar b := by
  have hpairs := pairwise_groupSpans t position
  have hflip : (t.groupSpans position).Pairwise (flip Span.Laminar) := hpairs.imp fun h => h.symm
  exact hpairs.forall_of_forall_of_flip (fun _ _ => .inl rfl) hflip ha hb

/-- The characters outside all groups are listed in order. -/
theorem pairwise_literals (t : Template) (position : Nat) :
    (t.literals position).Pairwise fun a b => a.1 < b.1 := by
  induction t generalizing position with
  | empty => exact List.Pairwise.nil
  | char c rest ih =>
      refine List.pairwise_cons.mpr ⟨?_, ih _⟩
      intro p hp
      have hbounds := placed_bounds (literals_subset _ _ hp)
      have hpos := c.utf8Size_pos
      dsimp only
      omega
  | group content rest _ ih => exact ih _

/-- Outside the groups of a canonical template every closing brace is before every opening one. -/
theorem Canonical.close_lt_open (h : t.Canonical) {i j : Nat} (hopen : (i, '{') ∈ t.literals position)
    (hclose : (j, '}') ∈ t.literals position) : j < i := by
  have houter := h.pairwise_outer
  rw [← map_snd_literals position, List.pairwise_map] at houter
  have hbefore : (t.literals position).Pairwise fun a b =>
      a.2 = '{' → b.2 = '}' → b.1 < a.1 :=
    houter.imp fun hchars ha hb => absurd hb (hchars ha)
  have hbehind : (t.literals position).Pairwise fun a b =>
      b.2 = '{' → a.2 = '}' → a.1 < b.1 :=
    (pairwise_literals t position).imp fun hlt _ _ => hlt
  have hself : ∀ p ∈ t.literals position, p.2 = '{' → p.2 = '}' → p.1 < p.1 := by
    intro p _ hopen hclose
    exact absurd (hopen.symm.trans hclose) (by decide)
  exact hbefore.forall_of_forall_of_flip hself hbehind hopen hclose rfl rfl

end Template

namespace Brace

variable {text : List Char}

/-- What two scans of a text find is nested or apart. -/
theorem laminar_of_findClose? {i e j f : Nat} (hi : findClose? text i = some e)
    (hj : findClose? text j = some f) : Span.Laminar ⟨i, e⟩ ⟨j, f⟩ :=
  Template.laminar_of_mem_groupSpans (Template.mem_groupSpans_ofText.mpr hi)
    (Template.mem_groupSpans_ofText.mpr hj)

theorem lt_of_findClose? {i e : Nat} (h : findClose? text i = some e) : i < e := by
  have hbounds := Template.groupSpans_bounds
    (Template.mem_groupSpans_ofText (s := ⟨i, e⟩).mpr h)
  dsimp only at hbounds
  omega

/-- No two opening braces have the same partner. -/
theorem eq_of_findClose?_eq {i j e : Nat} (hi : findClose? text i = some e)
    (hj : findClose? text j = some e) : i = j := by
  have hlti := lt_of_findClose? hi
  have hltj := lt_of_findClose? hj
  rcases laminar_of_findClose? hi hj with heq | h | h | h | h
  · exact congrArg Span.start heq
  all_goals
    dsimp only at h
    omega

/-- Of two loose braces the closing one comes first. -/
theorem close_lt_open_of_loose {i j : Nat} (hi : charAt? text i = some '{')
    (hopen : Loose text i '{') (hj : charAt? text j = some '}') (hclose : Loose text j '}') :
    j < i := by
  have hi := (Template.loose_iff (mem_placed_zero.mpr hi)).mp hopen
  have hj := (Template.loose_iff (mem_placed_zero.mpr hj)).mp hclose
  exact (Template.canonical_ofText text).close_lt_open hi.2 hj.2

/-- What the matching of a text says about each of its bytes. -/
structure Matches (text : List Char) (ends : List (Option Nat)) : Prop where
  length_eq : ends.length = byteLength text
  getElem?_eq : ∀ i < byteLength text, ends[i]? = some (findClose? text i)
  laminar : ∀ i e j f : Nat, ends[i]? = some (some e) → ends[j]? = some (some f) →
    Span.Laminar ⟨i, e⟩ ⟨j, f⟩
  eq_of_stop_eq : ∀ i j e : Nat, ends[i]? = some (some e) → ends[j]? = some (some e) → i = j
  /-- Closing braces without a partner come before opening ones. -/
  close_lt_open : ∀ i j : Nat, charAt? text i = some '{' → ends[i]? = some none →
    charAt? text j = some '}' → (∀ start : Nat, ends[start]? ≠ some (some (j + 1))) → j < i

/-- A pass finds an end at a byte exactly if the scan from it does. -/
theorem closes_getElem?_eq_some_iff {i e : Nat} :
    (closes text)[i]? = some (some e) ↔ findClose? text i = some e := by
  constructor
  · intro h
    have hi := (List.getElem?_eq_some_iff.mp h).1
    rw [closes_getElem? (length_closes text ▸ hi)] at h
    exact Option.some.inj h
  · intro h
    rw [closes_getElem? (lt_byteLength_of_findClose? h), h]

/-- One pass with a stack finds what the scans from each byte find, and the groups that it finds are
apart or one inside the other. -/
theorem closes_matches (text : List Char) : Matches text (closes text) := by
  refine ⟨length_closes text, fun i hi => closes_getElem? hi, ?_, ?_, ?_⟩
  · intro i e j f hi hj
    exact laminar_of_findClose? (closes_getElem?_eq_some_iff.mp hi)
      (closes_getElem?_eq_some_iff.mp hj)
  · intro i j e hi hj
    exact eq_of_findClose?_eq (closes_getElem?_eq_some_iff.mp hi)
      (closes_getElem?_eq_some_iff.mp hj)
  · intro i j hi hopen hj hclose
    apply close_lt_open_of_loose hi (.inl ⟨rfl, ?_⟩) hj (.inr ⟨rfl, ?_⟩)
    · have hlt := (List.getElem?_eq_some_iff.mp hopen).1
      rw [closes_getElem? (length_closes text ▸ hlt)] at hopen
      exact Option.some.inj hopen
    · intro start hstart
      exact hclose start (closes_getElem?_eq_some_iff.mpr hstart)

example : closes ['}', '{', 'a', '{', 'b', '}', '{'] =
    [none, none, none, some 6, none, none, none] := by decide

end Brace

end Campaign
