import Campaign.Proofs.Template.Replacing
import Mathlib.Logic.Relation
import Mathlib.Order.Bounds.Basic

/-!
# Nesting of matched braces

The search for a group past the limit counts how deep it has gone into the pieces of a text. That
depth is the number of matched pairs of braces around the group in the whole text, so the search
stops at the first brace that has one pair too many around it, and a brace without a partner makes
no difference.
-/

namespace Campaign

open Text Brace

/-- How many of the spans are around a byte. -/
def around (spans : List Span) (byte : Nat) : Nat :=
  spans.countP fun s => s.start ≤ byte ∧ byte < s.stop

/-- How many matched pairs of braces are around a byte of a text. The pair that a brace opens is
around that brace. -/
def nesting (text : List Char) (byte : Nat) : Nat :=
  (List.range (byteLength text)).countP fun start =>
    (findClose? text start).any fun stop => start ≤ byte ∧ byte < stop

/-- No span that starts before a bound has more than the allowed number of spans around it. -/
def ShallowBefore (bound allowed : Nat) (spans : List Span) : Prop :=
  ∀ s ∈ spans, s.start < bound → around spans s.start ≤ allowed

/-- The first of the spans that has more than the allowed number of spans around its start. -/
structure FirstPast (allowed : Nat) (spans : List Span) (found : Nat) : Prop where
  exists_span : ∃ s ∈ spans, s.start = found
  around_eq : around spans found = allowed + 1
  before : ShallowBefore found allowed spans

theorem around_append (first second : List Span) (byte : Nat) :
    around (first ++ second) byte = around first byte + around second byte :=
  List.countP_append

theorem around_cons_of_inside {s : Span} {byte : Nat} (h : s.start ≤ byte ∧ byte < s.stop)
    (spans : List Span) : around (s :: spans) byte = around spans byte + 1 :=
  List.countP_cons_of_pos (decide_eq_true h)

theorem around_cons_of_outside {s : Span} {byte : Nat} (h : ¬ (s.start ≤ byte ∧ byte < s.stop))
    (spans : List Span) : around (s :: spans) byte = around spans byte :=
  List.countP_cons_of_neg (by rwa [decide_eq_true_iff])

/-- Nesting counts the matched spans around a byte. -/
theorem around_matchedSpans (text : List Char) (byte : Nat) :
    around (matchedSpans 0 text) byte = nesting text byte := by
  have hstart : ∀ s ∈ matchedSpans 0 text,
      ((findClose? text s.start).any fun stop => s.start ≤ byte ∧ byte < stop) =
        decide (s.start ≤ byte ∧ byte < s.stop) := by
    intro s hs
    rw [mem_matchedSpans_zero_iff.mp hs]
    rfl
  have hpaired : ∀ start, ((findClose? text start).any fun stop => start ≤ byte ∧ byte < stop) =
      (((findClose? text start).any fun stop => start ≤ byte ∧ byte < stop) &&
        (findClose? text start).isSome) := by
    intro start
    cases findClose? text start with
    | none => rfl
    | some stop => exact (Bool.and_true _).symm
  rw [nesting, funext hpaired, ← List.countP_filter,
    ← (map_start_matchedSpans_perm text).countP_eq, List.countP_map]
  exact List.countP_congr fun s hs => by rw [Function.comp_apply, hstart s hs]

namespace Template

theorem around_eq_zero_of_lt {t : Template} {position byte : Nat} (h : byte < position) :
    around (t.groupSpans position) byte = 0 := by
  apply List.countP_eq_zero.mpr
  intro s hs
  have hbounds := groupSpans_bounds hs
  rw [decide_eq_true_iff]
  omega

theorem around_eq_zero_of_le {t : Template} {position byte : Nat}
    (h : position + t.byteLength ≤ byte) : around (t.groupSpans position) byte = 0 := by
  apply List.countP_eq_zero.mpr
  intro s hs
  have hbounds := groupSpans_bounds hs
  rw [decide_eq_true_iff]
  omega

section Group

variable (content rest : Template) (position : Nat)

theorem around_group_open : around ((group content rest).groupSpans position) position = 1 := by
  rw [groupSpans, List.cons_append, around_cons_of_inside (by dsimp only; omega), around_append,
    around_eq_zero_of_lt (Nat.lt_succ_self position), around_eq_zero_of_lt (by omega)]

/-- A group is around every group inside it. -/
theorem around_group_content {s : Span} (hs : s ∈ content.groupSpans (position + 1)) :
    around ((group content rest).groupSpans position) s.start =
      around (content.groupSpans (position + 1)) s.start + 1 := by
  have hbounds := groupSpans_bounds hs
  rw [groupSpans, List.cons_append, around_cons_of_inside (by dsimp only; omega), around_append,
    around_eq_zero_of_lt (t := rest) (by omega), Nat.add_zero]

/-- A group is around nothing that follows it. -/
theorem around_group_rest {s : Span}
    (hs : s ∈ rest.groupSpans (position + content.byteLength + 2)) :
    around ((group content rest).groupSpans position) s.start =
      around (rest.groupSpans (position + content.byteLength + 2)) s.start := by
  have hbounds := groupSpans_bounds hs
  rw [groupSpans, List.cons_append, around_cons_of_outside (by dsimp only; omega), around_append,
    around_eq_zero_of_le (t := content) (by omega), Nat.zero_add]

/-- A group adds one around all that is inside it and nothing around what follows it. -/
theorem shallowBefore_group {bound deeper : Nat}
    (hcontent : ShallowBefore bound deeper (content.groupSpans (position + 1)))
    (hrest : ShallowBefore bound (deeper + 1)
      (rest.groupSpans (position + content.byteLength + 2))) :
    ShallowBefore bound (deeper + 1) ((group content rest).groupSpans position) := by
  refine List.forall_mem_cons.mpr ⟨?_, List.forall_mem_append.mpr ⟨?_, ?_⟩⟩
  · intro _
    rw [around_group_open]
    exact Nat.le_add_left 1 deeper
  · intro s hs hlt
    rw [around_group_content content rest position hs]
    exact Nat.succ_le_succ (hcontent s hs hlt)
  · intro s hs hlt
    rw [around_group_rest content rest position hs]
    exact hrest s hs hlt

end Group

/-- Nothing of a template starts before it, so no bound to its left is passed. -/
theorem shallowBefore_of_le {t : Template} {bound position : Nat} (h : bound ≤ position)
    (allowed : Nat) : ShallowBefore bound allowed (t.groupSpans position) := by
  intro s hs hlt
  have hbounds := groupSpans_bounds hs
  omega

/-- Where the search finds nothing, no group has too many around it. -/
theorem shallowBefore_of_tooDeep? {t : Template} {allowed position : Nat}
    (h : t.tooDeep? allowed position = none) (bound : Nat) :
    ShallowBefore bound allowed (t.groupSpans position) := by
  induction t generalizing allowed position with
  | empty => exact List.forall_mem_nil _
  | char c rest ih => exact ih h
  | group content rest ihcontent ihrest =>
      cases allowed with
      | zero => cases h
      | succ deeper =>
          rw [tooDeep?] at h
          split at h
          next => cases h
          next hcontent =>
            exact shallowBefore_group content rest position (ihcontent hcontent) (ihrest h)

/-- The search finds the first group that has too many around it, by one. -/
theorem firstPast_of_tooDeep? {t : Template} {allowed position found : Nat}
    (h : t.tooDeep? allowed position = some found) :
    FirstPast allowed (t.groupSpans position) found := by
  induction t generalizing allowed position with
  | empty => cases h
  | char c rest ih => exact ih h
  | group content rest ihcontent ihrest =>
      cases allowed with
      | zero =>
          obtain rfl := Option.some.inj h
          exact ⟨⟨_, List.mem_cons_self, rfl⟩, around_group_open content rest position,
            shallowBefore_of_le (Nat.le_refl position) 0⟩
      | succ deeper =>
          rw [tooDeep?] at h
          split at h
          next inner hcontent =>
            obtain rfl := Option.some.inj h
            obtain ⟨⟨s, hs, rfl⟩, haround, hbefore⟩ := ihcontent hcontent
            refine ⟨⟨s, List.mem_cons_of_mem _ (List.mem_append_left _ hs), rfl⟩, ?_, ?_⟩
            · rw [around_group_content content rest position hs, haround]
            · -- What follows the group does not start before something inside it.
              have hbounds := groupSpans_bounds hs
              exact shallowBefore_group content rest position hbefore
                (shallowBefore_of_le (by omega) _)
          next hcontent =>
            obtain ⟨⟨s, hs, rfl⟩, haround, hbefore⟩ := ihrest h
            refine ⟨⟨s, List.mem_cons_of_mem _ (List.mem_append_right _ hs), rfl⟩, ?_, ?_⟩
            · rw [around_group_rest content rest position hs, haround]
            · exact shallowBefore_group content rest position
                (shallowBefore_of_tooDeep? hcontent s.start) hbefore

/-- A text fails to parse with the first group that is too deep and the limit of 256. -/
theorem parse_eq_error_iff {text : List Char} {e : NestingError} :
    parse text = .error e ↔
      e.limit = maxDepth ∧ (ofText text).tooDeep? maxDepth 0 = some e.offset := by
  obtain ⟨limit, offset⟩ := e
  unfold parse
  dsimp only
  cases (ofText text).tooDeep? maxDepth 0 with
  | none => simp
  | some found => simp [eq_comm]

/-- A text fails to parse when its template is deeper than the limit. -/
theorem exists_parse_error_iff {text : List Char} :
    (∃ e, parse text = .error e) ↔ maxDepth < (ofText text).depth := by
  have hdepth := @tooDeep?_eq_none_iff (ofText text) maxDepth 0
  rw [← Nat.not_le, ← hdepth, ← ne_eq, Option.ne_none_iff_exists']
  constructor
  · rintro ⟨e, he⟩
    exact ⟨e.offset, (parse_eq_error_iff.mp he).2⟩
  · rintro ⟨offset, hfound⟩
    exact ⟨⟨maxDepth, offset⟩, parse_eq_error_iff.mpr ⟨rfl, hfound⟩⟩

end Template

/-- One text is another without one of its braces, which has no partner there. -/
inductive DropsBrace : List Char → List Char → Prop
  | drop (before after : List Char) {c : Char}
      (h : Loose (before ++ c :: after) (byteLength before) c) :
      DropsBrace (before ++ c :: after) (before ++ after)

/-- A brace without a partner counts for no depth. -/
theorem DropsBrace.depth_eq {text kept : List Char} (h : DropsBrace text kept) :
    (Template.ofText kept).depth = (Template.ofText text).depth := by
  cases h with
  | drop before after h =>
      obtain ⟨_, hreplaces, _⟩ :=
        Template.ofText_replaces [] (fun _ => h) (List.forall_mem_nil _)
      rw [List.append_nil] at hreplaces
      exact hreplaces.depth_eq

theorem depth_eq_of_dropsBraces {text kept : List Char}
    (h : Relation.ReflTransGen DropsBrace text kept) :
    (Template.ofText kept).depth = (Template.ofText text).depth := by
  induction h with
  | refl => rfl
  | tail _ hdrop ih => exact hdrop.depth_eq.trans ih

theorem around_groupSpans_ofText (text : List Char) (byte : Nat) :
    around ((Template.ofText text).groupSpans 0) byte = nesting text byte := by
  rw [Template.groupSpans_ofText, around_matchedSpans]

/-- Where the search finds nothing, no matched brace is nested deeper than allowed. -/
theorem nesting_le_of_tooDeep? {text : List Char} {allowed : Nat}
    (h : (Template.ofText text).tooDeep? allowed 0 = none) {i : Nat}
    (hi : (findClose? text i).isSome) : nesting text i ≤ allowed := by
  obtain ⟨e, hclose⟩ := Option.isSome_iff_exists.mp hi
  rw [← around_groupSpans_ofText]
  have hspan : ⟨i, e⟩ ∈ (Template.ofText text).groupSpans 0 :=
    Template.mem_groupSpans_ofText.mpr hclose
  exact Template.shallowBefore_of_tooDeep? h (i + 1) _ hspan (Nat.lt_succ_self i)

/-- The search finds the leftmost matched brace with one pair too many around it. -/
theorem isLeast_of_tooDeep? {text : List Char} {allowed found : Nat}
    (h : (Template.ofText text).tooDeep? allowed 0 = some found) :
    IsLeast {i | (findClose? text i).isSome ∧ nesting text i = allowed + 1} found := by
  obtain ⟨⟨s, hs, rfl⟩, haround, hbefore⟩ := Template.firstPast_of_tooDeep? h
  constructor
  · refine ⟨?_, by rw [← around_groupSpans_ofText, haround]⟩
    rw [Template.mem_groupSpans_ofText.mp hs]
    rfl
  · rintro i ⟨hi, hnesting⟩
    obtain ⟨e, hclose⟩ := Option.isSome_iff_exists.mp hi
    apply Nat.le_of_not_lt
    intro hlt
    have hle := hbefore ⟨i, e⟩ (Template.mem_groupSpans_ofText.mpr hclose) hlt
    rw [around_groupSpans_ofText, hnesting] at hle
    exact Nat.not_succ_le_self allowed hle

/-- A text fails to parse exactly when some matched brace has more than 256 pairs around it. The
error points at the leftmost brace with 257, and braces without a partner never matter. -/
theorem parse_error_iff_nesting (text : List Char) :
    ((∃ e, Template.parse text = .error e) ↔
      ∃ i, (findClose? text i).isSome ∧ 256 < nesting text i) ∧
    (∀ e, Template.parse text = .error e ↔
      e.limit = 256 ∧ IsLeast {i | (findClose? text i).isSome ∧ nesting text i = 257} e.offset) ∧
    ∀ kept, Relation.ReflTransGen DropsBrace text kept →
      ((∃ e, Template.parse kept = .error e) ↔ ∃ e, Template.parse text = .error e) := by
  -- The parser may find another brace first, but it finds one.
  have hdeep : ∀ i, (findClose? text i).isSome → 256 < nesting text i →
      ∃ found, (Template.ofText text).tooDeep? 256 0 = some found := by
    intro i hi hlt
    apply Option.ne_none_iff_exists'.mp
    intro hnone
    exact Nat.not_le_of_lt hlt (nesting_le_of_tooDeep? hnone hi)
  refine ⟨⟨?_, ?_⟩, ?_, ?_⟩
  · rintro ⟨e, he⟩
    obtain ⟨hi, hnesting⟩ := (isLeast_of_tooDeep? (Template.parse_eq_error_iff.mp he).2).1
    exact ⟨e.offset, hi, by rw [hnesting]; decide⟩
  · rintro ⟨i, hi, hlt⟩
    obtain ⟨found, hfound⟩ := hdeep i hi hlt
    exact ⟨⟨256, found⟩, Template.parse_eq_error_iff.mpr ⟨rfl, hfound⟩⟩
  · intro e
    rw [Template.parse_eq_error_iff]
    refine and_congr_right fun _ => ⟨isLeast_of_tooDeep?, ?_⟩
    intro hleast
    obtain ⟨hi, hnesting⟩ := hleast.1
    obtain ⟨found, hfound⟩ := hdeep e.offset hi (by rw [hnesting]; decide)
    rw [hleast.unique (isLeast_of_tooDeep? hfound)]
    exact hfound
  · intro kept hkept
    rw [Template.exists_parse_error_iff, Template.exists_parse_error_iff,
      depth_eq_of_dropsBraces hkept]

/-- A loose brace on either side of a group, taken away. -/
theorem parse_error_iff_nesting_loose :
    Relation.ReflTransGen DropsBrace ['}', '{', 'a', '}', '{'] ['{', 'a', '}'] ∧
      ((∃ e, Template.parse ['{', 'a', '}'] = .error e) ↔
        ∃ e, Template.parse ['}', '{', 'a', '}', '{'] = .error e) := by
  have hclose : Loose ['}', '{', 'a', '}', '{'] 0 '}' := by
    refine Or.inr ⟨rfl, ?_⟩
    intro start hstart
    have hbounds := Template.groupSpans_bounds
      (Template.mem_groupSpans_ofText (s := ⟨start, 0 + 1⟩).mpr hstart)
    dsimp only at hbounds
    omega
  have hopen : Loose ['{', 'a', '}', '{'] 3 '{' := Or.inl ⟨rfl, rfl⟩
  have hdrops : Relation.ReflTransGen DropsBrace ['}', '{', 'a', '}', '{'] ['{', 'a', '}'] :=
    (Relation.ReflTransGen.single (.drop [] ['{', 'a', '}', '{'] hclose)).tail
      (.drop ['{', 'a', '}'] [] hopen)
  exact ⟨hdrops, (parse_error_iff_nesting _).2.2 _ hdrops⟩

example :
    Template.parse (List.replicate 257 '{' ++ List.replicate 257 '}') = .error ⟨256, 256⟩ := by
  decide +kernel

end Campaign
