import Campaign.Brace.Close
import Campaign.Proofs.Template.Canonical
import Campaign.Template.Layout

/-!
# Matched braces and groups

The forward scan from an opening brace and the reading of a text as a template find the same pairs
of braces. Both are compared with one list, the matched spans of a text in the order of their
opening braces: it holds what the scan finds from each position, and it is the list of the groups
of the template.
-/

namespace Campaign

open Text Brace

namespace Brace

theorem closeWithin?_open (inner : Nat) (rest : List Char) :
    closeWithin? inner ('{' :: rest) = (closeWithin? (inner + 1) rest).map (· + 1) := by
  cases inner <;> rfl

theorem closeWithin?_close_zero (rest : List Char) : closeWithin? 0 ('}' :: rest) = some 1 := rfl

theorem closeWithin?_close_succ (inner : Nat) (rest : List Char) :
    closeWithin? (inner + 1) ('}' :: rest) = (closeWithin? inner rest).map (· + 1) := rfl

theorem closeWithin?_ordinary {c : Char} (hopen : c ≠ '{') (hclose : c ≠ '}') (inner : Nat)
    (rest : List Char) :
    closeWithin? inner (c :: rest) = (closeWithin? inner rest).map (· + c.utf8Size) := by
  cases inner <;> rw [closeWithin?, if_neg hclose, if_neg hopen]

/-- The spans from each opening brace that is matched to past its partner, in the order of their
starts, in a text that stands at a byte position. -/
def matchedSpans (position : Nat) : List Char → List Span
  | [] => []
  | c :: rest =>
    let later := matchedSpans (position + c.utf8Size) rest
    if c = '{' then
      match closeWithin? 0 rest with
      | some n => ⟨position, position + 1 + n⟩ :: later
      | none => later
    else later

theorem matchedSpans_of_ne {c : Char} (h : c ≠ '{') (position : Nat) (rest : List Char) :
    matchedSpans position (c :: rest) = matchedSpans (position + c.utf8Size) rest := by
  rw [matchedSpans, if_neg h]

theorem matchedSpans_close (position : Nat) (rest : List Char) :
    matchedSpans position ('}' :: rest) = matchedSpans (position + 1) rest :=
  matchedSpans_of_ne (by decide) position rest

theorem matchedSpans_open_some {rest : List Char} {n : Nat} (h : closeWithin? 0 rest = some n)
    (position : Nat) :
    matchedSpans position ('{' :: rest) =
      ⟨position, position + 1 + n⟩ :: matchedSpans (position + 1) rest := by
  rw [matchedSpans, if_pos rfl, h]
  rfl

theorem matchedSpans_open_none {rest : List Char} (h : closeWithin? 0 rest = none)
    (position : Nat) :
    matchedSpans position ('{' :: rest) = matchedSpans (position + 1) rest := by
  rw [matchedSpans, if_pos rfl, h]
  rfl

theorem le_start_of_mem_matchedSpans {position : Nat} {text : List Char} {s : Span}
    (hs : s ∈ matchedSpans position text) : position ≤ s.start := by
  induction text generalizing position with
  | nil => cases hs
  | cons c rest ih =>
      have hlater : s ∈ matchedSpans (position + c.utf8Size) rest → position ≤ s.start :=
        fun h => Nat.le_trans (Nat.le_add_right _ _) (ih h)
      by_cases hopen : c = '{'
      · subst hopen
        cases hclose : closeWithin? 0 rest with
        | none => exact hlater (matchedSpans_open_none hclose position ▸ hs)
        | some n =>
            rw [matchedSpans_open_some hclose] at hs
            rcases List.mem_cons.mp hs with rfl | hs
            · exact Nat.le_refl _
            · exact hlater hs
      · exact hlater (matchedSpans_of_ne hopen position rest ▸ hs)

/-- A scan from behind the first character is a scan of the rest. -/
theorem findClose?_cons_add (c : Char) (rest : List Char) (n : Nat) :
    findClose? (c :: rest) (c.utf8Size + n) = (findClose? rest n).map (c.utf8Size + ·) := by
  have hfrom := fromByte?_append [c] rest n
  simp only [byteLength_cons, byteLength_nil, Nat.add_zero, List.cons_append,
    List.nil_append] at hfrom
  unfold findClose?
  rw [hfrom]
  split
  · simp [Function.comp_def, Nat.add_assoc]
  · rfl

theorem findClose?_zero_open (rest : List Char) :
    findClose? ('{' :: rest) 0 = (closeWithin? 0 rest).map (0 + 1 + ·) := rfl

theorem findClose?_zero_of_ne {c : Char} (h : c ≠ '{') (rest : List Char) :
    findClose? (c :: rest) 0 = none := by
  unfold findClose?
  rw [fromByte?_zero]
  split
  next heq => exact absurd (List.cons.inj (Option.some.inj heq)).1 h
  next => rfl

/-- Nothing is found from a position inside a character. -/
theorem findClose?_inside {c : Char} {n : Nat} (hpos : 0 < n) (hlt : n < c.utf8Size)
    (rest : List Char) : findClose? (c :: rest) n = none := by
  unfold findClose?
  rw [fromByte?_inside hpos hlt]

/-- A matched span is found by the scan from where it starts. -/
theorem exists_findClose?_of_mem {position : Nat} {text : List Char} {s : Span}
    (hs : s ∈ matchedSpans position text) :
    ∃ i e, findClose? text i = some e ∧ s = ⟨position + i, position + e⟩ := by
  induction text generalizing position with
  | nil => cases hs
  | cons c rest ih =>
      have hlater : s ∈ matchedSpans (position + c.utf8Size) rest →
          ∃ i e, findClose? (c :: rest) i = some e ∧ s = ⟨position + i, position + e⟩ := by
        intro hs
        obtain ⟨i, e, hclose, rfl⟩ := ih hs
        refine ⟨c.utf8Size + i, c.utf8Size + e, ?_, by simp [Nat.add_assoc]⟩
        rw [findClose?_cons_add, hclose]
        rfl
      -- A span starts at this character, if it is a brace that gets closed, or later.
      by_cases hopen : c = '{'
      · subst hopen
        cases hclose : closeWithin? 0 rest with
        | none => exact hlater (matchedSpans_open_none hclose position ▸ hs)
        | some n =>
            rw [matchedSpans_open_some hclose] at hs
            rcases List.mem_cons.mp hs with rfl | hs
            · refine ⟨0, 0 + 1 + n, ?_, by simp [Nat.add_assoc]⟩
              rw [findClose?_zero_open, hclose]
              rfl
            · exact hlater hs
      · exact hlater (matchedSpans_of_ne hopen position rest ▸ hs)

theorem mem_matchedSpans_cons {position : Nat} {c : Char} {rest : List Char} {s : Span}
    (hs : s ∈ matchedSpans (position + c.utf8Size) rest) :
    s ∈ matchedSpans position (c :: rest) := by
  unfold matchedSpans
  dsimp only
  split
  · split
    · exact List.mem_cons_of_mem _ hs
    · exact hs
  · exact hs

/-- What a scan finds is a matched span. -/
theorem mem_matchedSpans_of_findClose? {position : Nat} {text : List Char} {i e : Nat}
    (h : findClose? text i = some e) :
    ⟨position + i, position + e⟩ ∈ matchedSpans position text := by
  induction text generalizing position i e with
  | nil => cases i <;> simp [findClose?, fromByte?] at h
  | cons c rest ih =>
      rcases Nat.eq_zero_or_pos i with rfl | hpos
      · by_cases hopen : c = '{'
        · subst hopen
          rw [findClose?_zero_open] at h
          obtain ⟨n, hn, rfl⟩ := Option.map_eq_some_iff.mp h
          rw [matchedSpans_open_some hn]
          simp [Nat.add_assoc]
        · rw [findClose?_zero_of_ne hopen] at h
          cases h
      · -- Past the start a scan begins after the first character, never inside it.
        rcases Nat.lt_or_ge i c.utf8Size with hlt | hge
        · rw [findClose?_inside hpos hlt] at h
          cases h
        · obtain ⟨j, rfl⟩ := Nat.exists_eq_add_of_le hge
          rw [findClose?_cons_add] at h
          obtain ⟨n, hn, rfl⟩ := Option.map_eq_some_iff.mp h
          apply mem_matchedSpans_cons
          rw [← Nat.add_assoc, ← Nat.add_assoc]
          exact ih hn

/-- The matched spans are what the scan finds from each position. -/
theorem mem_matchedSpans_iff {position : Nat} {text : List Char} {s : Span} :
    s ∈ matchedSpans position text ↔
      ∃ i e, findClose? text i = some e ∧ s = ⟨position + i, position + e⟩ := by
  constructor
  · exact exists_findClose?_of_mem
  · rintro ⟨i, e, hclose, rfl⟩
    exact mem_matchedSpans_of_findClose? hclose

/-- The matched spans of a text are what the scans from its bytes find. -/
theorem mem_matchedSpans_zero_iff {text : List Char} {i e : Nat} :
    ⟨i, e⟩ ∈ matchedSpans 0 text ↔ findClose? text i = some e := by
  rw [mem_matchedSpans_iff]
  constructor
  · rintro ⟨i, e, hclose, heq⟩
    rw [Nat.zero_add, Nat.zero_add] at heq
    cases heq
    exact hclose
  · intro hclose
    exact ⟨i, e, hclose, by rw [Nat.zero_add, Nat.zero_add]⟩

/-- Matched spans are listed by where they start. -/
theorem pairwise_matchedSpans (position : Nat) (text : List Char) :
    (matchedSpans position text).Pairwise fun a b => a.start < b.start := by
  induction text generalizing position with
  | nil => exact List.Pairwise.nil
  | cons c rest ih =>
      by_cases hopen : c = '{'
      · subst hopen
        cases hclose : closeWithin? 0 rest with
        | none =>
            rw [matchedSpans_open_none hclose]
            exact ih _
        | some n =>
            rw [matchedSpans_open_some hclose]
            apply List.pairwise_cons.mpr
            refine ⟨?_, ih _⟩
            intro s hs
            exact Nat.lt_of_succ_le (le_start_of_mem_matchedSpans hs)
      · rw [matchedSpans_of_ne hopen]
        exact ih _

theorem nodup_matchedSpans (position : Nat) (text : List Char) :
    (matchedSpans position text).Nodup := by
  apply (pairwise_matchedSpans position text).imp
  intro a b hlt heq
  rw [heq] at hlt
  exact Nat.lt_irrefl _ hlt

theorem lt_byteLength_of_findClose? {text : List Char} {i e : Nat}
    (h : findClose? text i = some e) : i < byteLength text := by
  unfold findClose? at h
  split at h
  next rest hfrom =>
    obtain ⟨before, rfl, rfl⟩ := fromByte?_eq_some_iff.mp hfrom
    have hpos := Char.utf8Size_pos '{'
    rw [byteLength_append, byteLength_cons]
    omega
  next => cases h

/-- The matched spans start where the scan finds a partner. -/
theorem map_start_matchedSpans_perm (text : List Char) :
    ((matchedSpans 0 text).map Span.start).Perm
      ((List.range (byteLength text)).filter fun i => (findClose? text i).isSome) := by
  have hnodup : ((matchedSpans 0 text).map Span.start).Nodup := by
    apply List.pairwise_map.mpr
    apply (pairwise_matchedSpans 0 text).imp
    intro a b hlt
    exact Nat.ne_of_lt hlt
  apply (List.perm_ext_iff_of_nodup hnodup (List.nodup_range.filter _)).mpr
  intro i
  rw [List.mem_map, List.mem_filter, List.mem_range, Option.isSome_iff_exists]
  constructor
  · rintro ⟨⟨start, stop⟩, hs, rfl⟩
    have hclose := mem_matchedSpans_zero_iff.mp hs
    exact ⟨lt_byteLength_of_findClose? hclose, stop, hclose⟩
  · rintro ⟨_, e, hclose⟩
    exact ⟨⟨i, e⟩, mem_matchedSpans_zero_iff.mpr hclose, rfl⟩

/-- There are as many matched spans as positions from which the scan finds a partner. -/
theorem length_matchedSpans (text : List Char) :
    (matchedSpans 0 text).length =
      (List.range (byteLength text)).countP fun i => (findClose? text i).isSome := by
  rw [List.countP_eq_length_filter, ← (map_start_matchedSpans_perm text).length_eq, List.length_map]

end Brace

namespace Template

/-- The spans of the groups of a template that stands at a byte position, in the order of their
starts. -/
def groupSpans (position : Nat) : Template → List Span
  | empty => []
  | char c rest => rest.groupSpans (position + c.utf8Size)
  | group content rest =>
    let stop := position + content.byteLength + 2
    ⟨position, stop⟩ :: content.groupSpans (position + 1) ++ rest.groupSpans stop

/-- A group has room for its two braces within the bytes of its template. -/
theorem groupSpans_bounds {position : Nat} {t : Template} {span : Span}
    (h : span ∈ t.groupSpans position) :
    position ≤ span.start ∧ span.start + 2 ≤ span.stop ∧
      span.stop ≤ position + t.byteLength := by
  induction t generalizing position with
  | empty => cases h
  | char c rest ih =>
      have hbounds := ih h
      rw [byteLength]
      omega
  | group content rest ihcontent ihrest =>
      rw [groupSpans] at h
      rw [byteLength]
      rcases List.mem_append.mp h with h | h
      · rcases List.mem_cons.mp h with rfl | h
        · dsimp only
          omega
        · have hbounds := ihcontent h
          omega
      · have hbounds := ihrest h
        omega

/-- A scan passes over a balanced text and stops where it would have stopped after it. -/
theorem Balanced.closeWithin?_append {t : Template} (h : t.Balanced) (inner : Nat)
    (rest : List Char) :
    closeWithin? inner (t.render ++ rest) = (closeWithin? inner rest).map (t.byteLength + ·) := by
  induction t generalizing inner rest with
  | empty => simp [render]
  | char c after ih =>
      rw [render, List.cons_append, closeWithin?_ordinary h.1 h.2.1, ih h.2.2, Option.map_map,
        byteLength]
      congr 1
      funext n
      dsimp only [Function.comp]
      omega
  | group content after ihcontent ihafter =>
      -- One brace more is open while the scan passes over the content.
      rw [render, List.cons_append, List.cons_append, List.append_assoc, closeWithin?_open,
        ihcontent h.1, List.cons_append, closeWithin?_close_succ, ihafter h.2, Option.map_map,
        Option.map_map, Option.map_map, byteLength]
      congr 1
      funext n
      dsimp only [Function.comp]
      omega

/-- The brace that opens a group is matched by the one that closes it. -/
theorem Balanced.closeWithin?_close {t : Template} (h : t.Balanced) (rest : List Char) :
    closeWithin? 0 (t.render ++ '}' :: rest) = some (t.byteLength + 1) := by
  rw [h.closeWithin?_append, closeWithin?_close_zero]
  rfl

/-- A scan never stops in a text without loose closing braces. -/
theorem Opening.closeWithin?_eq_none {t : Template} (h : t.Opening) (inner : Nat) :
    closeWithin? inner t.render = none := by
  induction t generalizing inner with
  | empty => rfl
  | char c rest ih =>
      rw [render]
      by_cases hopen : c = '{'
      · rw [hopen, closeWithin?_open, ih h.2]
        rfl
      · rw [closeWithin?_ordinary hopen h.1, ih h.2]
        rfl
  | group content rest _ ih =>
      rw [render, List.cons_append, closeWithin?_open, h.1.closeWithin?_append,
        closeWithin?_close_succ, ih h.2]
      rfl

/-- A group around balanced content is matched from its first brace to its last. -/
theorem matchedSpans_group {content : Template} (h : content.Balanced) (position : Nat)
    (rest : List Char) :
    matchedSpans position ('{' :: (content.render ++ '}' :: rest)) =
      ⟨position, position + content.byteLength + 2⟩ ::
        matchedSpans (position + 1) (content.render ++ '}' :: rest) := by
  have hstop : position + 1 + (content.byteLength + 1) = position + content.byteLength + 2 := by
    omega
  rw [matchedSpans_open_some (h.closeWithin?_close rest), hstop]

/-- The spans of a balanced text are those of its groups, and what follows it keeps its own. -/
theorem Balanced.matchedSpans_append {t : Template} (h : t.Balanced) (position : Nat)
    (rest : List Char) :
    matchedSpans position (t.render ++ rest) =
      t.groupSpans position ++ matchedSpans (position + t.byteLength) rest := by
  induction t generalizing position rest with
  | empty => rfl
  | char c after ih =>
      rw [render, List.cons_append, matchedSpans_of_ne h.1, ih h.2.2, groupSpans, byteLength,
        Nat.add_assoc]
  | group content after ihcontent ihafter =>
      have hafter : position + 1 + content.byteLength + 1 = position + content.byteLength + 2 := by
        omega
      have hend : position + content.byteLength + 2 + after.byteLength =
          position + (content.byteLength + after.byteLength + 2) := by
        omega
      rw [render, List.append_assoc, List.cons_append, List.cons_append, matchedSpans_group h.1,
        ihcontent h.1, matchedSpans_close, hafter, ihafter h.2, groupSpans, byteLength,
        hend]
      simp only [List.cons_append, List.append_assoc]

/-- The matched spans of a text are the groups of the template it is read as. -/
theorem Canonical.matchedSpans_render {t : Template} (h : t.Canonical) (position : Nat) :
    matchedSpans position t.render = t.groupSpans position := by
  induction t generalizing position with
  | empty => rfl
  | char c rest ih =>
      rw [render, groupSpans]
      by_cases hopen : c = '{'
      · rw [hopen, matchedSpans_open_none ((h.1 hopen).closeWithin?_eq_none 0), ih h.2]
        rfl
      · rw [matchedSpans_of_ne hopen, ih h.2]
  | group content rest _ ih =>
      have hafter : position + 1 + content.byteLength + 1 = position + content.byteLength + 2 := by
        omega
      rw [render, List.cons_append, matchedSpans_group h.1, h.1.matchedSpans_append,
        matchedSpans_close, hafter, ih h.2, groupSpans, List.cons_append]

/-- The scan from a brace finds the end of a group exactly when a group starts there. -/
theorem Canonical.mem_groupSpans_iff {t : Template} (h : t.Canonical) {i e : Nat} :
    ⟨i, e⟩ ∈ t.groupSpans 0 ↔ findClose? t.render i = some e := by
  rw [← h.matchedSpans_render, mem_matchedSpans_zero_iff]

/-- The groups of a text are its matched spans. -/
theorem groupSpans_ofText (text : List Char) :
    (ofText text).groupSpans 0 = matchedSpans 0 text := by
  rw [← (canonical_ofText text).matchedSpans_render, render_ofText]

/-- The groups of a text are what the scans find. -/
theorem mem_groupSpans_ofText {text : List Char} {s : Span} :
    s ∈ (ofText text).groupSpans 0 ↔ findClose? text s.start = some s.stop := by
  rw [groupSpans_ofText]
  exact mem_matchedSpans_zero_iff

end Template

end Campaign
