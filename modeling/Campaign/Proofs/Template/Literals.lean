import Campaign.Proofs.Template.Replacing

/-!
# Literal characters

The characters of a text that stand outside all its groups, and among them the loose braces. Reading
a text matches as many braces as can be matched, so the loose braces of a text are the braces that
its template has outside its groups, and the closing ones come first. Two texts are read apart even
when they stand one after the other, unless a loose brace of the first could be closed by one of
the second.
-/

namespace Campaign

open Text Brace

namespace Text

/-- The characters of a text that stands at a byte position, each with the position it has there. -/
def placed (position : Nat) : List Char → List (Nat × Char)
  | [] => []
  | c :: rest => (position, c) :: placed (position + c.utf8Size) rest

theorem placed_append (position : Nat) (a b : List Char) :
    placed position (a ++ b) = placed position a ++ placed (position + byteLength a) b := by
  induction a generalizing position with
  | nil => rfl
  | cons c rest ih =>
      rw [List.cons_append, placed, ih, byteLength_cons, Nat.add_assoc]
      rfl

/-- A character has the position that the bytes before it take up. -/
theorem mem_placed {position i : Nat} {text : List Char} {c : Char} :
    (i, c) ∈ placed position text ↔
      ∃ before after, text = before ++ c :: after ∧ i = position + byteLength before := by
  constructor
  · intro h
    induction text generalizing position with
    | nil => cases h
    | cons d rest ih =>
        rcases List.mem_cons.mp h with heq | h
        · cases heq
          exact ⟨[], rest, rfl, rfl⟩
        · obtain ⟨before, after, rfl, rfl⟩ := ih h
          exact ⟨d :: before, after, rfl, by rw [byteLength_cons, Nat.add_assoc]⟩
  · rintro ⟨before, after, rfl, rfl⟩
    rw [placed_append]
    exact List.mem_append_right _ List.mem_cons_self

theorem placed_bounds {position i : Nat} {text : List Char} {c : Char}
    (h : (i, c) ∈ placed position text) : position ≤ i ∧ i < position + byteLength text := by
  obtain ⟨before, after, rfl, rfl⟩ := mem_placed.mp h
  have hpos := c.utf8Size_pos
  rw [byteLength_append, byteLength_cons]
  omega

theorem mem_placed_zero {i : Nat} {text : List Char} {c : Char} :
    (i, c) ∈ placed 0 text ↔ charAt? text i = some c := by
  rw [mem_placed, charAt?_eq_some_iff]
  constructor
  · rintro ⟨before, after, rfl, rfl⟩
    exact ⟨after, fromByte?_eq_some_iff.mpr ⟨before, rfl, (Nat.zero_add _).symm⟩⟩
  · rintro ⟨after, hfrom⟩
    obtain ⟨before, rfl, rfl⟩ := fromByte?_eq_some_iff.mp hfrom
    exact ⟨before, after, rfl, (Nat.zero_add _).symm⟩

end Text

namespace Brace

def isBrace (c : Char) : Bool := c == '{' || c == '}'

theorem isBrace_iff {c : Char} : isBrace c = true ↔ c = '{' ∨ c = '}' := by
  rw [isBrace, Bool.or_eq_true, beq_iff_eq, beq_iff_eq]

instance (text : List Char) (position : Nat) (c : Char) : Decidable (Loose text position c) :=
  decidable_of_iff
    ((c = '{' ∧ findClose? text position = none) ∨
      (c = '}' ∧ ∀ start < byteLength text, findClose? text start ≠ some (position + 1)))
    (or_congr_right (and_congr_right fun _ =>
      ⟨fun h start hclose => h start (lt_byteLength_of_findClose? hclose) hclose,
        fun h start _ => h start⟩))

/-- The braces of a text that have no partner, in order. -/
def looseBraces (text : List Char) : List Char :=
  ((placed 0 text).filter fun p => Loose text p.1 p.2).map Prod.snd

theorem isBrace_of_loose {text : List Char} {position : Nat} {c : Char}
    (h : Loose text position c) : isBrace c :=
  isBrace_iff.mpr (h.imp And.left And.left)

/-- A text has loose braces when one of its characters is loose. -/
theorem looseBraces_eq_nil_iff {text : List Char} :
    looseBraces text = [] ↔ ∀ position c, charAt? text position = some c →
      ¬ Loose text position c := by
  simp only [looseBraces, List.map_eq_nil_iff, List.filter_eq_nil_iff, Prod.forall,
    mem_placed_zero, decide_eq_true_iff]

end Brace

namespace Template

/-- The characters outside all groups. -/
def outer : Template → List Char
  | empty => []
  | char c rest => c :: rest.outer
  | group _ rest => rest.outer

/-- The characters outside all groups of a template that stands at a byte position, each with the
position it has there. -/
def literals (position : Nat) : Template → List (Nat × Char)
  | empty => []
  | char c rest => (position, c) :: rest.literals (position + c.utf8Size)
  | group content rest => rest.literals (position + content.byteLength + 2)

/-- Positions aside, the literals are the characters outside all groups. -/
theorem map_snd_literals (position : Nat) (t : Template) :
    (t.literals position).map Prod.snd = t.outer := by
  induction t generalizing position with
  | empty => rfl
  | char c rest ih => exact congrArg (c :: ·) (ih _)
  | group content rest _ ih => exact ih _

theorem mem_outer_iff (position : Nat) {t : Template} {c : Char} :
    c ∈ t.outer ↔ ∃ i, (i, c) ∈ t.literals position := by
  rw [← map_snd_literals position, List.mem_map]
  constructor
  · rintro ⟨⟨i, _⟩, h, rfl⟩
    exact ⟨i, h⟩
  · rintro ⟨i, h⟩
    exact ⟨(i, c), h, rfl⟩

theorem outer_chars (run : List Char) (t : Template) : (chars run t).outer = run ++ t.outer := by
  induction run with
  | nil => rfl
  | cons c run ih => exact congrArg (c :: ·) ih

section Braces

variable {t : Template}

/-- A canonical template is balanced when there are no braces outside its groups. -/
theorem Canonical.balanced_iff (h : t.Canonical) :
    t.Balanced ↔ ∀ c ∈ t.outer, c ≠ '{' ∧ c ≠ '}' := by
  induction t with
  | empty => exact iff_of_true trivial (List.forall_mem_nil _)
  | char c rest ih =>
      rw [Balanced, outer, List.forall_mem_cons, ih h.2, and_assoc]
  | group content rest _ ih =>
      rw [Balanced, outer, ih h.2]
      exact and_iff_right h.1

/-- A canonical template has no loose closing brace if none stands outside its groups. -/
theorem Canonical.opening_iff (h : t.Canonical) : t.Opening ↔ '}' ∉ t.outer := by
  induction t with
  | empty => exact iff_of_true trivial List.not_mem_nil
  | char c rest ih =>
      rw [Opening, outer, List.mem_cons, not_or, ih h.2]
      exact and_congr_left fun _ => ne_comm
  | group content rest _ ih =>
      rw [Opening, outer, ih h.2]
      exact and_iff_right h.1

/-- Of the loose braces the closing ones come first. -/
theorem Canonical.pairwise_outer (h : t.Canonical) :
    t.outer.Pairwise fun a b => a = '{' → b ≠ '}' := by
  induction t with
  | empty => exact List.Pairwise.nil
  | char c rest ih =>
      refine List.pairwise_cons.mpr ⟨?_, ih h.2⟩
      rintro b hb hopen rfl
      exact h.2.opening_iff.mp (h.1 hopen) hb
  | group content rest _ ih => exact ih h.2

/-- Text without groups is canonical when its closing braces come first. -/
theorem canonical_chars_empty {run : List Char}
    (h : run.Pairwise fun a b => a = '{' → b ≠ '}') : (chars run empty).Canonical := by
  induction run with
  | nil => trivial
  | cons c run ih =>
      obtain ⟨hc, hrun⟩ := List.pairwise_cons.mp h
      have hcanonical := ih hrun
      refine ⟨?_, hcanonical⟩
      intro hopen
      apply hcanonical.opening_iff.mpr
      rw [outer_chars, outer, List.append_nil]
      exact fun hmem => hc '}' hmem hopen rfl

end Braces

section Append

variable {a b : Template}

theorem Opening.append (ha : a.Opening) (hb : b.Opening) : (a.append b).Opening := by
  induction a with
  | empty => exact hb
  | char c rest ih => exact ⟨ha.1, ih ha.2⟩
  | group content rest _ ih => exact ⟨ha.1, ih ha.2⟩

/-- Two canonical templates stay canonical one after the other as long as no closing brace comes
behind an opening one. -/
theorem Canonical.append (ha : a.Canonical) (hb : b.Canonical)
    (h : ¬ ('{' ∈ a.outer ∧ '}' ∈ b.outer)) : (a.append b).Canonical := by
  induction a with
  | empty => exact hb
  | char c rest ih =>
      refine ⟨?_, ih ha.2 fun hmem => h ⟨List.mem_cons_of_mem c hmem.1, hmem.2⟩⟩
      rintro rfl
      apply (ha.1 rfl).append
      exact hb.opening_iff.mpr fun hmem => h ⟨List.mem_cons_self, hmem⟩
  | group content rest _ ih => exact ⟨ha.1, ih ha.2 h⟩

end Append

section Placed

variable {position i : Nat} {c : Char} {t : Template}

/-- The characters of a group are its opening brace, its content and its closing brace, and then
what follows. -/
theorem placed_group (position : Nat) (content rest : Template) :
    placed position (group content rest).render =
      ((position, '{') :: placed (position + 1) content.render ++
        [(position + content.byteLength + 1, '}')]) ++
        placed (position + content.byteLength + 2) rest.render := by
  have hclose : position + 1 + Text.byteLength content.render =
      position + content.byteLength + 1 := by
    rw [byteLength_eq]
    omega
  have hafter : position + content.byteLength + 1 + Char.utf8Size '}' =
      position + content.byteLength + 2 := rfl
  rw [render, List.cons_append, placed, show Char.utf8Size '{' = 1 from rfl, placed_append, hclose,
    placed, hafter]
  simp

theorem literals_subset (position : Nat) (t : Template) :
    t.literals position ⊆ placed position t.render := by
  induction t generalizing position with
  | empty => exact List.nil_subset _
  | char c rest ih => exact List.cons_subset_cons _ (ih _)
  | group content rest _ ih =>
      rw [placed_group]
      exact List.subset_append_of_subset_right _ (ih _)

/-- What is outside all groups is in none of their spans. -/
theorem literals_outside (h : (i, c) ∈ t.literals position) {s : Span}
    (hs : s ∈ t.groupSpans position) : ¬ (s.start ≤ i ∧ i < s.stop) := by
  induction t generalizing position with
  | empty => cases h
  | char d rest ih =>
      rcases List.mem_cons.mp h with heq | h
      · cases heq
        have hbounds := groupSpans_bounds (t := rest) hs
        have hpos := c.utf8Size_pos
        omega
      · exact ih h hs
  | group content rest _ ih =>
      have hrest : (i, c) ∈ rest.literals (position + content.byteLength + 2) := h
      have hbyte := placed_bounds (literals_subset _ _ hrest)
      rw [groupSpans] at hs
      rcases List.mem_append.mp hs with hs | hs
      · rcases List.mem_cons.mp hs with rfl | hs
        · dsimp only
          omega
        · have hbounds := groupSpans_bounds hs
          omega
      · exact ih hrest hs

/-- A character is in one of the spans and, if it is a brace, bounds one of them. -/
structure Grouped (spans : List Span) (i : Nat) (c : Char) : Prop where
  inside : ∃ s ∈ spans, s.start ≤ i ∧ i < s.stop
  opens : c = '{' → ∃ s ∈ spans, s.start = i
  closes : c = '}' → ∃ s ∈ spans, s.stop = i + 1

theorem Grouped.mono {spans more : List Span} (h : Grouped spans i c) (hsub : spans ⊆ more) :
    Grouped more i c where
  inside := h.inside.imp fun _ hs => ⟨hsub hs.1, hs.2⟩
  opens hc := (h.opens hc).imp fun _ hs => ⟨hsub hs.1, hs.2⟩
  closes hc := (h.closes hc).imp fun _ hs => ⟨hsub hs.1, hs.2⟩

section Group

variable (position : Nat) (content rest : Template)

theorem grouped_open : Grouped ((group content rest).groupSpans position) position '{' := by
  have hlt : position < position + content.byteLength + 2 := by omega
  refine ⟨⟨_, List.mem_cons_self, Nat.le_refl _, hlt⟩, ?_, ?_⟩
  · exact fun _ => ⟨_, List.mem_cons_self, rfl⟩
  · exact fun h => absurd h (by decide)

theorem grouped_close :
    Grouped ((group content rest).groupSpans position) (position + content.byteLength + 1)
      '}' := by
  have hle : position ≤ position + content.byteLength + 1 := by omega
  refine ⟨⟨_, List.mem_cons_self, hle, Nat.lt_succ_self _⟩, ?_, ?_⟩
  · exact fun h => absurd h (by decide)
  · exact fun _ => ⟨_, List.mem_cons_self, rfl⟩

/-- What is outside the groups of a balanced content is in the group around it and no brace. -/
theorem Balanced.grouped_literal {content : Template} (h : content.Balanced)
    (hc : (i, c) ∈ content.literals (position + 1)) :
    Grouped ((group content rest).groupSpans position) i c := by
  have hbounds := placed_bounds (literals_subset _ _ hc)
  rw [← byteLength_eq] at hbounds
  have hplain := h.canonical.balanced_iff.mp h c ((mem_outer_iff _).mpr ⟨i, hc⟩)
  refine ⟨⟨_, List.mem_cons_self, ?_, ?_⟩, fun heq => absurd heq hplain.1,
    fun heq => absurd heq hplain.2⟩
  · exact Nat.le_of_succ_le hbounds.1
  · dsimp only
    omega

end Group

/-- A character of a canonical template is outside all groups, or it is inside one and, if it is a
brace, has a partner. -/
theorem Canonical.literal_or_grouped (h : t.Canonical) (hc : (i, c) ∈ placed position t.render) :
    (i, c) ∈ t.literals position ∨ Grouped (t.groupSpans position) i c := by
  induction t generalizing position with
  | empty => cases hc
  | char d rest ih =>
      rcases List.mem_cons.mp hc with heq | hc
      · exact Or.inl (heq ▸ List.mem_cons_self)
      · exact (ih h.2 hc).imp_left (List.mem_cons_of_mem _)
  | group content rest ihcontent ihrest =>
      rw [placed_group] at hc
      rcases List.mem_append.mp hc with hc | hc
      · refine Or.inr ?_
        rcases List.mem_append.mp hc with hc | hc
        · rcases List.mem_cons.mp hc with heq | hc
          · cases heq
            exact grouped_open i content rest
          · rcases ihcontent h.1.canonical hc with hliteral | hgrouped
            · exact h.1.grouped_literal position rest hliteral
            · apply hgrouped.mono
              rw [groupSpans]
              exact List.subset_append_of_subset_left _ (List.subset_cons_self _ _)
        · cases List.mem_singleton.mp hc
          exact grouped_close position content rest
      · refine (ihrest h.2 hc).imp_right fun hgrouped => hgrouped.mono ?_
        rw [groupSpans]
        exact List.subset_append_right _ _

/-- Where only characters outside all groups are kept, those inside may be left out before. -/
theorem filter_placed {keep : Nat × Char → Bool}
    (h : ∀ p ∈ placed position t.render, keep p → p ∈ t.literals position) :
    (placed position t.render).filter keep = (t.literals position).filter keep := by
  induction t generalizing position with
  | empty => rfl
  | char c rest ih =>
      have hrest : ∀ p ∈ placed (position + c.utf8Size) rest.render, keep p →
          p ∈ rest.literals (position + c.utf8Size) := by
        intro p hp hkeep
        have hbounds := placed_bounds hp
        have hpos := c.utf8Size_pos
        rcases List.mem_cons.mp (h p (List.mem_cons_of_mem _ hp) hkeep) with rfl | hp
        · omega
        · exact hp
      rw [render, placed, literals, List.filter_cons, List.filter_cons, ih hrest]
  | group content rest _ ih =>
      rw [placed_group] at h ⊢
      obtain ⟨hgroup, hrest⟩ := List.forall_mem_append.mp h
      have hnone : ((position, '{') :: placed (position + 1) content.render ++
          [(position + content.byteLength + 1, '}')]).filter keep = [] := by
        apply List.filter_eq_nil_iff.mpr
        intro p hp hkeep
        -- Nothing of the group stands where the rest does.
        have hafter : p ∈ rest.literals (position + content.byteLength + 2) := hgroup p hp hkeep
        have hbounds := placed_bounds (literals_subset _ _ hafter)
        have hcontent : p.1 < position + content.byteLength + 2 := by
          rcases List.mem_append.mp hp with hp | hp
          · rcases List.mem_cons.mp hp with rfl | hp
            · dsimp only
              omega
            · have hinner := placed_bounds hp
              rw [← byteLength_eq] at hinner
              omega
          · cases List.mem_singleton.mp hp
            exact Nat.lt_succ_self _
        omega
      rw [List.filter_append, ih hrest, literals, hnone, List.nil_append]

end Placed

section Text

variable {text : List Char} {i : Nat} {c : Char}

/-- A character of a text is outside all groups or inside a matched pair of braces. -/
theorem mem_literals_of_forall (hc : (i, c) ∈ placed 0 text)
    (hout : ∀ start stop, findClose? text start = some stop → ¬ (start ≤ i ∧ i < stop)) :
    (i, c) ∈ (ofText text).literals 0 := by
  rw [← render_ofText text] at hc
  apply ((canonical_ofText text).literal_or_grouped hc).resolve_right
  intro hgrouped
  obtain ⟨s, hs, hbounds⟩ := hgrouped.inside
  exact hout s.start s.stop (mem_groupSpans_ofText.mp hs) hbounds

/-- No matched pair of braces is around what is outside all groups. -/
theorem not_inside_of_mem_literals (hc : (i, c) ∈ (ofText text).literals 0) {start stop : Nat}
    (hclose : findClose? text start = some stop) : ¬ (start ≤ i ∧ i < stop) :=
  literals_outside hc (mem_groupSpans_ofText (s := ⟨start, stop⟩).mpr hclose)

/-- The loose braces of a text are the braces that its template has outside its groups. -/
theorem loose_iff (hc : (i, c) ∈ placed 0 text) :
    Loose text i c ↔ isBrace c ∧ (i, c) ∈ (ofText text).literals 0 := by
  constructor
  · intro hloose
    refine ⟨isBrace_of_loose hloose, ?_⟩
    rw [← render_ofText text] at hc
    -- A brace that is part of a group has a partner.
    apply ((canonical_ofText text).literal_or_grouped hc).resolve_right
    intro hgrouped
    rcases hloose with ⟨hopen, hnone⟩ | ⟨hclose, hnone⟩
    · obtain ⟨s, hs, rfl⟩ := hgrouped.opens hopen
      rw [mem_groupSpans_ofText.mp hs] at hnone
      cases hnone
    · obtain ⟨s, hs, hstop⟩ := hgrouped.closes hclose
      exact hnone s.start (hstop ▸ mem_groupSpans_ofText.mp hs)
  · rintro ⟨hbrace, hliteral⟩
    refine (isBrace_iff.mp hbrace).imp (fun hopen => ⟨hopen, ?_⟩) fun hclose => ⟨hclose, ?_⟩
    · apply Option.eq_none_iff_forall_ne_some.mpr
      intro stop hstop
      have hbounds := groupSpans_bounds (mem_groupSpans_ofText (s := ⟨i, stop⟩).mpr hstop)
      apply not_inside_of_mem_literals hliteral hstop
      dsimp only at hbounds
      omega
    · intro start hstart
      have hbounds := groupSpans_bounds (mem_groupSpans_ofText (s := ⟨start, i + 1⟩).mpr hstart)
      apply not_inside_of_mem_literals hliteral hstart
      dsimp only at hbounds
      omega

/-- The braces without a partner are those outside all groups of the template. -/
theorem looseBraces_eq (text : List Char) :
    looseBraces text = (ofText text).outer.filter isBrace := by
  have hkeep : ∀ p ∈ placed 0 (ofText text).render, decide (Loose text p.1 p.2) = true →
      p ∈ (ofText text).literals 0 := by
    intro p hp hloose
    rw [render_ofText] at hp
    exact ((loose_iff hp).mp (of_decide_eq_true hloose)).2
  have hloose : ∀ p ∈ (ofText text).literals 0,
      decide (Loose text p.1 p.2) = (isBrace ∘ Prod.snd) p := by
    intro p hp
    have hplaced := literals_subset _ _ hp
    rw [render_ofText] at hplaced
    rw [Bool.eq_iff_iff, decide_eq_true_iff, loose_iff hplaced]
    exact and_iff_left hp
  have hplaced := filter_placed hkeep
  rw [render_ofText] at hplaced
  rw [looseBraces, hplaced, List.filter_congr hloose, ← List.filter_map, map_snd_literals]

/-- A text has a loose brace of a kind if its template has one outside its groups. -/
theorem mem_looseBraces_iff (hc : isBrace c) : c ∈ looseBraces text ↔ c ∈ (ofText text).outer := by
  rw [looseBraces_eq, List.mem_filter]
  exact and_iff_left hc

end Text

/-- Two texts one after the other are read as their templates one after the other, unless the first
has a loose opening brace and the second a loose closing one. -/
theorem ofText_append {a b : List Char} (h : ¬ ('{' ∈ looseBraces a ∧ '}' ∈ looseBraces b)) :
    ofText (a ++ b) = (ofText a).append (ofText b) := by
  rw [mem_looseBraces_iff rfl, mem_looseBraces_iff rfl] at h
  apply ofText_eq_iff.mpr
  refine ⟨(canonical_ofText a).append (canonical_ofText b) h, ?_⟩
  rw [render_append, render_ofText, render_ofText]

end Template

end Campaign
