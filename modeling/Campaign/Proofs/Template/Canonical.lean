import Campaign.Template.Basic

/-!
# Canonical templates

Reading a text matches as many braces as can be matched. What stands inside a group then has no
loose brace, and of the loose braces at the top the closing ones come before the opening ones. A
template with these two properties is canonical. A text is rendered by exactly one canonical
template, the one it is read as.
-/

namespace Campaign.Template

/-- Every brace belongs to a group. -/
def Balanced : Template → Prop
  | empty => True
  | char c rest => c ≠ '{' ∧ c ≠ '}' ∧ rest.Balanced
  | group content rest => content.Balanced ∧ rest.Balanced

/-- Every loose brace is an opening one at the top. -/
def Opening : Template → Prop
  | empty => True
  | char c rest => c ≠ '}' ∧ rest.Opening
  | group content rest => content.Balanced ∧ rest.Opening

/-- Every loose brace stands at the top, and the closing ones come first. -/
def Canonical : Template → Prop
  | empty => True
  | char c rest => (c = '{' → rest.Opening) ∧ rest.Canonical
  | group content rest => content.Balanced ∧ rest.Canonical

theorem Balanced.opening {t : Template} (h : t.Balanced) : t.Opening := by
  induction t with
  | empty => trivial
  | char c rest ih => exact ⟨h.2.1, ih h.2.2⟩
  | group content rest _ ih => exact ⟨h.1, ih h.2⟩

theorem Opening.canonical {t : Template} (h : t.Opening) : t.Canonical := by
  induction t with
  | empty => trivial
  | char c rest ih => exact ⟨fun _ => h.2, ih h.2⟩
  | group content rest _ ih => exact ⟨h.1, ih h.2⟩

theorem Balanced.canonical {t : Template} (h : t.Balanced) : t.Canonical := h.opening.canonical

section Append

variable {t after : Template}

theorem Balanced.append_balanced (ht : t.Balanced) (hafter : after.Balanced) :
    (t.append after).Balanced := by
  induction t with
  | empty => exact hafter
  | char c rest ih => exact ⟨ht.1, ht.2.1, ih ht.2.2⟩
  | group content rest _ ih => exact ⟨ht.1, ih ht.2⟩

theorem Balanced.append_opening (ht : t.Balanced) (hafter : after.Opening) :
    (t.append after).Opening := by
  induction t with
  | empty => exact hafter
  | char c rest ih => exact ⟨ht.2.1, ih ht.2.2⟩
  | group content rest _ ih => exact ⟨ht.1, ih ht.2⟩

/-- Balanced text in front keeps a template canonical. -/
theorem Balanced.append_canonical (ht : t.Balanced) (hafter : after.Canonical) :
    (t.append after).Canonical := by
  induction t with
  | empty => exact hafter
  | char c rest ih => exact ⟨fun h => absurd h ht.1, ih ht.2.2⟩
  | group content rest _ ih => exact ⟨ht.1, ih ht.2⟩

end Append

/-- What a reading keeps: only what comes after every waiting closing brace has loose braces. -/
def Reading.Sound : Template → List Template → Prop
  | current, [] => current.Opening
  | current, after :: suspended => current.Balanced ∧ Reading.Sound after suspended

/-- One more character on the left keeps a reading sound, whichever of the three kinds it is. -/
theorem Reading.Sound.step {r : Reading} (c : Char) (h : Sound r.current r.suspended) :
    Sound (Reading.step c r).current (Reading.step c r).suspended := by
  obtain ⟨current, suspended⟩ := r
  unfold Reading.step
  split
  next => exact ⟨trivial, h⟩
  next hclose =>
    split
    next hopen =>
      cases suspended with
      | nil => exact ⟨hclose, h⟩
      | cons after suspended =>
          -- The brace closes what is read so far into a group in front of what waited.
          cases suspended with
          | nil => exact h
          | cons next suspended => exact ⟨⟨h.1, h.2.1⟩, h.2.2⟩
    next hopen =>
      cases suspended with
      | nil => exact ⟨hclose, h⟩
      | cons after suspended => exact ⟨⟨hopen, hclose, h.1⟩, h.2⟩

/-- The reading of any text is sound. -/
theorem Reading.sound_ofText (text : List Char) :
    Sound (Reading.ofText text).current (Reading.ofText text).suspended := by
  induction text with
  | nil => trivial
  | cons c rest ih => exact ih.step c

/-- What still waits for a partner at the start of the text is loose at the top. -/
theorem Reading.Sound.canonical_settle {current : Template} {suspended : List Template}
    (h : Sound current suspended) : (settle current suspended).Canonical := by
  induction suspended generalizing current with
  | nil =>
      apply Opening.canonical
      exact h
  | cons after suspended ih =>
      have hclose : (char '}' (settle after suspended)).Canonical :=
        ⟨fun h => absurd h (by decide), ih h.2⟩
      exact h.1.append_canonical hclose

/-- Every text is read as a canonical template. -/
theorem canonical_ofText (text : List Char) : (ofText text).Canonical :=
  (Reading.sound_ofText text).canonical_settle

theorem append_empty (t : Template) : t.append empty = t := by
  induction t with
  | empty => rfl
  | char c rest ih => rw [append, ih]
  | group content rest _ ih => rw [append, ih]

theorem groupCount_append (a b : Template) :
    (a.append b).groupCount = a.groupCount + b.groupCount := by
  induction a with
  | empty => exact (Nat.zero_add _).symm
  | char c rest ih => exact ih
  | group content rest _ ih =>
      rw [append, groupCount, groupCount, ih]
      omega

/-- A character that is no brace goes to the front of what is read. -/
theorem Reading.step_ordinary {c : Char} (hopen : c ≠ '{') (hclose : c ≠ '}') (r : Reading) :
    Reading.step c r = ⟨char c r.current, r.suspended⟩ := by
  rw [Reading.step, if_neg hclose, if_neg hopen]

theorem Reading.step_close (r : Reading) :
    Reading.step '}' r = ⟨empty, r.current :: r.suspended⟩ := rfl

/-- An opening brace makes a group of what is read since the nearest closing brace that waits. -/
theorem Reading.step_open_cons (current after : Template) (suspended : List Template) :
    Reading.step '{' ⟨current, after :: suspended⟩ = ⟨group current after, suspended⟩ := rfl

/-- Reading a balanced text puts it in front of what is read so far. -/
theorem Balanced.foldr_step {t : Template} (h : t.Balanced) (r : Reading) :
    t.render.foldr Reading.step r = ⟨t.append r.current, r.suspended⟩ := by
  induction t generalizing r with
  | empty => rfl
  | char c rest ih =>
      rw [render, List.foldr_cons, ih h.2.2, Reading.step_ordinary h.1 h.2.1, append]
  | group content rest ihcontent ihrest =>
      rw [render, List.cons_append, List.foldr_cons, List.foldr_append, List.foldr_cons,
        ihrest h.2, Reading.step_close, ihcontent h.1, append_empty, Reading.step_open_cons, append]

/-- A text without loose closing braces leaves none waiting. -/
theorem Opening.ofText_render {t : Template} (h : t.Opening) :
    Reading.ofText t.render = ⟨t, []⟩ := by
  unfold Reading.ofText
  induction t with
  | empty => rfl
  | char c rest ih =>
      rw [render, List.foldr_cons, ih h.2, Reading.step, if_neg h.1]
      split <;> rfl
  | group content rest _ ih =>
      rw [render, List.cons_append, List.foldr_cons, List.foldr_append, List.foldr_cons,
        ih h.2, Reading.step_close, h.1.foldr_step, append_empty, Reading.step_open_cons]

/-- A character at the front does not take part in settling. -/
theorem settle_char (c : Char) (current : Template) (suspended : List Template) :
    settle (char c current) suspended = char c (settle current suspended) := by
  cases suspended <;> rfl

theorem settle_group (content current : Template) (suspended : List Template) :
    settle (group content current) suspended = group content (settle current suspended) := by
  cases suspended <;> rfl

/-- A canonical template is what its text is read as. -/
theorem Canonical.ofText_render {t : Template} (h : t.Canonical) : ofText t.render = t := by
  induction t with
  | empty => rfl
  | char c rest ih =>
      have hrest := ih h.2
      unfold ofText Reading.ofText at hrest ⊢
      rw [render, List.foldr_cons]
      by_cases hclose : c = '}'
      · subst hclose
        rw [Reading.step_close, settle, hrest]
        rfl
      -- The text is read from its end, and what is behind a loose opening brace is balanced.
      by_cases hopen : c = '{'
      · have hread := (h.1 hopen).ofText_render
        unfold Reading.ofText at hread
        rw [hread, hopen]
        rfl
      · rw [Reading.step_ordinary hopen hclose, settle_char, hrest]
  | group content rest _ ih =>
      have hrest := ih h.2
      unfold ofText Reading.ofText at hrest ⊢
      rw [render, List.cons_append, List.foldr_cons, List.foldr_append, List.foldr_cons,
        Reading.step_close, h.1.foldr_step, append_empty, Reading.step_open_cons, settle_group,
        hrest]

/-- A text is read as the one canonical template that renders to it. -/
theorem ofText_eq_iff {text : List Char} {t : Template} :
    ofText text = t ↔ t.Canonical ∧ t.render = text := by
  constructor
  · rintro rfl
    exact ⟨canonical_ofText text, render_ofText text⟩
  · rintro ⟨hcanonical, rfl⟩
    exact hcanonical.ofText_render

/-- A text parses as the template it is read as, if that is not too deep. -/
theorem parse_eq_ok_iff {text : List Char} {t : Template} :
    parse text = .ok t ↔ ofText text = t ∧ t.tooDeep? maxDepth 0 = none := by
  unfold parse
  constructor
  · intro h
    dsimp only at h
    split at h
    next => cases h
    next hdepth =>
      cases h
      exact ⟨rfl, hdepth⟩
  · rintro ⟨rfl, hdepth⟩
    dsimp only
    rw [hdepth]

theorem canonical_of_parse {text : List Char} {t : Template} (h : parse text = .ok t) :
    t.Canonical :=
  (ofText_eq_iff.mp (parse_eq_ok_iff.mp h).1).1

theorem render_of_parse {text : List Char} {t : Template} (h : parse text = .ok t) :
    t.render = text :=
  (ofText_eq_iff.mp (parse_eq_ok_iff.mp h).1).2

end Campaign.Template
