import Campaign.Proofs.Layout.Inert
import Campaign.Proofs.Template.Literals
import Campaign.Text.Blank

/-!
# Self-contained texts

A text is self-contained when its braces are matched among themselves and its separators stand
inside matched braces. Its template then has only ordinary characters outside its groups. The
alternatives of a group are such texts, and such texts are the alternatives of the group that they
make up with separators between them. Blank edges make no difference.
-/

namespace Campaign

open Text Brace

/-- All braces of a text are matched in it, and no separator is outside the matched pairs. -/
structure SelfContained (text : List Char) : Prop where
  matched : ∀ position c, charAt? text position = some c → ¬ Loose text position c
  enclosed : ∀ position c, charAt? text position = some c → isSeparator c →
    ¬ Outside text position

namespace Template

/-- Only ordinary characters stand outside the groups, and these are balanced. -/
def Enclosed : Template → Prop
  | empty => True
  | char c rest => isOrdinary c ∧ rest.Enclosed
  | group content rest => content.Balanced ∧ rest.Enclosed

instance (c : Char) : Decidable (isOrdinary c) :=
  inferInstanceAs (Decidable (c ≠ '{' ∧ c ≠ '}' ∧ ¬ isSeparator c))

instance decidableBalanced : (t : Template) → Decidable t.Balanced
  | empty => .isTrue trivial
  | char c rest =>
    have := decidableBalanced rest
    inferInstanceAs (Decidable (c ≠ '{' ∧ c ≠ '}' ∧ rest.Balanced))
  | group content rest =>
    have := decidableBalanced content
    have := decidableBalanced rest
    inferInstanceAs (Decidable (content.Balanced ∧ rest.Balanced))

instance decidableEnclosed : (t : Template) → Decidable t.Enclosed
  | empty => .isTrue trivial
  | char c rest =>
    have := decidableEnclosed rest
    inferInstanceAs (Decidable (isOrdinary c ∧ rest.Enclosed))
  | group content rest =>
    have := decidableEnclosed rest
    inferInstanceAs (Decidable (content.Balanced ∧ rest.Enclosed))

theorem Enclosed.balanced {t : Template} (h : t.Enclosed) : t.Balanced := by
  induction t with
  | empty => trivial
  | char c rest ih => exact ⟨h.1.1, h.1.2.1, ih h.2⟩
  | group content rest _ ih => exact ⟨h.1, ih h.2⟩

/-- A canonical template is enclosed if the characters outside its groups are ordinary. -/
theorem Canonical.enclosed_iff {t : Template} (h : t.Canonical) :
    t.Enclosed ↔ ∀ c ∈ t.outer, isOrdinary c := by
  induction t with
  | empty => exact iff_of_true trivial (List.forall_mem_nil _)
  | char c rest ih => rw [Enclosed, outer, List.forall_mem_cons, ih h.2]
  | group content rest _ ih =>
      rw [Enclosed, outer, ih h.2]
      exact and_iff_right h.1

theorem enclosed_append (a b : Template) : (a.append b).Enclosed ↔ a.Enclosed ∧ b.Enclosed := by
  induction a with
  | empty => exact (and_iff_right trivial).symm
  | char c rest ih => rw [append, Enclosed, Enclosed, ih, and_assoc]
  | group content rest _ ih => rw [append, Enclosed, Enclosed, ih, and_assoc]

theorem enclosed_chars (run : List Char) (t : Template) :
    (chars run t).Enclosed ↔ (∀ c ∈ run, isOrdinary c) ∧ t.Enclosed := by
  induction run with
  | nil => exact (and_iff_right (List.forall_mem_nil _)).symm
  | cons c run ih =>
      rw [List.forall_mem_cons, and_assoc, ← ih]
      rfl

/-- The alternatives of a balanced content are enclosed. -/
theorem Part.enclosed {a t : Template} (h : Part a t) (ht : t.Balanced) : a.Enclosed := by
  induction h with
  | empty t => trivial
  | char c hc h ih => exact ⟨⟨ht.1, ht.2.1, hc⟩, ih ht.2.2⟩
  | group content h ih => exact ⟨ht.1, ih ht.2⟩
  | skipChar c h ih => exact ih ht.2.2
  | skipGroup content h ih => exact ih ht.2

/-- An enclosed template in front lengthens the first alternative: nothing in it cuts. -/
theorem Enclosed.alternatives_append {a : Template} (h : a.Enclosed) (after : Template) :
    (a.append after).alternatives = after.alternatives.mapFirst (a.append ·) := by
  induction a with
  | empty => rfl
  | char c rest ih =>
      rw [append, alternatives, if_neg h.1.2.2, ih h.2]
      rfl
  | group content rest _ ih =>
      rw [append, alternatives, ih h.2]
      rfl

/-- Templates one after another with a separator between each two. -/
def joined : List Template → Template
  | [] => empty
  | [t] => t
  | t :: next :: more => t.append (char '/' (joined (next :: more)))

theorem render_joined (ts : List Template) :
    (joined ts).render = ['/'].intercalate (ts.map render) := by
  induction ts with
  | nil => rfl
  | cons t more ih =>
      cases more with
      | nil => exact List.intercalate_singleton.symm
      | cons next more =>
          rw [joined, render_append, render, ih, List.map_cons, List.map_cons, List.map_cons,
            List.intercalate_cons_cons, List.append_assoc, List.singleton_append]

section Joined

variable {ts : List Template}

theorem balanced_joined (hts : ∀ t ∈ ts, t.Enclosed) : (joined ts).Balanced := by
  induction ts with
  | nil => trivial
  | cons t more ih =>
      obtain ⟨ht, hmore⟩ := List.forall_mem_cons.mp hts
      cases more with
      | nil => exact ht.balanced
      | cons next more => exact ht.balanced.append_balanced ⟨by decide, by decide, ih hmore⟩

/-- The alternatives of joined templates are these templates. -/
theorem toList_alternatives_joined (hne : ts ≠ []) (hts : ∀ t ∈ ts, t.Enclosed) :
    (joined ts).alternatives.toList = ts := by
  induction ts with
  | nil => exact absurd rfl hne
  | cons t more ih =>
      obtain ⟨ht, hmore⟩ := List.forall_mem_cons.mp hts
      cases more with
      | nil =>
          have halone := ht.alternatives_append empty
          rw [append_empty] at halone
          rw [joined, halone, alternatives]
          exact congrArg (fun t => [t]) t.append_empty
      | cons next more =>
          rw [joined, ht.alternatives_append, alternatives,
            if_pos (show isSeparator '/' = true from rfl)]
          exact congrArg₂ List.cons t.append_empty (ih (List.cons_ne_nil _ _) hmore)

end Joined

end Template

open Template

section SelfContained

variable {text : List Char}

/-- A text is self-contained when its template is enclosed. -/
theorem selfContained_iff : SelfContained text ↔ (ofText text).Enclosed := by
  rw [(canonical_ofText text).enclosed_iff]
  -- The characters at the top of the template are those of the text outside all groups.
  constructor
  · intro h c hc
    obtain ⟨i, hliteral⟩ := (mem_outer_iff 0).mp hc
    have hplaced := literals_subset _ _ hliteral
    rw [render_ofText] at hplaced
    have hchar := mem_placed_zero.mp hplaced
    have hbrace : ¬ isBrace c := fun hbrace =>
      h.matched i c hchar ((loose_iff hplaced).mpr ⟨hbrace, hliteral⟩)
    rw [isBrace_iff, not_or] at hbrace
    refine ⟨hbrace.1, hbrace.2, ?_⟩
    intro hseparator
    apply h.enclosed i c hchar hseparator
    exact fun start stop hclose => not_inside_of_mem_literals hliteral hclose
  · intro h
    have hordinary : ∀ {i c}, (i, c) ∈ (ofText text).literals 0 → isOrdinary c :=
      fun hliteral => h _ ((mem_outer_iff 0).mpr ⟨_, hliteral⟩)
    refine ⟨?_, ?_⟩
    · intro i c hchar hloose
      obtain ⟨hbrace, hliteral⟩ := (loose_iff (mem_placed_zero.mpr hchar)).mp hloose
      have hplain := hordinary hliteral
      exact (isBrace_iff.mp hbrace).elim hplain.1 hplain.2.1
    · intro i c hchar hseparator hout
      have hliteral := mem_literals_of_forall (mem_placed_zero.mpr hchar) hout
      exact (hordinary hliteral).2.2 hseparator

instance (text : List Char) : Decidable (SelfContained text) :=
  decidable_of_iff (ofText text).Enclosed selfContained_iff.symm

/-- The text of an enclosed template is self-contained. -/
theorem Template.Enclosed.selfContained_render {t : Template} (h : t.Enclosed) :
    SelfContained t.render := by
  rw [selfContained_iff, h.balanced.canonical.ofText_render]
  exact h

/-- Blanks neither cut nor open or close a group. -/
theorem isOrdinary_of_isBlank {c : Char} (h : isBlank c) : isOrdinary c := by
  refine ⟨?_, ?_, ?_⟩
  · rintro rfl
    cases h
  · rintro rfl
    cases h
  · intro hc
    rcases Bool.or_eq_true_iff.mp hc with hc | hc <;> rw [beq_iff_eq.mp hc] at h <;> cases h

/-- A text between blank edges is read as it is read without them. -/
theorem ofText_between {before after : List Char} (hbefore : ∀ c ∈ before, isBlank c)
    (hafter : ∀ c ∈ after, isBlank c) (text : List Char) :
    ofText (before ++ text ++ after) = chars before ((ofText text).append (chars after empty)) := by
  have hplain : ∀ run : List Char, (∀ c ∈ run, isBlank c) → ∀ c ∈ run, c ≠ '{' ∧ c ≠ '}' := by
    intro run hrun c hc
    have hordinary := isOrdinary_of_isBlank (hrun c hc)
    exact ⟨hordinary.1, hordinary.2.1⟩
  have hcanonical : (chars after empty).Canonical :=
    Canonical.chars (t := empty) trivial (hplain after hafter)
  apply ofText_eq_iff.mpr
  refine ⟨((canonical_ofText text).append hcanonical ?_).chars (hplain before hbefore), ?_⟩
  · rintro ⟨_, hclose⟩
    rw [outer_chars, outer, List.append_nil] at hclose
    exact (hplain after hafter '}' hclose).2 rfl
  · rw [render_chars, render_append, render_ofText, render_chars, render, List.append_nil,
      List.append_assoc]

/-- Blanks at the edges make no difference to whether a text is self-contained. -/
theorem selfContained_trim_iff : SelfContained (trim text) ↔ SelfContained text := by
  obtain ⟨before, after, htext, hbefore, hafter⟩ := exists_trim text
  have hread := ofText_between hbefore hafter (trim text)
  rw [← htext] at hread
  rw [selfContained_iff, selfContained_iff, hread, enclosed_chars, enclosed_append, enclosed_chars]
  constructor
  · intro h
    exact ⟨fun c hc => isOrdinary_of_isBlank (hbefore c hc), h,
      fun c hc => isOrdinary_of_isBlank (hafter c hc), trivial⟩
  · exact fun h => h.2.1

end SelfContained

end Campaign
