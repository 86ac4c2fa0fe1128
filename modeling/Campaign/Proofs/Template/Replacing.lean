import Campaign.Proofs.Brace.Matching
import Campaign.Proofs.Template.Depth

/-!
# Replacing a literal character

A character that is no brace of a group can give way to others without braces, or to nothing. The
text is then read as the same template with the character replaced: no pair of braces comes or
goes, because loose braces never close or open a group of others.
-/

namespace Campaign

open Text Brace

/-- A brace at a byte position that has no partner. -/
def Brace.Loose (text : List Char) (position : Nat) (c : Char) : Prop :=
  (c = '{' ∧ findClose? text position = none) ∨
    (c = '}' ∧ ∀ start, findClose? text start ≠ some (position + 1))

namespace Template

/-- Literal characters in front of a template. -/
def chars (run : List Char) (t : Template) : Template := run.foldr char t

theorem render_chars (run : List Char) (t : Template) : (chars run t).render = run ++ t.render := by
  induction run with
  | nil => rfl
  | cons c run ih => exact congrArg (c :: ·) ih

theorem depth_chars (run : List Char) (t : Template) : (chars run t).depth = t.depth := by
  induction run with
  | nil => rfl
  | cons c run ih => exact ih

section Chars

variable {run : List Char} {t : Template}

theorem Balanced.chars (ht : t.Balanced) (hrun : ∀ c ∈ run, c ≠ '{' ∧ c ≠ '}') :
    (chars run t).Balanced := by
  induction run with
  | nil => exact ht
  | cons c run ih =>
      obtain ⟨hc, hrun⟩ := List.forall_mem_cons.mp hrun
      exact ⟨hc.1, hc.2, ih hrun⟩

theorem Opening.chars (ht : t.Opening) (hrun : ∀ c ∈ run, c ≠ '{' ∧ c ≠ '}') :
    (chars run t).Opening := by
  induction run with
  | nil => exact ht
  | cons c run ih =>
      obtain ⟨hc, hrun⟩ := List.forall_mem_cons.mp hrun
      exact ⟨hc.2, ih hrun⟩

/-- Characters other than braces in front keep a template canonical. -/
theorem Canonical.chars (ht : t.Canonical) (hrun : ∀ c ∈ run, c ≠ '{' ∧ c ≠ '}') :
    (chars run t).Canonical := by
  induction run with
  | nil => exact ht
  | cons c run ih =>
      obtain ⟨hc, hrun⟩ := List.forall_mem_cons.mp hrun
      exact ⟨fun hopen => absurd hopen hc.1, ih hrun⟩

end Chars

/-- Two templates that differ in one literal character, which the second has others for. `place`
tells whether the character stands in a group, where the templates stand inside one or not. -/
inductive Replaces (c : Char) (run : List Char) (place : Bool) : Bool → Template → Template → Prop
  | here (rest : Template) : Replaces c run place place (char c rest) (chars run rest)
  | char {inside : Bool} {rest rest' : Template} (d : Char)
      (h : Replaces c run place inside rest rest') :
      Replaces c run place inside (char d rest) (char d rest')
  | content {inside : Bool} {content content' : Template} (rest : Template)
      (h : Replaces c run place true content content') :
      Replaces c run place inside (group content rest) (group content' rest)
  | rest {inside : Bool} {rest rest' : Template} (content : Template)
      (h : Replaces c run place inside rest rest') :
      Replaces c run place inside (group content rest) (group content rest')

namespace Replaces

variable {c : Char} {run : List Char} {place inside : Bool} {t t' : Template}

/-- A character replaced by others than braces leaves a template balanced. -/
theorem balanced (h : Replaces c run place inside t t') (hrun : ∀ d ∈ run, d ≠ '{' ∧ d ≠ '}')
    (ht : t.Balanced) : t'.Balanced := by
  induction h with
  | here rest => exact ht.2.2.chars hrun
  | char d _ ih => exact ⟨ht.1, ht.2.1, ih ht.2.2⟩
  | content rest _ ih => exact ⟨ih ht.1, ht.2⟩
  | rest content _ ih => exact ⟨ht.1, ih ht.2⟩

theorem opening (h : Replaces c run place inside t t') (hrun : ∀ d ∈ run, d ≠ '{' ∧ d ≠ '}')
    (ht : t.Opening) : t'.Opening := by
  induction h with
  | here rest => exact ht.2.chars hrun
  | char d _ ih => exact ⟨ht.1, ih ht.2⟩
  | content rest h _ => exact ⟨h.balanced hrun ht.1, ht.2⟩
  | rest content _ ih => exact ⟨ht.1, ih ht.2⟩

/-- Others than braces in the place of a character leave a canonical template canonical. -/
theorem canonical (h : Replaces c run place inside t t') (hrun : ∀ d ∈ run, d ≠ '{' ∧ d ≠ '}')
    (ht : t.Canonical) : t'.Canonical := by
  induction h with
  | here rest => exact ht.2.chars hrun
  | char d h ih => exact ⟨fun hd => h.opening hrun (ht.1 hd), ih ht.2⟩
  | content rest h _ => exact ⟨h.balanced hrun ht.1, ht.2⟩
  | rest content _ ih => exact ⟨ht.1, ih ht.2⟩

/-- A character counts for no depth, and neither does what takes its place. -/
theorem depth_eq (h : Replaces c run place inside t t') : t'.depth = t.depth := by
  induction h with
  | here rest => exact depth_chars run rest
  | char d _ ih => exact ih
  | content rest _ ih => rw [depth, depth, ih]
  | rest content _ ih => rw [depth, depth, ih]

end Replaces

/-- The place of a character is before another one, at it or behind it. -/
theorem append_cons_cases {first rest before after : List Char} {c d : Char}
    (h : first ++ d :: rest = before ++ c :: after) :
    (∃ left, first = before ++ c :: left ∧ after = left ++ d :: rest) ∨
      (before = first ∧ c = d) ∨
        ∃ beyond, before = first ++ d :: beyond ∧ rest = beyond ++ c :: after := by
  -- The shorter of the two first parts is a beginning of the other.
  rcases List.append_eq_append_iff.mp h with ⟨beyond, hbefore, hrest⟩ | ⟨left, hfirst, hafter⟩
  · cases beyond with
    | nil =>
        rw [List.append_nil] at hbefore
        exact Or.inr (Or.inl ⟨hbefore, (List.cons.inj hrest).1.symm⟩)
    | cons b beyond =>
        obtain ⟨rfl, htail⟩ := List.cons.inj hrest
        exact Or.inr (Or.inr ⟨beyond, hbefore, htail⟩)
  · cases left with
    | nil =>
        rw [List.append_nil] at hfirst
        exact Or.inr (Or.inl ⟨hfirst.symm, (List.cons.inj hafter).1⟩)
    | cons b left =>
        obtain ⟨rfl, htail⟩ := List.cons.inj hafter
        exact Or.inl ⟨left, hfirst, htail⟩

/-- A character of a text that is no brace of a group can be replaced in the template. Where it
stands in a group, the spans of the groups tell so. -/
theorem exists_replaces (run : List Char) (inside : Bool) {c : Char} {t : Template}
    {position : Nat} {before after : List Char} (hrender : t.render = before ++ c :: after)
    (hliteral : ∀ s ∈ t.groupSpans position,
      (c = '{' → s.start ≠ position + Text.byteLength before) ∧
        (c = '}' → s.stop ≠ position + Text.byteLength before + 1)) :
    ∃ place t', Replaces c run place inside t t' ∧ t'.render = before ++ run ++ after ∧
      (place = inside ∨ place = true ∧ ∃ s ∈ t.groupSpans position,
        s.start ≤ position + Text.byteLength before ∧
          position + Text.byteLength before < s.stop) := by
  induction t generalizing inside position before after with
  | empty => simp [render] at hrender
  | char d rest ih =>
      cases before with
      | nil =>
          obtain ⟨rfl, rfl⟩ := List.cons.inj hrender
          exact ⟨inside, chars run rest, .here rest, render_chars run rest, Or.inl rfl⟩
      | cons b before =>
          obtain ⟨rfl, hrest⟩ := List.cons.inj hrender
          rw [byteLength_cons, ← Nat.add_assoc] at hliteral ⊢
          obtain ⟨place, rest', hreplaces, htext, hplace⟩ := ih inside hrest hliteral
          exact ⟨place, .char d rest', hreplaces.char d, congrArg (d :: ·) htext, hplace⟩
  | group content rest ihcontent ihrest =>
      have hlength := content.byteLength_eq
      obtain ⟨hself, hlater⟩ := List.forall_mem_cons.mp hliteral
      obtain ⟨hcontent, hrest⟩ := List.forall_mem_append.mp hlater
      cases before with
      | nil => exact absurd rfl (hself.1 (List.cons.inj hrender).1.symm)
      | cons b before =>
          obtain ⟨rfl, htail⟩ := List.cons.inj hrender
          have hopen : Text.byteLength ('{' :: before) = 1 + Text.byteLength before := rfl
          rw [hopen, ← Nat.add_assoc] at hself hcontent hrest ⊢
          -- The character stands inside the group, where its closing brace is, or behind it.
          rcases append_cons_cases htail with
            ⟨left, hleft, rfl⟩ | ⟨rfl, hc⟩ | ⟨beyond, rfl, hbeyond⟩
          · obtain ⟨place, content', hreplaces, htext, hplace⟩ := ihcontent true hleft hcontent
            have hplace : place = true := hplace.elim id And.left
            refine ⟨place, .group content' rest, hreplaces.content rest, ?_,
              Or.inr ⟨hplace, _, List.mem_cons_self, ?_⟩⟩
            · rw [render, htext]
              simp
            · rw [hleft, byteLength_append, byteLength_cons] at hlength
              dsimp only
              omega
          · refine absurd ?_ (hself.2 hc)
            dsimp only
            omega
          · have hposition : position + 1 + Text.byteLength (content.render ++ '}' :: beyond) =
                position + content.byteLength + 2 + Text.byteLength beyond := by
              rw [byteLength_append, byteLength_cons, show Char.utf8Size '}' = 1 from rfl]
              omega
            rw [hposition] at hrest ⊢
            obtain ⟨place, rest', hreplaces, htext, hplace⟩ := ihrest inside hbeyond hrest
            refine ⟨place, .group content rest', hreplaces.rest content, ?_, ?_⟩
            · rw [render, htext]
              simp
            · refine hplace.imp_right (And.imp_right ?_)
              rintro ⟨s, hs, hbounds⟩
              exact ⟨s, List.mem_cons_of_mem _ (List.mem_append_right _ hs), hbounds⟩

/-- A text with a literal character replaced by characters without braces is read as its template
with the character replaced. -/
theorem ofText_replaces (run : List Char) {before after : List Char} {c : Char}
    (hloose : c = '{' ∨ c = '}' → Loose (before ++ c :: after) (Text.byteLength before) c)
    (hrun : ∀ d ∈ run, d ≠ '{' ∧ d ≠ '}') :
    ∃ place, Replaces c run place false (ofText (before ++ c :: after))
        (ofText (before ++ run ++ after)) ∧
      (place = true → ∃ i e, findClose? (before ++ c :: after) i = some e ∧
        i ≤ Text.byteLength before ∧ Text.byteLength before < e) := by
  have hcanonical := canonical_ofText (before ++ c :: after)
  have hrender := render_ofText (before ++ c :: after)
  -- A loose brace neither opens nor closes a group, so it is a literal character.
  have hliteral : ∀ s ∈ (ofText (before ++ c :: after)).groupSpans 0,
      (c = '{' → s.start ≠ 0 + Text.byteLength before) ∧
        (c = '}' → s.stop ≠ 0 + Text.byteLength before + 1) := by
    intro s hs
    rw [Nat.zero_add]
    constructor
    · rintro rfl hstart
      rcases hloose (Or.inl rfl) with ⟨_, hnone⟩ | ⟨heq, _⟩
      · rw [← hstart, mem_groupSpans_ofText.mp hs] at hnone
        cases hnone
      · cases heq
    · rintro rfl hstop
      rcases hloose (Or.inr rfl) with ⟨heq, _⟩ | ⟨_, hnone⟩
      · cases heq
      · exact hnone s.start (hstop ▸ mem_groupSpans_ofText.mp hs)
  obtain ⟨place, t', hreplaces, htext, hplace⟩ := exists_replaces run false hrender hliteral
  have ht' : ofText (before ++ run ++ after) = t' :=
    ofText_eq_iff.mpr ⟨hreplaces.canonical hrun hcanonical, htext⟩
  refine ⟨place, ht' ▸ hreplaces, ?_⟩
  intro htrue
  rcases hplace with hplace | ⟨_, s, hs, hbounds⟩
  · cases hplace.symm.trans htrue
  · rw [Nat.zero_add] at hbounds
    exact ⟨s.start, s.stop, mem_groupSpans_ofText.mp hs, hbounds⟩

end Template

end Campaign
