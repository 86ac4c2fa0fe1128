import Campaign.Proofs.Count.Variations
import Campaign.Proofs.Sample.Draws

/-!
# Resuming a random expansion

A random expansion that is cut short shows a text that parses again, with the groups that were not
resolved and no others. Expanding that text in turn resolves more of them. However many rounds there
are and whatever is drawn in them, no round shows a text with an expansion that the first text did
not have.
-/

namespace Campaign

open Template

namespace Template

/-- A walk over a template without groups shows its text and draws nothing. -/
theorem walk?_of_groupCount_eq_zero {t : Template} (h : t.groupCount = 0) (w : Walk) :
    t.walk? false w = some (.single t.render, w) := by
  induction t with
  | empty => rfl
  | char c rest ih =>
      rw [walk?, ih h]
      rfl
  | group content rest => cases h

theorem sample?_of_groupCount_eq_zero {t : Template} (h : t.groupCount = 0) (source : Source) :
    t.sample? source = some (⟨t.render, 0, false⟩, source) := by
  rw [sample?, walk?_of_groupCount_eq_zero h]
  rfl

end Template

/-- A text shows what its template does, also when it has no groups and is not read. -/
theorem sampleText?_of_ok {text : List Char} {t : Template} (h : parse text = .ok t)
    (source : Source) :
    sampleText? text source = (t.sample? source).map fun (s, after) => (s.text, after) := by
  rw [sampleText?, h]
  split
  next => rfl
  next hopen =>
    rw [← render_of_parse h] at hopen
    rw [sample?_of_groupCount_eq_zero (groupCount_eq_zero_of_not_mem hopen), render_of_parse h]
    rfl

theorem sampleText?_of_error {text : List Char} {e : NestingError} (h : parse text = .error e)
    (source : Source) : sampleText? text source = some (text, source) := by
  rw [sampleText?, h]
  split <;> rfl

/-- One text is what another has become after so many of its groups are resolved. -/
structure Resumes (text shown : List Char) (groups resolved : Nat) : Prop where
  parses : ∃ left, parse shown = .ok left ∧ left.groupCount = groups - resolved
  enumeration_subset : enumeration shown ⊆ enumeration text
  /-- Once all groups are resolved, the text is an expansion. -/
  mem_enumeration : groups ≤ resolved → shown ∈ enumeration text

/-- Expands a text round after round, each with a source of its own, and gives the last text. -/
def sampleRounds? : List Source → List Char → Option (List Char)
  | [], text => some text
  | source :: sources, text => do
    let (shown, _) ← sampleText? text source
    sampleRounds? sources shown

/-- What a random expansion owes to its text, whatever is drawn. -/
structure Sample.Accounted (text : List Char) (t : Template) (s : Sample) : Prop where
  resolved_eq : s.resolved = min t.groupCount maxResolved
  truncated_iff : s.truncated ↔ maxResolved < t.groupCount
  resumes : Resumes text s.text t.groupCount s.resolved
  mem_expand : t.groupCount ≤ maxResolved →
    ∀ limit, (enumeration text).length ≤ limit → s.text ∈ expand limit text
  /-- Further rounds resolve further groups and lead to an expansion of the first text. -/
  rounds : ∀ sources shown, sampleRounds? sources s.text = some shown →
    Resumes text shown t.groupCount (maxResolved * (sources.length + 1))

namespace Resumes

variable {text shown : List Char} {t left : Template} {groups resolved : Nat}

/-- A text that parses with the groups that are left, and expands to nothing new, resumes another.
-/
theorem of_parse (hparse : parse shown = .ok left) (hcount : left.groupCount = groups - resolved)
    (hsubset : enumeration shown ⊆ enumeration text) : Resumes text shown groups resolved := by
  refine ⟨⟨left, hparse, hcount⟩, hsubset, ?_⟩
  intro hle
  have hzero : left.groupCount = 0 := by omega
  apply hsubset
  rw [enumeration_of_ok hparse, allExpansions_of_groupCount_eq_zero hzero, render_of_parse hparse]
  exact List.mem_singleton_self shown

/-- A residue of what a text parses to resumes the text. -/
theorem of_residue (hparse : parse text = .ok t) (hleft : Residue t left)
    (hcount : left.groupCount = groups - resolved) : Resumes text left.render groups resolved := by
  obtain ⟨_, hdepth⟩ := parse_eq_ok_iff_depth.mp hparse
  have hagain : parse left.render = .ok left :=
    (hleft.canonical (canonical_of_parse hparse)).parse_render (Nat.le_trans hleft.depth_le hdepth)
  apply of_parse hagain hcount
  rw [enumeration_of_ok hagain, enumeration_of_ok hparse]
  exact hleft.allExpansions_subset

theorem refl (hparse : parse text = .ok t) : Resumes text text t.groupCount 0 :=
  of_parse hparse rfl (List.Subset.refl _)

theorem trans {last : List Char} {more : Nat} (h : Resumes text shown groups resolved)
    (hnext : Resumes shown last (groups - resolved) more) :
    Resumes text last groups (resolved + more) := by
  obtain ⟨left, hparse, hcount⟩ := hnext.parses
  rw [Nat.sub_sub] at hcount
  exact of_parse hparse hcount
    (List.Subset.trans hnext.enumeration_subset h.enumeration_subset)

end Resumes

/-- A random expansion shows a residue of the template it expands. -/
theorem Template.sample?_eq_some {t : Template} {source after : Source} {s : Sample}
    (h : t.sample? source = some (s, after)) :
    ∃ left, Residue t left ∧ s.text = left.render ∧
      left.groupCount = t.groupCount - s.resolved ∧ s.resolved = min t.groupCount maxResolved ∧
      s.truncated = decide (maxResolved < t.groupCount) := by
  obtain ⟨⟨pieces, w⟩, hwalk, heq⟩ := Option.bind_eq_some_iff.mp h
  cases heq
  obtain ⟨left, hleaves, rfl⟩ := walk?_leaves (Nat.zero_le _) hwalk
  have hcount := hleaves.groupCount
  have hresolved := hleaves.resolved
  have htruncated := hleaves.truncated
  simp only [Nat.zero_add, Bool.false_or] at hcount hresolved htruncated
  refine ⟨left, hleaves.isResidue, rfl, ?_, ?_, htruncated⟩
  · dsimp only
    omega
  · rw [hresolved, Nat.min_comm]

section Rounds

variable {text shown : List Char} {t : Template}

/-- What is shown of a text resumes it, up to the limit. -/
theorem sampleText?_resumes {source after : Source} (hparse : parse text = .ok t)
    (h : sampleText? text source = some (shown, after)) :
    Resumes text shown t.groupCount maxResolved := by
  rw [sampleText?_of_ok hparse] at h
  obtain ⟨⟨s, _⟩, hsample, heq⟩ := Option.map_eq_some_iff.mp h
  cases heq
  obtain ⟨left, hleft, htext, hcount, hresolved, _⟩ := sample?_eq_some hsample
  rw [htext]
  apply Resumes.of_residue hparse hleft
  omega

/-- Round after round the groups that are left are resolved, and nothing is added. -/
theorem sampleRounds?_resumes {sources : List Source} (hparse : parse text = .ok t)
    (h : sampleRounds? sources text = some shown) :
    Resumes text shown t.groupCount (maxResolved * sources.length) := by
  induction sources generalizing text t with
  | nil =>
      cases h
      exact Resumes.refl hparse
  | cons source sources ih =>
      obtain ⟨⟨next, after⟩, hround, hrounds⟩ := Option.bind_eq_some_iff.mp h
      have hnext := sampleText?_resumes hparse hround
      obtain ⟨left, hparse', hcount⟩ := hnext.parses
      have hlater := ih hparse' hrounds
      rw [hcount] at hlater
      have hall := hnext.trans hlater
      rwa [Nat.add_comm, ← Nat.mul_succ] at hall

end Rounds

/-- Whatever is drawn, a random expansion resolves as many groups as the limit allows and is cut
short exactly when there are more. What it shows parses with the groups that are left, expands to
nothing but expansions of its text, and can be expanded again until it is one of them. -/
theorem sample?_accounted {text : List Char} {t : Template} (hparse : parse text = .ok t)
    {source after : Source} {s : Sample} (h : t.sample? source = some (s, after)) :
    s.Accounted text t := by
  obtain ⟨left, hleft, htext, hcount, hresolved, htruncated⟩ := sample?_eq_some h
  have hresumes : Resumes text s.text t.groupCount s.resolved := by
    rw [htext]
    exact Resumes.of_residue hparse hleft hcount
  refine ⟨hresolved, ?_, hresumes, ?_, ?_⟩
  · rw [htruncated, decide_eq_true_iff]
  · intro hle limit hlimit
    have hmem := hresumes.mem_enumeration (by omega)
    rw [enumeration_of_ok hparse] at hlimit hmem
    rw [expand, hparse]
    dsimp only
    rwa [t.expansions_eq_take, List.take_of_length_le hlimit]
  · intro sources shown hrounds
    -- As many groups as the limit are as good as resolved: with fewer there is none left.
    have hround : Resumes text s.text t.groupCount maxResolved := by
      rw [htext]
      apply Resumes.of_residue hparse hleft
      omega
    obtain ⟨again, hagain, hgroups⟩ := hround.parses
    have hlater := sampleRounds?_resumes hagain hrounds
    rw [hgroups] at hlater
    have hall := hround.trans hlater
    rwa [Nat.add_comm, ← Nat.mul_succ] at hall

/-- A nested group with a loose brace behind, from a source of zeros. -/
theorem sample?_accounted_nested :
    Template.parse ['{', '{', 'a', '|', 'b', '}', '/', 'c', '}', '{'] = .ok
      (.group (.group (.char 'a' (.char '|' (.char 'b' .empty))) (.char '/' (.char 'c' .empty)))
        (.char '{' .empty)) ∧
    (Template.group
      (.group (.char 'a' (.char '|' (.char 'b' .empty))) (.char '/' (.char 'c' .empty)))
        (.char '{' .empty)).sample? (Source.ofWords #[]) =
      some (⟨['a', '{'], 2, false⟩, { Source.ofWords #[] with drawn := 2 }) ∧
    Sample.Accounted ['{', '{', 'a', '|', 'b', '}', '/', 'c', '}', '{']
      (.group (.group (.char 'a' (.char '|' (.char 'b' .empty))) (.char '/' (.char 'c' .empty)))
        (.char '{' .empty)) ⟨['a', '{'], 2, false⟩ :=
  have hzero : ∀ i, (Source.ofWords #[]).word i = 0 := fun _ => rfl
  have hsample := Template.sample?_of_zero
    (t := .group (.group (.char 'a' (.char '|' (.char 'b' .empty))) (.char '/' (.char 'c' .empty)))
      (.char '{' .empty)) (by decide) hzero
  ⟨rfl, hsample, sample?_accounted rfl hsample⟩

end Campaign
