import Campaign.Proofs.Random.Words
import Campaign.Proofs.Sample.Residue

/-!
# Choices that settle

A random expansion has no result only when a choice refuses every word from some point on. A source
that goes on giving words that are not refused, whatever is chosen among, settles every choice, and
what is left of it still does.
-/

namespace Campaign

namespace Source

/-- A choice among any number of things finds a word that settles it, however many words have been
drawn. -/
def Settles (s : Source) : Prop := ∀ n, 0 < n → ∀ drawn, ∃ i ≥ drawn, accepts n (s.word i)

variable {s : Source}

/-- A source that settles every choice makes any choice, and keeps its words. -/
theorem Settles.choose? (h : s.Settles) {n : Nat} (hn : 0 < n) :
    ∃ i after, s.choose? n = some (i, after) ∧ after.word = s.word := by
  obtain ⟨i, hi, haccepts⟩ := h n hn s.drawn
  obtain ⟨distance, rfl⟩ := Nat.exists_eq_add_of_le hi
  clear h hi
  -- The induction is on how far the word that settles the choice is ahead.
  induction distance generalizing s with
  | zero => exact ⟨_, _, choose?_of_accepts haccepts, rfl⟩
  | succ distance ih =>
      by_cases hnext : accepts n s.next
      · exact ⟨_, _, choose?_of_accepts hnext, rfl⟩
      · rw [choose?, if_neg hnext]
        apply ih (s := s.skip)
        rw [← Nat.add_assoc, Nat.add_right_comm] at haccepts
        exact haccepts

/-- Whether a source settles depends on its words only, not on how many were drawn. -/
theorem Settles.of_word_eq {after : Source} (h : s.Settles) (heq : after.word = s.word) :
    after.Settles := by
  unfold Settles
  rw [heq]
  exact h

end Source

open Source

theorem Walk.resolve?_of_settles {w : Walk} (h : w.source.Settles)
    (alternatives : Pieces (List Char)) :
    ∃ shown after, w.resolve? alternatives = some (shown, after) ∧
      after.source.word = w.source.word := by
  unfold Walk.resolve?
  split
  next =>
    obtain ⟨i, source, hchoose, hword⟩ :=
      h.choose? (List.length_pos_iff.mpr alternatives.toList_ne_nil)
    rw [hchoose]
    exact ⟨_, _, rfl, hword⟩
  next => exact ⟨_, _, rfl, rfl⟩

/-- With such a source a walk over any template ends. -/
theorem Template.walk?_of_settles (inside : Bool) (t : Template) {w : Walk}
    (h : w.source.Settles) :
    ∃ pieces after, t.walk? inside w = some (pieces, after) ∧
      after.source.word = w.source.word := by
  induction t generalizing inside w with
  | empty => exact ⟨_, _, rfl, rfl⟩
  | char c rest ih =>
      obtain ⟨pieces, after, hrest, hword⟩ := ih inside h
      rw [walk?, hrest]
      exact ⟨_, _, rfl, hword⟩
  | group content rest ihcontent ihrest =>
      obtain ⟨alternatives, inner, hcontent, hinner⟩ := ihcontent true h
      -- Draws move a source on, but its words stay, and these are what settles a choice.
      have hsettles := h.of_word_eq hinner
      obtain ⟨shown, resolved, hresolve, hresolved⟩ :=
        Walk.resolve?_of_settles hsettles alternatives
      obtain ⟨pieces, after, hrest, hafter⟩ :=
        ihrest inside (hsettles.of_word_eq hresolved)
      rw [walk?, hcontent]
      dsimp only [bind, Option.bind_some]
      rw [hresolve]
      dsimp only [Option.bind_some]
      rw [hrest]
      exact ⟨_, _, rfl, hafter.trans (hresolved.trans hinner)⟩

/-- A source that settles every choice gives a random expansion of any text and goes on to settle
every choice. -/
theorem sampleText?_of_settles {source : Source} (h : source.Settles) (text : List Char) :
    ∃ sample after, sampleText? text source = some (sample, after) ∧ after.Settles := by
  unfold sampleText?
  split
  next =>
    cases Template.parse text with
    | error _ => exact ⟨_, _, rfl, h⟩
    | ok t =>
        obtain ⟨pieces, after, hwalk, hword⟩ :=
          t.walk?_of_settles false (w := ⟨source, 0, false⟩) h
        dsimp only
        rw [Template.sample?, hwalk]
        exact ⟨_, _, rfl, h.of_word_eq hword⟩
  next => exact ⟨_, _, rfl, h⟩

end Campaign
