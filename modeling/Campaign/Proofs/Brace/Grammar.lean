import Campaign.Proofs.Brace.Stack
import Campaign.Proofs.Layout.Tiling
import Mathlib.Computability.Language
import Mathlib.Order.FixedPoints
import Mathlib.Order.CompletePartialOrder

/-!
# The grammar of groups

A group is an opening brace, any number of characters that are no braces and of groups, and a
closing brace. The groups are the least language of which this holds. Its words are the balanced
templates between braces, and the scan from an opening brace stops just behind the one word that
starts there.
-/

namespace Campaign

open Text Brace Template
open scoped Computability

namespace Brace

/-- The words of one character that is no brace. -/
def plain : Language Char := {word | ∃ c, ¬ isBrace c ∧ word = [c]}

/-- A pair of braces around any number of characters that are no braces and words of a language. -/
def enclose (inner : Language Char) : Language Char := {['{']} * (plain + inner)∗ * {['}']}

theorem monotone_enclose : Monotone enclose := by
  intro first second h
  apply mul_le_mul_left
  apply mul_le_mul_right
  exact kstar_mono (add_le_add_right h plain)

/-- The least language of the words that are in braces around characters and words of it. -/
def groups : Language Char := OrderHom.lfp ⟨enclose, monotone_enclose⟩

/-- The groups are the least language that is the braces around itself. -/
theorem isLeast_groups : IsLeast {inner | enclose inner = inner} groups :=
  OrderHom.isLeast_lfp ⟨enclose, monotone_enclose⟩

theorem mem_enclose {inner : Language Char} {word : List Char} :
    word ∈ enclose inner ↔
      ∃ filling ∈ (plain + inner)∗, word = '{' :: filling ++ ['}'] := by
  constructor
  · rintro ⟨_, ⟨_, rfl, filling, hfilling, rfl⟩, _, rfl, rfl⟩
    exact ⟨filling, hfilling, rfl⟩
  · rintro ⟨filling, hfilling, rfl⟩
    have hopen : ['{'] ∈ ({['{']} : Language Char) := rfl
    exact Language.append_mem_mul (Language.append_mem_mul hopen hfilling) rfl

theorem append_mem_kstar {language : Language Char} {part filling : List Char}
    (hpart : part ∈ language) (hfilling : filling ∈ language∗) : part ++ filling ∈ language∗ := by
  obtain ⟨parts, rfl, hparts⟩ := hfilling
  exact ⟨part :: parts, rfl, List.forall_mem_cons.mpr ⟨hpart, hparts⟩⟩

/-- The languages that contain what is in braces around them contain all groups. -/
theorem groups_le {language : Language Char} (h : enclose language ≤ language) :
    groups ≤ language :=
  OrderHom.lfp_le _ h

theorem braces_mem_groups {filling : List Char} (h : filling ∈ (plain + groups)∗) :
    '{' :: filling ++ ['}'] ∈ groups := by
  rw [← isLeast_groups.1]
  exact mem_enclose.mpr ⟨filling, h, rfl⟩

end Brace

namespace Template

/-- A balanced text is made up of characters that are no braces and of groups. -/
theorem Balanced.render_mem_kstar {t : Template} (h : t.Balanced) :
    t.render ∈ (plain + groups)∗ := by
  induction t with
  | empty => exact Language.nil_mem_kstar _
  | char c rest ih =>
      have hc : ¬ isBrace c := by
        rw [isBrace_iff, not_or]
        exact ⟨h.1, h.2.1⟩
      exact append_mem_kstar (.inl ⟨c, hc, rfl⟩) (ih h.2.2)
  | group content rest ihcontent ihrest =>
      have hgroup := append_mem_kstar (.inr (braces_mem_groups (ihcontent h.1))) (ihrest h.2)
      rw [List.append_assoc] at hgroup
      exact hgroup

/-- The texts of balanced templates in braces. -/
def bracketed : Language Char :=
  {word | ∃ t : Template, t.Balanced ∧ word = '{' :: t.render ++ ['}']}

/-- Conversely, plain characters and bracketed texts make up a balanced text. -/
theorem exists_balanced_of_mem_kstar {filling : List Char} (h : filling ∈ (plain + bracketed)∗) :
    ∃ t : Template, t.Balanced ∧ t.render = filling := by
  obtain ⟨parts, rfl, hparts⟩ := h
  induction parts with
  | nil => exact ⟨.empty, trivial, rfl⟩
  | cons part parts ih =>
      obtain ⟨hpart, hparts⟩ := List.forall_mem_cons.mp hparts
      obtain ⟨rest, hrest, hrender⟩ := ih hparts
      rcases hpart with ⟨c, hc, rfl⟩ | ⟨content, hcontent, rfl⟩
      · rw [isBrace_iff, not_or] at hc
        exact ⟨.char c rest, ⟨hc.1, hc.2, hrest⟩, congrArg (c :: ·) hrender⟩
      · refine ⟨.group content rest, ⟨hcontent, hrest⟩, ?_⟩
        rw [render, hrender, List.flatten_cons, List.append_assoc]
        rfl

/-- The groups are the balanced texts in braces. -/
theorem mem_groups_iff {word : List Char} :
    word ∈ groups ↔ ∃ t : Template, t.Balanced ∧ word = '{' :: t.render ++ ['}'] := by
  constructor
  · intro h
    -- The balanced texts in braces contain what is in braces around them, and so all groups.
    have hclosed : enclose bracketed ≤ bracketed := by
      intro word hword
      obtain ⟨filling, hfilling, rfl⟩ := mem_enclose.mp hword
      obtain ⟨t, ht, rfl⟩ := exists_balanced_of_mem_kstar hfilling
      exact ⟨t, ht, rfl⟩
    exact groups_le hclosed h
  · rintro ⟨t, ht, rfl⟩
    exact braces_mem_groups ht.render_mem_kstar

end Template

namespace Brace

/-- A scan that stops has read a balanced text and the brace behind it. -/
theorem exists_balanced_of_closeWithin? {rest : List Char} {n : Nat}
    (h : closeWithin? 0 rest = some n) :
    ∃ (content : Template) (after : List Char), content.Balanced ∧
      rest = content.render ++ '}' :: after ∧ n = content.byteLength + 1 := by
  have hsound := Reading.sound_ofText rest
  have hrender := Reading.render_ofText rest
  revert hsound hrender
  cases Reading.ofText rest with
  | mk current suspended =>
      intro hsound hrender
      cases suspended with
      | nil =>
          -- Every loose brace is an opening one, so the scan goes on to the end.
          rw [Reading.render, List.flatMap_nil, List.append_nil] at hrender
          have hopening : current.Opening := hsound
          rw [← hrender, hopening.closeWithin?_eq_none] at h
          cases h
      | cons next suspended =>
          have hrest : rest = current.render ++ '}' :: (next.render ++
              suspended.flatMap fun t => '}' :: t.render) := by
            rw [← hrender, Reading.render, List.flatMap_cons]
            rfl
          refine ⟨current, _, hsound.1, hrest, ?_⟩
          rw [hrest, hsound.1.closeWithin?_close] at h
          exact (Option.some.inj h).symm

/-- What is found to close stands around a balanced text. -/
theorem findClose?_eq_some_iff_balanced {text : List Char} {i e : Nat} :
    findClose? text i = some e ↔ ∃ (content : Template) (after : List Char), content.Balanced ∧
      fromByte? text i = some ('{' :: content.render ++ '}' :: after) ∧
      e = i + content.byteLength + 2 := by
  rw [findClose?_eq_some_iff]
  constructor
  · rintro ⟨rest, n, hfrom, hclose, rfl⟩
    obtain ⟨content, after, hcontent, rfl, rfl⟩ := exists_balanced_of_closeWithin? hclose
    exact ⟨content, after, hcontent, hfrom, by omega⟩
  · rintro ⟨content, after, hcontent, hfrom, rfl⟩
    exact ⟨_, _, hfrom, hcontent.closeWithin?_close after, by omega⟩

theorem byteLength_braces (content : Template) :
    Text.byteLength ('{' :: content.render ++ ['}']) = content.byteLength + 2 := by
  have hbrace : Char.utf8Size '{' = 1 ∧ Char.utf8Size '}' = 1 := by decide
  rw [byteLength_append, byteLength_cons, byteLength_cons, byteLength_nil, hbrace.1, hbrace.2,
    Template.byteLength_eq]
  omega

/-- The scan from a byte finds the end of the word of the grammar that starts there. -/
theorem findClose?_eq_some_iff_groups {text : List Char} {i e : Nat} :
    findClose? text i = some e ↔ ∃ word ∈ groups, Span.Covers ⟨i, e⟩ text word := by
  rw [findClose?_eq_some_iff_balanced]
  constructor
  · rintro ⟨content, after, hcontent, hfrom, rfl⟩
    refine ⟨_, mem_groups_iff.mpr ⟨content, hcontent, rfl⟩, after, ?_, ?_⟩
    · rw [hfrom, List.append_assoc]
      rfl
    · rw [byteLength_braces, Nat.add_assoc]
  · rintro ⟨_, hword, after, hfrom, hstop⟩
    obtain ⟨content, hcontent, rfl⟩ := mem_groups_iff.mp hword
    refine ⟨content, after, hcontent, ?_, ?_⟩
    · rw [hfrom, List.append_assoc]
      rfl
    · rw [byteLength_braces, ← Nat.add_assoc] at hstop
      exact hstop

/-- The scan from a byte recognises the least language of the grammar: it finds an end exactly where
a word of the language ends that starts there, no two words start at one byte, and it finds nothing
exactly when nothing from there on starts with a word. -/
theorem findClose?_recognises (text : List Char) (i : Nat) :
    IsLeast {language | {['{']} * (plain + language)∗ * {['}']} = language} groups ∧
    (∀ e, findClose? text i = some e ↔ ∃ word ∈ groups, Span.Covers ⟨i, e⟩ text word) ∧
    (∀ e f : Nat, (∃ word ∈ groups, Span.Covers ⟨i, e⟩ text word) →
      (∃ word ∈ groups, Span.Covers ⟨i, f⟩ text word) → e = f) ∧
    (findClose? text i = none ↔
      ∀ rest, fromByte? text i = some rest → ∀ word ∈ groups, ¬ word <+: rest) := by
  refine ⟨isLeast_groups, fun e => findClose?_eq_some_iff_groups, ?_, ?_⟩
  · intro e f he hf
    rw [← findClose?_eq_some_iff_groups] at he hf
    exact Option.some.inj (he.symm.trans hf)
  · constructor
    · rintro hnone rest hfrom word hword ⟨after, rfl⟩
      have hclose : findClose? text i = some (i + Text.byteLength word) :=
        findClose?_eq_some_iff_groups.mpr ⟨word, hword, after, hfrom, rfl⟩
      rw [hnone] at hclose
      cases hclose
    · intro hword
      apply Option.eq_none_iff_forall_ne_some.mpr
      intro e hclose
      obtain ⟨word, hmem, after, hfrom, _⟩ := findClose?_eq_some_iff_groups.mp hclose
      exact hword _ hfrom word hmem (List.prefix_append word after)

/-- A group behind a character of two bytes, and a brace that opens none. -/
theorem findClose?_recognises_nested :
    (∃ word ∈ groups, Span.Covers ⟨2, 8⟩ "é{a{|}}".toList word) ∧
    (∀ e, (∃ word ∈ groups, Span.Covers ⟨2, e⟩ "é{a{|}}".toList word) → e = 8) ∧
    ∀ word ∈ groups, ¬ word <+: "\x7ba".toList := by
  obtain ⟨_, hfound, hunique, _⟩ := findClose?_recognises "é{a{|}}".toList 2
  obtain ⟨_, _, _, hnone⟩ := findClose?_recognises "é\x7ba".toList 2
  have hclose : findClose? "é{a{|}}".toList 2 = some 8 := by decide
  have hopen : findClose? "é\x7ba".toList 2 = none := by decide
  have hfrom : fromByte? "é\x7ba".toList 2 = some "\x7ba".toList := by decide
  have hword := (hfound 8).mp hclose
  exact ⟨hword, fun e he => hunique e 8 he hword, hnone.mp hopen _ hfrom⟩

end Brace

end Campaign
