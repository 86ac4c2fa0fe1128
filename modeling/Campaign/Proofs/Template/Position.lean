import Campaign.Template.Basic

/-!
# Where a template stands in a text

A template stands at a byte position of a text when the text goes on with it there. What it is made
of then stands at the positions that a traversal from left to right computes.
-/

namespace Campaign.Template

open Text

/-- A template is what a text goes on with at a byte position. -/
def StandsAt (t : Template) (text : List Char) (position : Nat) : Prop :=
  ∃ after, fromByte? text position = some (t.render ++ after)

/-- A template stands at the start of its own text. -/
theorem standsAt_render (t : Template) : t.StandsAt t.render 0 :=
  ⟨[], by rw [fromByte?_zero, List.append_nil]⟩

namespace StandsAt

variable {c : Char} {content rest : Template} {text : List Char} {position : Nat}

theorem charAt?_char (h : (char c rest).StandsAt text position) :
    charAt? text position = some c := by
  obtain ⟨after, hfrom⟩ := h
  exact charAt?_eq_some_iff.mpr ⟨_, hfrom⟩

theorem rest_char (h : (char c rest).StandsAt text position) :
    rest.StandsAt text (position + c.utf8Size) := by
  obtain ⟨after, hfrom⟩ := h
  exact ⟨after, fromByte?_add (a := [c]) hfrom⟩

theorem charAt?_open (h : (group content rest).StandsAt text position) :
    charAt? text position = some '{' := by
  obtain ⟨after, hfrom⟩ := h
  exact charAt?_eq_some_iff.mpr ⟨_, hfrom⟩

/-- The content of a group stands one byte behind its opening brace. -/
theorem content_group (h : (group content rest).StandsAt text position) :
    content.StandsAt text (position + 1) := by
  obtain ⟨after, hfrom⟩ := h
  refine ⟨'}' :: rest.render ++ after, fromByte?_add (a := ['{']) ?_⟩
  simpa [render] using hfrom

/-- The closing brace of a group stands behind its content, with the rest after it. -/
theorem fromByte?_close (h : (group content rest).StandsAt text position) :
    ∃ after, fromByte? text (position + content.byteLength + 1) =
      some ('}' :: rest.render ++ after) := by
  obtain ⟨after, hfrom⟩ := h
  have hlength : position + content.byteLength + 1 =
      position + Text.byteLength ('{' :: content.render) := by
    rw [byteLength_eq, byteLength_cons, show Char.utf8Size '{' = 1 from rfl]
    omega
  refine ⟨after, ?_⟩
  rw [hlength]
  refine fromByte?_add ?_
  simpa [render] using hfrom

theorem charAt?_close (h : (group content rest).StandsAt text position) :
    charAt? text (position + content.byteLength + 1) = some '}' := by
  obtain ⟨after, hfrom⟩ := h.fromByte?_close
  exact charAt?_eq_some_iff.mpr ⟨_, hfrom⟩

theorem rest_group (h : (group content rest).StandsAt text position) :
    rest.StandsAt text (position + content.byteLength + 2) := by
  obtain ⟨after, hfrom⟩ := h.fromByte?_close
  exact ⟨after, fromByte?_add (a := ['}']) hfrom⟩

end StandsAt

end Campaign.Template
