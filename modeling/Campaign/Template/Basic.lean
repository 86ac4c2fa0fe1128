import Campaign.Brace.Split
import Campaign.Text.Bytes

/-!
# Templates

A template is a text read for its groups. A group is a matched pair of braces with what stands
between them; a brace without a partner is an ordinary character, so every text is a template and
rendering the template gives the text back. Inside a group the separators at the group's own level
cut its content into alternatives; elsewhere they are ordinary.

Reading goes from the right. A closing brace suspends what follows it, and the next opening brace
to its left takes the suspended text back as what follows the group. Whatever is still suspended at
the start of the text belongs to closing braces without a partner.

Groups may nest to a limited depth, and a text that nests deeper is refused at its first group past
the limit.
-/

namespace Campaign

open Text Brace

/-- A text as characters and groups. -/
inductive Template where
  | empty
  /-- A character that opens or closes no group. -/
  | char (c : Char) (rest : Template)
  | group (content rest : Template)
  deriving Repr, DecidableEq, Inhabited

namespace Template

/-- The text that a template was read from. -/
def render : Template → List Char
  | empty => []
  | char c rest => c :: rest.render
  | group content rest => '{' :: content.render ++ '}' :: rest.render

/-- The number of bytes of the template's text. -/
def byteLength : Template → Nat
  | empty => 0
  | char c rest => c.utf8Size + rest.byteLength
  | group content rest => content.byteLength + rest.byteLength + 2

def groupCount : Template → Nat
  | empty => 0
  | char _ rest => rest.groupCount
  | group content rest => content.groupCount + rest.groupCount + 1

/-- One template after another. -/
def append : Template → Template → Template
  | empty, t => t
  | char c rest, t => char c (rest.append t)
  | group content rest, t => group content (rest.append t)

/-- A text read from some position to its end: the template that starts there, up to the first
closing brace whose partner lies further left, and what follows each such brace. -/
structure Reading where
  current : Template
  /-- What follows each closing brace that waits for its partner, nearest first. -/
  suspended : List Template

/-- Takes in one more character on the left. -/
def Reading.step (c : Char) (r : Reading) : Reading :=
  if c = '}' then ⟨empty, r.current :: r.suspended⟩
  else if c = '{' then
    match r.suspended with
    | [] => ⟨char c r.current, []⟩
    | after :: suspended => ⟨group r.current after, suspended⟩
  else ⟨char c r.current, r.suspended⟩

/-- The reading of a text to its end. -/
def Reading.ofText (text : List Char) : Reading :=
  text.foldr Reading.step ⟨empty, []⟩

/-- Joins templates, each closing brace that still waits being an ordinary character. -/
def settle (current : Template) : List Template → Template
  | [] => current
  | after :: suspended => current.append (char '}' (settle after suspended))

/-- The template that a text is. -/
def ofText (text : List Char) : Template :=
  let r := Reading.ofText text
  settle r.current r.suspended

/-- The deepest nesting of groups that a text may have. -/
def maxDepth : Nat := 256

/-- The byte position of the first group with more than `allowed` groups around it, counted from
the given position of the template. -/
def tooDeep? (allowed position : Nat) : Template → Option Nat
  | empty => none
  | char c rest => rest.tooDeep? allowed (position + c.utf8Size)
  | group content rest =>
    match allowed with
    | 0 => some position
    | deeper + 1 =>
      match content.tooDeep? deeper (position + 1) with
      | some found => some found
      | none => rest.tooDeep? allowed (position + content.byteLength + 2)

/-- A text nests groups deeper than is allowed. -/
structure NestingError where
  limit : Nat
  /-- The byte position of the first group past the limit. -/
  offset : Nat
  deriving Repr, DecidableEq

def NestingError.message (e : NestingError) : String :=
  s!"groups nest deeper than {e.limit} levels (group at byte {e.offset})"

/-- Reads a text as a template, refusing one that nests too deep. -/
def parse (text : List Char) : Except NestingError Template :=
  let t := ofText text
  match t.tooDeep? maxDepth 0 with
  | some offset => .error ⟨maxDepth, offset⟩
  | none => .ok t

/-- Whether a separator cuts: it does inside a group and nowhere else. -/
def cuts (inside : Bool) (c : Char) : Bool := inside && isSeparator c

/-- The alternatives of a group's content, as templates. -/
def alternatives : Template → Pieces Template
  | empty => .single empty
  | char c rest =>
    if isSeparator c then rest.alternatives.cut empty c
    else rest.alternatives.mapFirst (char c)
  | group content rest => rest.alternatives.mapFirst (group content)

/-- The text of the content's alternatives, as written. -/
def pieces (content : Template) : Pieces (List Char) := content.alternatives.map render

@[simp] theorem render_append (a b : Template) :
    (a.append b).render = a.render ++ b.render := by
  induction a with
  | empty => rfl
  | char c rest ih => simp [append, render, ih]
  | group content rest _ ih => simp [append, render, ih]

/-- The text that a reading still stands for. -/
def Reading.render (r : Reading) : List Char :=
  r.current.render ++ r.suspended.flatMap fun t => '}' :: t.render

/-- A step takes in one character and loses none. -/
theorem Reading.render_step (c : Char) (r : Reading) :
    (Reading.step c r).render = c :: r.render := by
  obtain ⟨current, suspended⟩ := r
  unfold Reading.step
  by_cases hclose : c = '}'
  · simp [hclose, Reading.render, Template.render]
  · by_cases hopen : c = '{'
    · cases suspended <;> simp [hopen, Reading.render, Template.render]
    · simp [hclose, hopen, Reading.render, Template.render]

/-- A reading still stands for the whole text. -/
theorem Reading.render_ofText (text : List Char) : (Reading.ofText text).render = text := by
  induction text with
  | nil => rfl
  | cons c rest ih => rw [Reading.ofText, List.foldr_cons, Reading.render_step]; exact congrArg _ ih

/-- Settling loses no character. -/
theorem render_settle (current : Template) (suspended : List Template) :
    (settle current suspended).render =
      current.render ++ suspended.flatMap fun t => '}' :: t.render := by
  induction suspended generalizing current with
  | nil => simp [settle]
  | cons after suspended ih => simp [settle, render, ih]

/-- A template renders to the text it was read from. -/
theorem render_ofText (text : List Char) : (ofText text).render = text := by
  rw [ofText, render_settle]
  exact Reading.render_ofText text

@[simp] theorem byteLength_eq (t : Template) : t.byteLength = Text.byteLength t.render := by
  induction t with
  | empty => rfl
  | char c rest ih => simp [byteLength, render, ih]
  | group content rest ihc ihr =>
    have hopen : Char.utf8Size '{' = 1 := by decide
    have hclose : Char.utf8Size '}' = 1 := by decide
    simp only [byteLength, render, ihc, ihr, Text.byteLength_append, Text.byteLength_cons,
      List.cons_append, hopen, hclose]
    omega

end Template

end Campaign
