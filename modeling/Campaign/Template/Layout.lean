import Campaign.Template.Basic

/-!
# The layout of a template

A template laid out flat: runs of literal text and groups are numbered nodes with byte spans, and
the template and every alternative are sequences of node numbers. Nodes are numbered from left to
right with a group after everything inside it, so a node's number is its place in the list.

`stretch` lays out a template from a given byte position and a given first number, so what lies to
the left enters only through these two and moving a stretch moves its spans and numbers alike.
-/

namespace Campaign

/-- A range of bytes, from its first to just before its last. -/
structure Span where
  start : Nat
  /-- The position after the last byte. -/
  stop : Nat
  deriving Repr, DecidableEq

/-- The nodes that cover a span, in order. -/
structure Sequence where
  span : Span
  nodes : List Nat
  deriving Repr, DecidableEq

/-- A node of a layout. -/
inductive Node where
  | text (span : Span)
  | group (span : Span) (alternatives : List Sequence)
  deriving Repr, DecidableEq

/-- A template laid out. -/
structure Layout where
  nodes : List Node
  root : Sequence
  deriving Repr, DecidableEq

/-- Part of a layout, from inside one sequence to the end of the group or text around it. -/
structure Stretch where
  nodes : List Node
  /-- The numbers of those that belong to the sequence the part starts in. -/
  children : List Nat
  /-- Where that sequence ends. -/
  stop : Nat
  /-- The sequences after it. -/
  later : List Sequence

/-- The sequences of a stretch, the first of which starts at a given position. -/
def Stretch.sequences (start : Nat) (s : Stretch) : List Sequence :=
  ⟨⟨start, s.stop⟩, s.children⟩ :: s.later

namespace Template

/-- The literal node that ends a run, if the run is not empty. -/
def runNode (run stop : Nat) : List Node :=
  if run < stop then [.text ⟨run, stop⟩] else []

/-- The number of the literal node that ends a run, if there is one. -/
def runChild (run stop number : Nat) : List Nat :=
  if run < stop then [number] else []

/-- Lays out a template that stands at a byte position, its first node taking a given number. The
literal run before it started at `run`, and separators cut if it stands inside a group. -/
def stretch (inside : Bool) (run position number : Nat) : Template → Stretch
  | empty => ⟨runNode run position, runChild run position number, position, []⟩
  | char c rest =>
    let after := position + c.utf8Size
    if cuts inside c then
      let text := runNode run position
      let s := rest.stretch inside after after (number + text.length)
      ⟨text ++ s.nodes, runChild run position number, position, s.sequences after⟩
    else rest.stretch inside run after number
  | group content rest =>
    let text := runNode run position
    let inner := content.stretch true (position + 1) (position + 1) (number + text.length)
    let index := number + text.length + inner.nodes.length
    let stop := position + content.byteLength + 2
    let node := Node.group ⟨position, stop⟩ (inner.sequences (position + 1))
    let s := rest.stretch inside stop stop (index + 1)
    ⟨text ++ inner.nodes ++ node :: s.nodes, runChild run position number ++ index :: s.children,
      s.stop, s.later⟩

def layout (t : Template) : Layout :=
  let s := t.stretch false 0 0 0
  ⟨s.nodes, ⟨⟨0, s.stop⟩, s.children⟩⟩

end Template

def Node.isGroup : Node → Bool
  | text _ => false
  | group _ _ => true

def Layout.groupCount (l : Layout) : Nat := l.nodes.countP Node.isGroup

end Campaign
