import Campaign.Template.Basic

/-!
# Expansions

The texts a template expands to, in the order of its alternatives: of two groups the left one
changes last. A limit cuts the list off, and no more than the limit is ever built: each group and
each product of two lists is cut as soon as it has enough.
-/

namespace Campaign

/-- The first `limit` concatenations of a text of one list with a text of another, the first list
changing last. -/
def crossUpTo (limit : Nat) : List (List Char) → List (List Char) → List (List Char)
  | [], _ => []
  | a :: as, bs =>
    let row := (bs.take limit).map (a ++ ·)
    if row.length < limit then row ++ crossUpTo (limit - row.length) as bs else row

/-- The first `limit` texts of several lists, one list after another. -/
def chainUpTo (limit : Nat) : List (List (List Char)) → List (List Char)
  | [] => []
  | list :: lists =>
    let start := list.take limit
    start ++ chainUpTo (limit - start.length) lists

namespace Template

/-- The first expansions of each piece of a template, at most `limit` of each, which has several
pieces only inside a group. -/
def pieceExpansions (inside : Bool) (limit : Nat) : Template → Pieces (List (List Char))
  | empty => .single [[]]
  | char c rest =>
    let right := rest.pieceExpansions inside limit
    if cuts inside c then right.cut [[]] c else right.mapFirst (List.map (c :: ·))
  | group content rest =>
    let choices := chainUpTo limit (content.pieceExpansions true limit).toList
    (rest.pieceExpansions inside limit).mapFirst (crossUpTo limit choices)

/-- The first `limit` expansions of a template. -/
def expansions (limit : Nat) (t : Template) : List (List Char) :=
  (t.pieceExpansions false limit).first.take limit

end Template

/-- The first `limit` expansions of a text. A text that nests too deep expands to itself. -/
def expand (limit : Nat) (text : List Char) : List (List Char) :=
  match Template.parse text with
  | .ok t => t.expansions limit
  | .error _ => [text].take limit

end Campaign
