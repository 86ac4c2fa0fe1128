import Campaign.Proofs.Template.Sections
import Campaign.Template.Expansion

/-!
# Bounded enumeration

The plain enumeration of a template crosses what its parts expand to, a group giving what its
alternatives expand to one after another. The bounded one cuts at every group and at every product.
Every factor is non-empty, so what a cut drops could only have come after the limit: the bounded
enumeration is an initial part of the plain one.
-/

namespace Campaign

/-- Every text of one list followed by every text of another, the first list changing last. -/
def cross (as bs : List (List Char)) : List (List Char) :=
  as.flatMap fun a => bs.map (a ++ ·)

theorem cross_cons (a : List Char) (as bs : List (List Char)) :
    cross (a :: as) bs = bs.map (a ++ ·) ++ cross as bs := rfl

theorem cross_singleton (a : List Char) (bs : List (List Char)) :
    cross [a] bs = bs.map (a ++ ·) := by
  simp [cross]

theorem cross_ne_nil {as bs : List (List Char)} (has : as ≠ []) (hbs : bs ≠ []) :
    cross as bs ≠ [] := by
  obtain ⟨a, as, rfl⟩ := List.exists_cons_of_ne_nil has
  simp [cross_cons, hbs]

/-- A product up to a limit is the initial part of the product. -/
theorem crossUpTo_eq_take (limit : Nat) (as bs : List (List Char)) :
    crossUpTo limit as bs = (cross as bs).take limit := by
  induction as generalizing limit with
  | nil => simp [crossUpTo, cross]
  | cons a as ih =>
      rw [crossUpTo, cross_cons, List.take_append, ← List.map_take, List.length_map]
      simp only [List.length_map]
      split
      next hshort =>
        -- A row shorter than the limit is a whole row.
        have hlength : (bs.take limit).length = bs.length := by
          rw [List.length_take] at hshort ⊢
          omega
        rw [ih, hlength]
      next hfull =>
        have hzero : limit - bs.length = 0 := by
          rw [List.length_take] at hfull
          omega
        rw [hzero, List.take_zero, List.append_nil]

/-- Lists chained up to a limit are the initial part of the chain. -/
theorem chainUpTo_eq_take (limit : Nat) (lists : List (List (List Char))) :
    chainUpTo limit lists = lists.flatten.take limit := by
  induction lists generalizing limit with
  | nil => simp [chainUpTo]
  | cons list lists ih =>
      rw [chainUpTo, ih, List.flatten_cons, List.take_append]
      congr 2
      rw [List.length_take]
      omega

/-- Cutting the second factor of a product drops nothing from its first `limit` texts. -/
theorem take_cross_take_right (limit : Nat) (as bs : List (List Char)) :
    (cross as (bs.take limit)).take limit = (cross as bs).take limit := by
  induction as with
  | nil => rfl
  | cons a as ih =>
      rw [cross_cons, cross_cons, List.take_append, List.take_append, ← List.map_take,
        ← List.map_take, List.take_take, Nat.min_self, List.length_map, List.length_map,
        List.length_take]
      congr 1
      by_cases hle : bs.length ≤ limit
      · rw [List.take_of_length_le hle, Nat.min_eq_right hle]
      · have hnow : limit - min limit bs.length = 0 := by omega
        have hthen : limit - bs.length = 0 := by omega
        rw [hnow, hthen, List.take_zero, List.take_zero]

/-- Cutting the first factor of a product drops nothing from its first `limit` texts, since every
text of it starts at least one text of the product. -/
theorem take_cross_take_left {kept limit : Nat} (hle : limit ≤ kept) (as : List (List Char))
    {bs : List (List Char)} (hbs : bs ≠ []) :
    (cross (as.take kept) bs).take limit = (cross as bs).take limit := by
  induction as generalizing kept limit with
  | nil => simp
  | cons a as ih =>
      cases kept with
      | zero =>
          have hzero : limit = 0 := by omega
          rw [hzero, List.take_zero, List.take_zero]
      | succ kept =>
          -- The first row uses up at least one of the texts that are kept.
          have hpos : 0 < bs.length := List.length_pos_iff.mpr hbs
          rw [List.take_succ_cons, cross_cons, cross_cons, List.take_append, List.take_append,
            List.length_map]
          congr 1
          exact ih (by omega)

/-- Cutting each list to at least the limit drops nothing from the initial part of the chain. -/
theorem take_flatten_map_take {kept limit : Nat} (hle : limit ≤ kept)
    (lists : List (List (List Char))) :
    (lists.map (List.take kept)).flatten.take limit = lists.flatten.take limit := by
  induction lists generalizing limit with
  | nil => rfl
  | cons list lists ih =>
      rw [List.map_cons, List.flatten_cons, List.flatten_cons, List.take_append, List.take_append,
        List.take_take, Nat.min_eq_left hle, List.length_take]
      congr 1
      by_cases hlist : list.length ≤ kept
      · rw [Nat.min_eq_right hlist, ih (by omega)]
      · have hnow : limit - min kept list.length = 0 := by omega
        have hthen : limit - list.length = 0 := by omega
        rw [hnow, hthen, List.take_zero, List.take_zero]

namespace Template

/-- All expansions of a template. Its characters and groups are the factors of a product whose left
factor changes last, and a group stands for the expansions of its alternatives in their order. -/
def allExpansions : Template → List (List Char)
  | empty => [[]]
  | char c rest => cross [[c]] rest.allExpansions
  | group content rest =>
    cross (content.alternatives.toList.attach.flatMap fun ⟨a, _⟩ => a.allExpansions)
      rest.allExpansions
termination_by t => sizeOf t
decreasing_by
  · decreasing_tactic
  · next ha =>
      have hle := (part_of_mem_alternatives ha).sizeOf_le
      rw [group.sizeOf_spec]
      omega
  · decreasing_tactic

theorem allExpansions_empty : empty.allExpansions = [[]] := by rw [allExpansions]

theorem allExpansions_char (c : Char) (rest : Template) :
    (char c rest).allExpansions = rest.allExpansions.map (c :: ·) := by
  rw [allExpansions, cross_singleton]
  rfl

theorem allExpansions_group (content rest : Template) :
    (group content rest).allExpansions =
      cross (content.alternatives.toList.map allExpansions).flatten rest.allExpansions := by
  rw [allExpansions, List.flatMap_def, List.attach_map_val]

/-- Every template expands to something. -/
theorem allExpansions_ne_nil (t : Template) : t.allExpansions ≠ [] := by
  induction t using allExpansions.induct with
  | case1 => simp [allExpansions_empty]
  | case2 c rest ih => simp [allExpansions_char, ih]
  | case3 content rest hcontent hrest =>
      have hfirst := content.alternatives.first_mem_toList
      rw [allExpansions_group]
      refine cross_ne_nil (List.flatten_ne_nil_iff.mpr ?_) hrest
      exact ⟨_, List.mem_map_of_mem hfirst, hcontent _ hfirst⟩

/-- The choices of a group, cut to the limit, are the first ones among all its choices. -/
theorem chainUpTo_map_take (limit : Nat) (alternatives : Pieces Template) :
    chainUpTo limit (alternatives.map fun a => a.allExpansions.take limit).toList =
      (alternatives.toList.map allExpansions).flatten.take limit := by
  have hmap : (alternatives.map fun a => a.allExpansions.take limit).toList =
      (alternatives.toList.map allExpansions).map (List.take limit) := by
    rw [Pieces.toList_map, List.map_map]
    rfl
  rw [chainUpTo_eq_take, hmap, take_flatten_map_take (Nat.le_refl limit)]

/-- A bounded enumeration of each section is the initial part of its plain enumeration. -/
theorem pieceExpansions_eq {limit : Nat} (hlimit : 0 < limit) (inside : Bool) (t : Template) :
    t.pieceExpansions inside limit =
      (t.sections inside).map fun a => a.allExpansions.take limit := by
  have hone : ([[]] : List (List Char)).take limit = [[]] :=
    List.take_of_length_le hlimit
  induction t generalizing inside with
  | empty => rw [sections_empty, pieceExpansions, Pieces.map_single, allExpansions_empty, hone]
  | char c rest ih =>
      rw [sections_char, pieceExpansions, ih]
      split
      next => rw [Pieces.map_cut, allExpansions_empty, hone]
      next =>
        symm
        apply Pieces.map_mapFirst
        intro a
        rw [allExpansions_char, List.map_take]
  | group content rest ihcontent ihrest =>
      rw [sections_group, pieceExpansions, ihrest, ihcontent, sections_true, chainUpTo_map_take]
      symm
      apply Pieces.map_mapFirst
      intro a
      -- The first part of a product needs no more than the first part of each factor.
      rw [allExpansions_group, crossUpTo_eq_take, take_cross_take_right,
        take_cross_take_left (Nat.le_refl limit) _ a.allExpansions_ne_nil]

/-- A bounded enumeration of a template is the initial part of its plain enumeration. -/
theorem expansions_eq_take (limit : Nat) (t : Template) :
    t.expansions limit = t.allExpansions.take limit := by
  rw [expansions]
  cases limit with
  | zero => rw [List.take_zero, List.take_zero]
  | succ limit =>
      rw [pieceExpansions_eq (Nat.succ_pos limit), sections_false, Pieces.map_single, Pieces.single,
        List.take_take, Nat.min_self]

end Template

/-- All expansions of a text. A text that nests too deep expands to itself. -/
def enumeration (text : List Char) : List (List Char) :=
  match Template.parse text with
  | .ok t => t.allExpansions
  | .error _ => [text]

/-- The bounded enumeration of a text is the initial part of its plain enumeration, and so of every
enumeration with a greater bound. -/
theorem expand_eq_take_enumeration (limit : Nat) (text : List Char) :
    expand limit text = (enumeration text).take limit ∧
      ∀ more, expand limit text <+: expand (limit + more) text := by
  have htake : ∀ limit, expand limit text = (enumeration text).take limit := by
    intro limit
    cases hparse : Template.parse text with
    | ok t =>
        rw [expand, enumeration, hparse]
        exact t.expansions_eq_take limit
    | error e => rw [expand, enumeration, hparse]
  refine ⟨htake limit, ?_⟩
  intro more
  rw [htake, htake]
  exact List.take_prefix_take_left (Nat.le_add_right limit more)

end Campaign
