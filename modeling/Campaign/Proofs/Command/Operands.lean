import Campaign.Command.Arguments
import Mathlib

/-!
# Leaving an operand out

A command line is read argument by argument: operands and options are told apart as they come, and
which of them an argument is does not depend on the operands before it. So where a command takes one
operand at most, a command line with that operand reads the same without it, but for the operand.
-/

namespace Campaign

/-- An argument that is read as an option: two dashes and a name. -/
structure IsOption (literal : Bool) (argument : String) : Prop where
  not_plain : (literal || !looksLikeOption argument) = false
  ne_dashes : argument ≠ "--"
  startsWith : (!argument.startsWith "--") = false

/-- How arguments are told apart, added to those before, one step for each operand, option or pair of
dashes. -/
inductive Usage.Reads (u : Usage) : Arguments → Bool → List String → Arguments → Prop
  | done (a : Arguments) (literal : Bool) : Reads u a literal [] a
  | operand {a next result : Arguments} {literal : Bool} {argument : String} {rest : List String}
      (hplain : (literal || !looksLikeOption argument) = true)
      (hadd : u.addOperand? a argument = some next) (h : Reads u next literal rest result) :
      Reads u a literal (argument :: rest) result
  | dashes {a result : Arguments} {literal : Bool} {rest : List String}
      (hplain : (literal || !looksLikeOption "--") = false) (h : Reads u a true rest result) :
      Reads u a literal ("--" :: rest) result
  | joined {a next result : Arguments} {literal : Bool} {argument name value : String}
      {rest : List String} (hoption : IsOption literal argument)
      (hparts : optionParts argument = (name, some value))
      (hadd : u.addOption? a name value = some next) (h : Reads u next literal rest result) :
      Reads u a literal (argument :: rest) result
  | apart {a next result : Arguments} {literal : Bool} {argument name value : String}
      {rest : List String} (hoption : IsOption literal argument)
      (hparts : optionParts argument = (name, none)) (hname : name ≠ "help")
      (hvalue : looksLikeOption value = false)
      (hadd : u.addOption? a name value = some next) (h : Reads u next literal rest result) :
      Reads u a literal (argument :: value :: rest) result

section Reads

variable {u : Usage} {a result : Arguments} {literal : Bool} {arguments : List String}

/-- Arguments that can be told apart are told apart in such steps. -/
theorem Usage.reads_of_scan? (h : u.scan? a literal arguments = some (.arguments result)) :
    u.Reads a literal arguments result := by
  fun_induction Usage.scan? u a literal arguments with
  | case1 =>
      cases h
      exact .done _ _
  | case2 _ _ _ _ hplain _ hadd ih => exact .operand hplain hadd (ih h)
  | case4 _ _ _ hplain ih => exact .dashes (Bool.eq_false_iff.mpr hplain) (ih h)
  | case8 _ _ _ _ hplain hdashes hstarts _ _ hparts _ hadd ih =>
      exact .joined ⟨Bool.eq_false_iff.mpr hplain, hdashes, Bool.eq_false_iff.mpr hstarts⟩ hparts
        hadd (ih h)
  | case12 _ _ _ hplain hdashes hstarts _ hname hparts _ _ hvalue _ hadd ih =>
      exact .apart ⟨Bool.eq_false_iff.mpr hplain, hdashes, Bool.eq_false_iff.mpr hstarts⟩ hparts
        hname (Bool.eq_false_iff.mpr hvalue) hadd (ih h)
  | case3 | case5 | case6 | case7 | case9 | case10 | case11 | case13 => cases h

/-- Conversely, such steps tell arguments apart. -/
theorem Usage.Reads.scan? (h : u.Reads a literal arguments result) :
    u.scan? a literal arguments = some (.arguments result) := by
  induction h with
  | done a literal => rfl
  | operand hplain hadd _ ih =>
      rw [Usage.scan?.eq_def]
      simp [hplain, hadd, ih]
  | dashes hplain _ ih =>
      rw [Usage.scan?.eq_def]
      simp [hplain, ih]
  | joined hoption hparts hadd _ ih =>
      rw [Usage.scan?.eq_def]
      simp [hoption.not_plain, hoption.ne_dashes, hoption.startsWith, hparts, hadd, ih]
  | apart hoption hparts hname hvalue hadd _ ih =>
      rw [Usage.scan?.eq_def]
      simp [hoption.not_plain, hoption.ne_dashes, hoption.startsWith, hparts, hvalue, hadd, ih]

/-- An operand is added at the end as long as there is room. -/
theorem Usage.addOperand?_eq_some {operand : String} {next : Arguments} :
    u.addOperand? a operand = some next ↔
      (∀ most ∈ u.operands, a.operands.length < most) ∧
        next = ⟨a.options, a.operands ++ [operand]⟩ := by
  unfold Usage.addOperand?
  cases u.operands with
  | none => simp [eq_comm]
  | some most =>
      by_cases hfull : most ≤ a.operands.length
      · simp [hfull, Nat.not_lt.mpr hfull]
      · simp [hfull, Nat.lt_of_not_le hfull, eq_comm]

/-- Adding an option leaves the operands and does not depend on them. -/
theorem Usage.addOption?_eq_some {name value : String} {next : Arguments} :
    u.addOption? a name value = some next ↔
      ((u.options.lookup name).any (· value) ∧ (a.options.lookup name).isNone) ∧
        next = ⟨a.options ++ [(name, value)], a.operands⟩ := by
  unfold Usage.addOption?
  cases u.options.lookup name with
  | none => simp
  | some accepts =>
      cases a.options.lookup name <;> cases haccepts : accepts value <;>
        simp [haccepts, eq_comm (b := next)]

/-- Which operands arguments give does not depend on the operands before them, and fewer of these
leave room for as many. -/
theorem Usage.Reads.of_fewer (h : u.Reads a literal arguments result) {b : Arguments}
    (hoptions : b.options = a.options) (hlength : b.operands.length ≤ a.operands.length) :
    ∃ given, result.operands = a.operands ++ given ∧
      u.Reads b literal arguments ⟨result.options, b.operands ++ given⟩ := by
  induction h generalizing b with
  | done a literal =>
      refine ⟨[], by simp, ?_⟩
      rw [← hoptions, List.append_nil]
      exact .done b literal
  | @operand a next result literal argument rest hplain hadd _ ih =>
      obtain ⟨hroom, rfl⟩ := Usage.addOperand?_eq_some.mp hadd
      -- An operand fits if there is room behind those before it, and there are no more than were.
      have hadd' : u.addOperand? b argument = some ⟨b.options, b.operands ++ [argument]⟩ :=
        Usage.addOperand?_eq_some.mpr
          ⟨fun most hmost => Nat.lt_of_le_of_lt hlength (hroom most hmost), rfl⟩
      obtain ⟨given, hgiven, hreads⟩ :=
        ih (b := ⟨b.options, b.operands ++ [argument]⟩) hoptions (by simpa using hlength)
      refine ⟨argument :: given, by simpa using hgiven, .operand hplain hadd' ?_⟩
      simpa using hreads
  | dashes hplain _ ih =>
      obtain ⟨given, hgiven, hreads⟩ := ih hoptions hlength
      exact ⟨given, hgiven, .dashes hplain hreads⟩
  | joined hoption hparts hadd _ ih =>
      obtain ⟨hfits, rfl⟩ := Usage.addOption?_eq_some.mp hadd
      rw [← hoptions] at hfits ih
      obtain ⟨given, hgiven, hreads⟩ := ih (b := ⟨_, b.operands⟩) rfl hlength
      exact ⟨given, hgiven,
        .joined hoption hparts (Usage.addOption?_eq_some.mpr ⟨hfits, rfl⟩) hreads⟩
  | apart hoption hparts hname hvalue hadd _ ih =>
      obtain ⟨hfits, rfl⟩ := Usage.addOption?_eq_some.mp hadd
      rw [← hoptions] at hfits ih
      obtain ⟨given, hgiven, hreads⟩ := ih (b := ⟨_, b.operands⟩) rfl hlength
      exact ⟨given, hgiven,
        .apart hoption hparts hname hvalue (Usage.addOption?_eq_some.mpr ⟨hfits, rfl⟩) hreads⟩

/-- Arguments that give an operand stand around it, and without it they give the rest. -/
theorem Usage.Reads.leave_out (h : u.Reads a literal arguments result)
    (earlier : List String) {later : List String} {operand : String}
    (hgiven : result.operands = a.operands ++ (earlier ++ operand :: later)) :
    ∃ before after, arguments = before ++ operand :: after ∧
      u.Reads a literal (before ++ after) ⟨result.options, a.operands ++ (earlier ++ later)⟩ := by
  induction h generalizing earlier with
  | done a literal => simp at hgiven
  | @operand a next result literal argument rest hplain hadd hrest ih =>
      -- This is the operand in question, or one of those before it.
      have hnext := (Usage.addOperand?_eq_some.mp hadd).2
      cases earlier with
      | nil =>
          obtain ⟨given, hall, hreads⟩ :=
            hrest.of_fewer (b := a) (by rw [hnext]) (by simp [hnext])
          rw [hnext, hgiven, List.append_assoc] at hall
          obtain ⟨rfl, rfl⟩ := List.cons.inj (List.append_cancel_left hall)
          exact ⟨[], rest, rfl, hreads⟩
      | cons first earlier =>
          obtain ⟨given, hall, -⟩ := hrest.of_fewer rfl (Nat.le_refl _)
          rw [hnext, hgiven, List.append_assoc] at hall
          obtain ⟨rfl, -⟩ := List.cons.inj (List.append_cancel_left hall)
          obtain ⟨before, after, rfl, hreads⟩ := ih earlier (by simpa [hnext] using hgiven)
          refine ⟨first :: before, after, rfl, .operand hplain hadd ?_⟩
          simpa [hnext] using hreads
  | dashes hplain _ ih =>
      obtain ⟨before, after, rfl, hreads⟩ := ih earlier hgiven
      exact ⟨"--" :: before, after, rfl, .dashes hplain hreads⟩
  | @joined _ _ _ _ argument _ _ _ hoption hparts hadd _ ih =>
      obtain ⟨-, rfl⟩ := Usage.addOption?_eq_some.mp hadd
      obtain ⟨before, after, rfl, hreads⟩ := ih earlier hgiven
      exact ⟨argument :: before, after, rfl, .joined hoption hparts hadd hreads⟩
  | @apart _ _ _ _ argument _ value _ hoption hparts hname hvalue hadd _ ih =>
      obtain ⟨-, rfl⟩ := Usage.addOption?_eq_some.mp hadd
      obtain ⟨before, after, rfl, hreads⟩ := ih earlier hgiven
      exact ⟨argument :: value :: before, after, rfl,
        .apart hoption hparts hname hvalue hadd hreads⟩

theorem Usage.Reads.length_le (h : u.Reads a literal arguments result) {most : Nat}
    (hmost : u.operands = some most) (hlength : a.operands.length ≤ most) :
    result.operands.length ≤ most := by
  induction h with
  | done => exact hlength
  | operand _ hadd _ ih =>
      obtain ⟨hroom, rfl⟩ := Usage.addOperand?_eq_some.mp hadd
      exact ih (by simpa using Nat.succ_le_of_lt (hroom most hmost))
  | dashes _ _ ih => exact ih hlength
  | joined _ _ hadd _ ih | apart _ _ _ _ hadd _ ih =>
      obtain ⟨-, rfl⟩ := Usage.addOption?_eq_some.mp hadd
      exact ih hlength

end Reads

/-- The template given to a command that leaves nothing to chance. -/
def Command.template? : Command → Option String
  | count template | segment template | unfold template => template
  | expand template _ => template
  | sample template seed _ => if seed.isSome then template else none
  | fold _ | risk _ | fleet _ _ => none

/-- The command that reads its template from the input instead. -/
def Command.reading : Command → Command
  | count _ => count none
  | segment _ => segment none
  | unfold _ => unfold none
  | expand _ limit => expand none limit
  | sample _ seed times => sample none seed times
  | c => c

/-- A template is the one operand of its command, and without it the command reads the input. -/
theorem formOf?_reading {name : String} {form : Form} {a : Arguments} {c : Command} {text : String}
    (hform : formOf? name = some form) (hbuild : form.build? a = some c)
    (htemplate : c.template? = some text) :
    form.usage.operands = some 1 ∧ a.operands.head? = some text ∧
      form.build? ⟨a.options, []⟩ = some c.reading := by
  unfold formOf? at hform
  split at hform
  -- Only some of the forms make a command that has a template.
  all_goals cases hform
  iterate 3
    next =>
      cases hbuild
      exact ⟨rfl, htemplate, rfl⟩
  next =>
    cases hbuild
    exact ⟨rfl, (Option.ite_none_right_eq_some.mp htemplate).2, rfl⟩
  next =>
    cases hbuild
    exact ⟨rfl, htemplate, rfl⟩
  next =>
    obtain ⟨-, ⟨⟩⟩ := Option.ite_none_left_eq_some.mp hbuild
    cases htemplate
  next =>
    obtain ⟨_, -, hbuild⟩ := Option.bind_eq_some_iff.mp hbuild
    obtain ⟨_, -, ⟨⟩⟩ := Option.bind_eq_some_iff.mp hbuild
    cases htemplate
  next =>
    obtain ⟨_, -, hbuild⟩ := Option.bind_eq_some_iff.mp hbuild
    split at hbuild <;> cases hbuild <;> cases htemplate

/-- A word that names a command is not one that the program takes itself. -/
theorem ne_of_formOf? {name : String} {form : Form} (hform : formOf? name = some form) :
    (name = "--version" || name.startsWith "-V") = false ∧
      (name = "--help" || name.startsWith "-h") = false ∧ name ≠ "help" := by
  unfold formOf? at hform
  split at hform
  iterate 8
    next => exact ⟨by cbv, by cbv, by decide⟩
  next => cases hform

/-- A command line asks for a command if it begins with its name, the rest can be told apart and
what is required is there. -/
theorem Request.ofArguments?_eq_command {name : String} {rest : List String} {c : Command} :
    ofArguments? (name :: rest) = some (.command c) ↔ ∃ form a, formOf? name = some form ∧
      form.usage.scan? ⟨[], []⟩ false rest = some (.arguments a) ∧ form.build? a = some c := by
  rw [ofArguments?]
  constructor
  · intro h
    split at h
    next => cases h
    split at h
    next => cases h
    split at h
    next => split at h <;> cases h
    split at h
    next => cases h
    next form hform =>
      split at h
      next => cases h
      next => cases h
      next a hscan =>
        obtain ⟨c, hbuild, ⟨⟩⟩ := Option.map_eq_some_iff.mp h
        exact ⟨form, a, hform, hscan, hbuild⟩
  · rintro ⟨form, a, hform, hscan, hbuild⟩
    obtain ⟨hversion, hhelp, hne⟩ := ne_of_formOf? hform
    simp only [hversion, hhelp, hne, hform, hscan, hbuild, Bool.false_eq_true, if_false,
      Option.map_some]

/-- A command line with a template stands around it, and without it the command reads the input. -/
theorem Request.ofArguments?_reading {arguments : List String} {c : Command} {text : String}
    (h : ofArguments? arguments = some (.command c)) (htemplate : c.template? = some text) :
    ∃ before after, arguments = before ++ text :: after ∧
      ofArguments? (before ++ after) = some (.command c.reading) := by
  cases arguments with
  | nil => cases h
  | cons name rest =>
      obtain ⟨form, a, hform, hscan, hbuild⟩ := ofArguments?_eq_command.mp h
      obtain ⟨hmost, hhead, hreading⟩ := formOf?_reading hform hbuild htemplate
      have hreads := Usage.reads_of_scan? hscan
      -- The template is the only operand.
      have honly : a.operands = [text] := by
        have hlength := hreads.length_le hmost (Nat.zero_le 1)
        obtain ⟨others, hothers⟩ := List.head?_eq_some_iff.mp hhead
        rw [hothers, List.length_cons] at hlength
        rw [hothers, List.length_eq_zero_iff.mp (Nat.le_zero.mp (Nat.le_of_succ_le_succ hlength))]
      obtain ⟨before, after, rfl, hwithout⟩ := hreads.leave_out [] honly
      exact ⟨name :: before, after, rfl,
        ofArguments?_eq_command.mpr ⟨form, _, hform, hwithout.scan?, hreading⟩⟩

end Campaign
