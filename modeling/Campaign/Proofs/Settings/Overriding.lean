import Campaign.Proofs.Number.Value
import Campaign.Settings.Environment
import Mathlib.Data.List.Forall2

/-!
# The last valid value

Environments are put in the place of settings one after the other. Each setting has a variable of its
own and a notion of its own of what a valid value is, and a step either takes the valid value of its
variable or leaves it as it was. So behind any row of environments a setting is what the last valid
value of its variable says, whatever the other variables are.
-/

namespace Campaign

section Validity

/-- A delay is a double that stands for a real number which is not negative. Either zero does. -/
def IsDelay (x : Float) : Prop := ∃ r : ℝ, 0 ≤ r ∧ Rounding.value? x = some (r : EReal)

/-- The delay that a text is the numeral of. -/
structure NamesDelay (text : String) (x : Float) : Prop where
  parses : readFloat? text.toList = some x
  isDelay : IsDelay x

/-- The timing that a word is a name of, blanks at its edges and the case of ASCII letters aside. -/
def NamesTiming (word : String) (timing : Timing) : Prop :=
  let name := String.ofList ((Text.trim word.toList).map Char.toLower)
  match timing with
  | .fixed => name = "fixed"
  | .auto => name = "auto" ∨ name = "automatic"

/-- A delay is a double that is finite and not below zero; negative zero is one. -/
theorem isDelay_iff {x : Float} : IsDelay x ↔ x.isFinite ∧ 0.0 ≤ x := by
  constructor
  · rintro ⟨r, hr, hx⟩
    refine ⟨Rounding.isFinite_iff.mpr ⟨r, hx⟩, ?_⟩
    exact (Rounding.le_iff_value? Rounding.value?_zero hx).mpr (EReal.coe_nonneg.mpr hr)
  · rintro ⟨hfinite, hle⟩
    exact Rounding.exists_real_of_nonneg hle hfinite

/-- The delay that a text is read as, if it is a valid one. -/
def readDelay? (text : String) : Option Float := do
  let x ← readFloat? text.toList
  if x.isFinite && 0.0 ≤ x then some x else none

/-- A text is read as the delay that it is the numeral of, and as none otherwise. -/
theorem readDelay?_eq_some_iff (text : String) (x : Float) :
    readDelay? text = some x ↔ NamesDelay text x := by
  have hiff : readDelay? text = some x ↔
      ∃ y, readFloat? text.toList = some y ∧ IsDelay y ∧ y = x := by
    simp only [readDelay?, Option.bind_eq_bind, Option.bind_eq_some_iff, Option.ite_none_right_eq_some,
      Bool.and_eq_true, decide_eq_true_iff, isDelay_iff, Option.some.injEq]
  rw [hiff]
  constructor
  · rintro ⟨y, hread, hdelay, rfl⟩
    exact ⟨hread, hdelay⟩
  · rintro ⟨hread, hdelay⟩
    exact ⟨x, hread, hdelay, rfl⟩

theorem ofWord_eq_some_iff (word : String) (timing : Timing) :
    (Timing.ofWord word).toOption = some timing ↔ NamesTiming word timing := by
  unfold Timing.ofWord NamesTiming
  dsimp only
  generalize String.ofList _ = name
  split
  next hfixed =>
    rw [hfixed]
    cases timing <;> simp [Except.toOption]
  next hfixed =>
    split
    next hauto =>
      rw [Bool.or_eq_true, decide_eq_true_iff, decide_eq_true_iff] at hauto
      cases timing <;> simp [Except.toOption, hfixed, hauto]
    next hauto =>
      rw [Bool.or_eq_true, decide_eq_true_iff, decide_eq_true_iff] at hauto
      cases timing <;> simp [Except.toOption, hfixed, hauto]

end Validity

section Taken

variable {α : Type} (name : String) (read : String → Option α) (valid : String → α → Prop)

/-- An environment sets a variable to a text that stands for a value. -/
def Environment.Gives (env : Environment) (value : α) : Prop :=
  ∃ text, env name = some text ∧ valid text value

/-- What a setting is behind a row of environments: the value that the last valid text of its
variable stands for, or what it was before when there is none. -/
def LastGiven (envs : List Environment) (before result : α) : Prop :=
  (∃ earlier env later, envs = earlier ++ env :: later ∧ env.Gives name valid result ∧
    ∀ other ∈ later, ∀ v, ¬ other.Gives name valid v) ∨
  (result = before ∧ ∀ env ∈ envs, ∀ v, ¬ env.Gives name valid v)

/-- A setting behind a row of environments, each of which gives it what its variable is read as. -/
def taken (envs : List Environment) (value : α) : α :=
  envs.foldl (fun value env => ((env name).bind read).getD value) value

variable {envs others : List Environment} {value : α}

theorem taken_cons (env : Environment) : taken name read (env :: envs) value =
    taken name read envs (((env name).bind read).getD value) := rfl

/-- One environment after the other, the last valid text of a variable is what counts. -/
theorem taken_lastGiven (hvalid : ∀ text v, read text = some v ↔ valid text v) :
    LastGiven name valid envs value (taken name read envs value) := by
  have hgives : ∀ (env : Environment) (v : α),
      env.Gives name valid v ↔ (env name).bind read = some v := by
    intro env v
    simp only [Environment.Gives, Option.bind_eq_some_iff, hvalid]
  induction envs generalizing value with
  | nil => exact .inr ⟨rfl, List.forall_mem_nil _⟩
  | cons env envs ih =>
      rw [taken_cons]
      rcases @ih (((env name).bind read).getD value) with
        ⟨earlier, other, later, rfl, hother, hlater⟩ | ⟨hresult, hnone⟩
      · exact .inl ⟨env :: earlier, other, later, rfl, hother, hlater⟩
      · rw [hresult]
        cases hread : (env name).bind read with
        | none =>
            refine .inr ⟨rfl, List.forall_mem_cons.mpr ⟨?_, hnone⟩⟩
            intro v hv
            rw [hgives, hread] at hv
            cases hv
        | some v => exact .inl ⟨[], env, envs, rfl, (hgives env v).mpr hread, hnone⟩

/-- The other variables do not matter for a setting. -/
theorem taken_congr {other : String} (hne : other ≠ name)
    (h : List.Forall₂ (fun env env' : Environment => ∀ n, n ≠ other → env n = env' n) envs others) :
    taken name read envs value = taken name read others value := by
  induction h generalizing value with
  | nil => rfl
  | cons hagree _ ih => rw [taken_cons, taken_cons, hagree name hne.symm, ih]

/-- What holds of a setting and of every value that can be read holds of the setting behind any row
of environments. -/
theorem taken_of_forall {p : α → Prop} (hvalue : p value)
    (hread : ∀ text v, read text = some v → p v) : p (taken name read envs value) := by
  induction envs generalizing value with
  | nil => exact hvalue
  | cons env envs ih =>
      rw [taken_cons]
      apply ih
      cases htext : (env name).bind read with
      | none => exact hvalue
      | some v =>
          obtain ⟨text, -, hv⟩ := Option.bind_eq_some_iff.mp htext
          exact hread text v hv

end Taken

/-- The variables for delays and the settings that they are for. -/
def delayVariables : List (String × (LaunchSettings → Float)) :=
  [("SPINWHEEL_MIN_DELAY_SECS", LaunchSettings.shortestDelay),
    ("SPINWHEEL_MAX_DELAY_SECS", LaunchSettings.longestDelay),
    ("SPINWHEEL_AUTO_DELAY_SECS", LaunchSettings.autoDelay)]

section Run

variable (s : Settings) (envs : List Environment)

/-- The settings behind a row of environments that are put in their place one after the other. -/
def Settings.overrideAll : Settings := envs.foldl Settings.override s

/-- What holds of a setting at one step holds of it behind all of them. -/
theorem overrideAll_eq_taken {α : Type} (setting : Settings → α) {name : String}
    {read : String → Option α} (hstep : ∀ (s : Settings) (env : Environment),
      setting (s.override env) = ((env name).bind read).getD (setting s)) :
    setting (s.overrideAll envs) = taken name read envs (setting s) := by
  induction envs generalizing s with
  | nil => rfl
  | cons env envs ih =>
      rw [taken_cons, ← hstep]
      exact ih (s.override env)

theorem level_overrideAll : (s.overrideAll envs).logging.level =
    taken "SPINWHEEL_LOG_LEVEL" some envs s.logging.level := by
  apply overrideAll_eq_taken s envs fun s => s.logging.level
  intro s env
  rw [Option.bind_fun_some]
  rfl

theorem directory_overrideAll : (s.overrideAll envs).logging.directory =
    taken "SPINWHEEL_LOG_DIR" (fun path => some (some path)) envs s.logging.directory := by
  apply overrideAll_eq_taken s envs fun s => s.logging.directory
  intro s env
  change (env "SPINWHEEL_LOG_DIR").or s.logging.directory = _
  cases env "SPINWHEEL_LOG_DIR" <;> rfl

theorem timing_overrideAll : (s.overrideAll envs).launch.timing =
    taken "SPINWHEEL_TIMING" (fun word => (Timing.ofWord word).toOption) envs s.launch.timing :=
  overrideAll_eq_taken s envs (fun s => s.launch.timing) fun _ _ => rfl

theorem delay_overrideAll : ∀ p ∈ delayVariables, p.2 (s.overrideAll envs).launch =
    taken p.1 readDelay? envs (p.2 s.launch) := by
  have hstep : ∀ p ∈ delayVariables, ∀ (s : Settings) (env : Environment),
      p.2 (s.override env).launch = ((env p.1).bind readDelay?).getD (p.2 s.launch) := by
    simp only [delayVariables, List.forall_mem_cons]
    exact ⟨fun _ _ => rfl, fun _ _ => rfl, fun _ _ => rfl, List.forall_mem_nil _⟩
  intro p hp
  exact overrideAll_eq_taken s envs (fun s => p.2 s.launch) (hstep p hp)

theorem confirmBelow_overrideAll :
    (s.overrideAll envs).launch.confirmBelow = s.launch.confirmBelow := by
  induction envs generalizing s with
  | nil => rfl
  | cons env envs ih => exact ih (s.override env)

theorem accounts_overrideAll : (s.overrideAll envs).accounts = s.accounts := by
  induction envs generalizing s with
  | nil => rfl
  | cons env envs ih => exact ih (s.override env)

end Run

/-- What environments put in the place of settings: for each setting with a variable the last valid
value of the variable, and for the others nothing. -/
structure Overridden (envs : List Environment) (s result : Settings) : Prop where
  level : LastGiven "SPINWHEEL_LOG_LEVEL" (fun text level => level = text) envs s.logging.level
    result.logging.level
  directory : LastGiven "SPINWHEEL_LOG_DIR" (fun text path => path = some text) envs
    s.logging.directory result.logging.directory
  timing : LastGiven "SPINWHEEL_TIMING" NamesTiming envs s.launch.timing result.launch.timing
  delays : ∀ p ∈ delayVariables,
    LastGiven p.1 NamesDelay envs (p.2 s.launch) (p.2 result.launch)
  isDelay : ∀ p ∈ delayVariables, IsDelay (p.2 s.launch) → IsDelay (p.2 result.launch)
  confirmBelow_eq : result.launch.confirmBelow = s.launch.confirmBelow
  accounts_eq : result.accounts = s.accounts

/-- Settings that are the same but for the one that a variable is for. -/
structure SameBut (name : String) (s t : Settings) : Prop where
  level : name ≠ "SPINWHEEL_LOG_LEVEL" → s.logging.level = t.logging.level
  directory : name ≠ "SPINWHEEL_LOG_DIR" → s.logging.directory = t.logging.directory
  timing : name ≠ "SPINWHEEL_TIMING" → s.launch.timing = t.launch.timing
  delays : ∀ p ∈ delayVariables, name ≠ p.1 → p.2 s.launch = p.2 t.launch
  confirmBelow_eq : s.launch.confirmBelow = t.launch.confirmBelow
  accounts_eq : s.accounts = t.accounts

section Overrides

variable (s : Settings) {envs others : List Environment} {name : String}

/-- Behind a row of environments each setting has the last valid value of its variable. -/
theorem overridden_overrideAll (envs : List Environment) :
    Overridden envs s (s.overrideAll envs) where
  level := by
    rw [level_overrideAll]
    exact taken_lastGiven _ _ _ fun text v => Option.some.injEq text v ▸ eq_comm
  directory := by
    rw [directory_overrideAll]
    exact taken_lastGiven _ _ _ fun text v => Option.some.injEq (some text) v ▸ eq_comm
  timing := by
    rw [timing_overrideAll]
    exact taken_lastGiven _ _ _ ofWord_eq_some_iff
  delays p hp := by
    rw [delay_overrideAll s envs p hp]
    exact taken_lastGiven _ _ _ readDelay?_eq_some_iff
  isDelay p hp hdelay := by
    rw [delay_overrideAll s envs p hp]
    exact taken_of_forall _ _ hdelay fun text v h => ((readDelay?_eq_some_iff text v).mp h).isDelay
  confirmBelow_eq := confirmBelow_overrideAll s envs
  accounts_eq := accounts_overrideAll s envs

/-- Environments that differ in one variable lead to settings that differ in its setting only. -/
theorem sameBut_overrideAll
    (h : List.Forall₂ (fun env env' : Environment => ∀ n, n ≠ name → env n = env' n) envs others) :
    SameBut name (s.overrideAll envs) (s.overrideAll others) where
  level hne := by
    rw [level_overrideAll, level_overrideAll, taken_congr _ _ hne h]
  directory hne := by
    rw [directory_overrideAll, directory_overrideAll, taken_congr _ _ hne h]
  timing hne := by
    rw [timing_overrideAll, timing_overrideAll, taken_congr _ _ hne h]
  delays p hp hne := by
    rw [delay_overrideAll s envs p hp, delay_overrideAll s others p hp, taken_congr _ _ hne h]
  confirmBelow_eq := by
    rw [confirmBelow_overrideAll, confirmBelow_overrideAll]
  accounts_eq := by
    rw [accounts_overrideAll, accounts_overrideAll]

theorem getD_getD {α : Type} (o : Option α) (a : α) : o.getD (o.getD a) = o.getD a := by
  cases o <;> rfl

/-- The same environment twice is the same as once. -/
theorem override_override (env : Environment) : (s.override env).override env = s.override env := by
  simp only [Settings.override, LogSettings.override, LaunchSettings.override, getD_getD,
    ← Option.or_assoc, Option.or_self]

/-- Behind any row of environments each setting is what the last valid value of its variable says,
whatever the values of other variables, and an environment that comes again changes nothing. -/
theorem overrideAll_lastGiven (envs : List Environment) :
    Overridden envs s (s.overrideAll envs) ∧
      (∀ {name : String} {others : List Environment},
        List.Forall₂ (fun env env' : Environment => ∀ n, n ≠ name → env n = env' n) envs others →
          SameBut name (s.overrideAll envs) (s.overrideAll others)) ∧
      ∀ env, s.overrideAll (envs ++ [env, env]) = s.overrideAll (envs ++ [env]) := by
  refine ⟨overridden_overrideAll s envs, sameBut_overrideAll s, ?_⟩
  intro env
  simp only [Settings.overrideAll, List.foldl_append, List.foldl_cons, List.foldl_nil,
    override_override]

end Overrides

/-- A delay below zero, against no variable at all. -/
theorem overrideAll_lastGiven_invalid :
    let invalid : Environment := fun n => if n = "SPINWHEEL_MIN_DELAY_SECS" then some "-5" else none
    List.Forall₂ (fun env env' : Environment => ∀ n, n ≠ "SPINWHEEL_MIN_DELAY_SECS" → env n = env' n)
        [invalid] [fun _ => none] ∧
      SameBut "SPINWHEEL_MIN_DELAY_SECS" (({} : Settings).overrideAll [invalid])
        (({} : Settings).overrideAll [fun _ => none]) := by
  intro invalid
  have hagree : List.Forall₂
      (fun env env' : Environment => ∀ n, n ≠ "SPINWHEEL_MIN_DELAY_SECS" → env n = env' n)
      [invalid] [fun _ => none] := .cons (fun _ hn => if_neg hn) .nil
  exact ⟨hagree, (overrideAll_lastGiven {} [invalid]).2.1 hagree⟩

/-- Zero with a minus sign is a delay. -/
example : readDelay? "-0" = some (-0.0) := by decide +kernel

end Campaign
