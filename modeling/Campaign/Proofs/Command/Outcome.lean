import Campaign.Command.Run
import Campaign.Proofs.Command.Operands
import Campaign.Proofs.Sample.Settling

/-!
# What a run comes to

A run fails, or it comes to a launch that must be confirmed, or it succeeds, and its exit code tells
which. A failure is known before anything is printed, and the code of a launch that must be
confirmed goes with the assessment that calls for it. A template on the input, with the line end
that a shell puts after it, counts as one that is given. What is left open is a run that its log
stops: the library that opens the file does not come back with an error then, and what it does
instead is its own.
-/

namespace Campaign

open Risk

/-- The settings of a run: those of its file, with the environment's values in their place. -/
def Surroundings.Loads (s : Surroundings) (settings : Settings) : Prop :=
  ∃ loaded, Settings.load s.environment.settingsPath s.settingsFile = .ok loaded ∧
    settings = loaded.override s.environment

/-- The settings of a run can be had and its log starts, if there is one. -/
structure Surroundings.Starts (s : Surroundings) (settings : Settings) : Prop where
  loads : s.Loads settings
  logs : ∀ path, settings.logging.directory = some path →
    Campaign.startLog path (s.makeDirectory path) false = .ok ()
  opens : ∀ path, settings.logging.directory = some path → s.opensLog path = true

/-- The log stops a run: its directory is there, but the file cannot be opened. -/
def Surroundings.StopsAtLog (s : Surroundings) : Prop :=
  ∃ settings path, s.Loads settings ∧ settings.logging.directory = some path ∧
    Campaign.startLog path (s.makeDirectory path) false = .ok () ∧ s.opensLog path = false

namespace Command

/-- What makes a run of a command fail. -/
inductive Fails (c : Command) (s : Surroundings) : Prop
  | settings {cause : SettingsError}
      (hload : Settings.load s.environment.settingsPath s.settingsFile = .error cause)
  | log {settings : Settings} {path : String} {cause : LogError} (hloads : s.Loads settings)
      (hpath : settings.logging.directory = some path)
      (hlog : startLog path (s.makeDirectory path) false = .error cause)
  | input (hreads : c.readsInput = true) (hinput : String.fromUTF8? s.input = none)
  | noScore {recipients : Nat} (hc : c = .fleet recipients none)
  | noAccounts {settings : Settings} {recipients : Nat} {content : Option ContentSource}
      (hloads : s.Loads settings) (haccounts : settings.accounts = [])
      (hc : c = .fleet recipients content)

/-- What makes a command fail when its settings are there and its log has started. -/
def Stops (c : Command) (settings : Settings) (s : Surroundings) : Prop :=
  (c.readsInput = true ∧ String.fromUTF8? s.input = none) ∨
    ∃ recipients content, c = .fleet recipients content ∧
      (content = none ∨ settings.accounts = [])

/-- A run of a command comes to the assessment of a launch. -/
inductive Assesses (c : Command) (s : Surroundings) : Assessment → Prop
  | fleet {settings : Settings} {recipients : Nat} {content : ContentSource}
      (hstarts : s.Starts settings) (haccounts : settings.accounts ≠ [])
      (hc : c = .fleet recipients (some content)) :
      Assesses c s (assess settings.accounts
        { recipients
          delay := settings.launch.delay
          contentScore := content.value
          confirmBelow := settings.launch.confirmBelow } s.now)

/-- Whether a command is the launch of a fleet. -/
def isLaunch : Command → Bool
  | fleet _ _ => true
  | _ => false

/-- A run of a command comes to a launch that must be confirmed. -/
def NeedsConfirmation (c : Command) (s : Surroundings) : Prop :=
  ∃ a, c.Assesses s a ∧ a.requiresConfirmation = true

/-- An outcome is what a run of a command should come to. -/
structure Decided (c : Command) (s : Surroundings) (outcome : Outcome) : Prop where
  code_eq_two_iff : outcome.code = 2 ↔ c.NeedsConfirmation s
  code_eq_one_iff : outcome.code = 1 ↔ c.Fails s
  code_eq_zero_iff : outcome.code = 0 ↔ ¬ c.NeedsConfirmation s ∧ ¬ c.Fails s
  output_of_fails : c.Fails s → outcome.output = ""
  output_of_assesses : ∀ a, c.Assesses s a → outcome.output = a.toJson.pretty ++ "\n"

/-- A sample whose source may refuse every word of a choice from some point on. -/
def NeverSettles (c : Command) (s : Surroundings) : Prop :=
  ∃ template seed times, c = .sample template seed times ∧
    ¬ (Source.ofSeed ((seed.map UInt64.ofNat).getD s.entropy)).Settles

end Command

section Outcome

variable {c : Command} {s : Surroundings} {settings : Settings}

/-- A run has one set of settings at most. -/
theorem Surroundings.Loads.unique {other : Settings} (h : s.Loads settings) (h' : s.Loads other) :
    settings = other := by
  obtain ⟨loaded, hload, rfl⟩ := h
  obtain ⟨loaded', hload', rfl⟩ := h'
  rw [Except.ok.inj (hload.symm.trans hload')]

theorem Surroundings.settings_eq_ok_iff : s.settings = .ok settings ↔ s.Loads settings := by
  unfold Surroundings.settings Surroundings.Loads
  cases Settings.load s.environment.settingsPath s.settingsFile <;> simp [eq_comm]

theorem Surroundings.settings_eq_error {e : RunError} (h : s.settings = .error e) :
    ∃ cause, Settings.load s.environment.settingsPath s.settingsFile = .error cause := by
  unfold Surroundings.settings at h
  split at h
  next => cases h
  next cause hload => exact ⟨cause, hload⟩

/-- The log starts if there is none to start, or if its directory could be made. -/
theorem Surroundings.startLog_eq_ok_iff :
    s.startLog settings = .ok () ↔ ∀ path, settings.logging.directory = some path →
      Campaign.startLog path (s.makeDirectory path) false = .ok () := by
  unfold Surroundings.startLog
  cases settings.logging.directory with
  | none => simp
  | some path => cases hlog : Campaign.startLog path (s.makeDirectory path) false <;> simp [hlog]

theorem Surroundings.startLog_eq_error {e : RunError} (h : s.startLog settings = .error e) :
    ∃ path cause, settings.logging.directory = some path ∧
      Campaign.startLog path (s.makeDirectory path) false = .error cause := by
  unfold Surroundings.startLog at h
  split at h
  next => cases h
  next path hpath =>
    split at h
    next => cases h
    next cause hlog => exact ⟨path, cause, hpath, hlog⟩

theorem Surroundings.all_opensLog_iff :
    settings.logging.directory.all s.opensLog = true ↔
      ∀ path, settings.logging.directory = some path → s.opensLog path = true := by
  cases settings.logging.directory <;> simp

/-- A log that starts stops the run only where its file cannot be opened. -/
theorem Surroundings.stopsAtLog_of_not_all (hloads : s.Loads settings)
    (hlog : s.startLog settings = .ok ())
    (hopens : ¬ settings.logging.directory.all s.opensLog = true) : s.StopsAtLog := by
  cases hpath : settings.logging.directory with
  | none => exact absurd (by rw [hpath]; rfl) hopens
  | some path =>
      refine ⟨settings, path, hloads, hpath, Surroundings.startLog_eq_ok_iff.mp hlog path hpath, ?_⟩
      rwa [hpath, Option.all_some, Bool.not_eq_true] at hopens

/-- Once the settings are there and the log has started, only the command itself can fail. -/
theorem Command.fails_iff_stops (hstarts : s.Starts settings) : c.Fails s ↔ c.Stops settings s := by
  constructor
  · rintro (hload | ⟨hloads, hpath, hlog⟩ | ⟨hreads, hinput⟩ | hc | ⟨hloads, haccounts, hc⟩)
    case settings =>
      obtain ⟨loaded, hloaded, -⟩ := hstarts.loads
      cases hload.symm.trans hloaded
    case log =>
      cases hloads.unique hstarts.loads
      cases hlog.symm.trans (hstarts.logs _ hpath)
    case input => exact .inl ⟨hreads, hinput⟩
    case noScore => exact .inr ⟨_, _, hc, .inl rfl⟩
    case noAccounts =>
      cases hloads.unique hstarts.loads
      exact .inr ⟨_, _, hc, .inr haccounts⟩
  · rintro (⟨hreads, hinput⟩ | ⟨recipients, content, hc, rfl | haccounts⟩)
    · exact .input hreads hinput
    · exact .noScore hc
    · exact .noAccounts hstarts.loads haccounts hc

theorem Command.stops_iff_input (hc : c.isLaunch = false) :
    c.Stops settings s ↔ c.readsInput = true ∧ String.fromUTF8? s.input = none := by
  refine or_iff_left ?_
  rintro ⟨_, _, rfl, -⟩
  cases hc

theorem Command.not_assesses {a : Assessment} (hc : c.isLaunch = false) : ¬ c.Assesses s a := by
  rintro ⟨-, -, rfl⟩
  cases hc

/-- A launch that comes to its assessment does not fail. -/
theorem Command.Assesses.not_fails {a : Assessment} (h : c.Assesses s a) : ¬ c.Fails s := by
  obtain ⟨hstarts, haccounts, rfl⟩ := h
  rw [Command.fails_iff_stops hstarts]
  rintro (⟨⟨⟩, -⟩ | ⟨_, _, ⟨⟩, hnone | hnil⟩)
  · cases hnone
  · exact haccounts hnil

theorem Command.Assesses.unique {a b : Assessment} (ha : c.Assesses s a) (hb : c.Assesses s b) :
    a = b := by
  obtain ⟨hstarts, -, rfl⟩ := ha
  obtain ⟨hstarts', -, ⟨⟩⟩ := hb
  cases hstarts.loads.unique hstarts'.loads
  rfl

theorem Command.Assesses.needsConfirmation_iff {a : Assessment} (h : c.Assesses s a) :
    c.NeedsConfirmation s ↔ a.requiresConfirmation = true :=
  ⟨fun ⟨_, hb, hconfirm⟩ => h.unique hb ▸ hconfirm, fun hconfirm => ⟨a, h, hconfirm⟩⟩

/-- An error has a code of its own and prints nothing, whatever made it. -/
theorem Command.decided_of_fails (h : c.Fails s) (directory : Option String) (e : RunError) :
    c.Decided s (.ofError directory e) where
  code_eq_two_iff := iff_of_false (by simp [Outcome.ofError]) fun ⟨_, ha, _⟩ => ha.not_fails h
  code_eq_one_iff := iff_of_true rfl h
  code_eq_zero_iff := iff_of_false (by simp [Outcome.ofError]) fun hnone => hnone.2 h
  output_of_fails _ := rfl
  output_of_assesses _ ha := absurd h ha.not_fails

/-- A printed assessment has the code that it calls for. -/
theorem Command.decided_of_assesses {a : Assessment} (h : c.Assesses s a)
    (directory : Option String) :
    c.Decided s ⟨if a.requiresConfirmation then needsConfirmationCode else 0,
      a.toJson.pretty ++ "\n", none, directory⟩ where
  code_eq_two_iff := by
    rw [h.needsConfirmation_iff]
    cases a.requiresConfirmation <;> simp [needsConfirmationCode]
  code_eq_one_iff := by
    refine iff_of_false ?_ h.not_fails
    cases a.requiresConfirmation <;> simp [needsConfirmationCode]
  code_eq_zero_iff := by
    rw [h.needsConfirmation_iff, and_iff_left h.not_fails]
    cases a.requiresConfirmation <;> simp [needsConfirmationCode]
  output_of_fails hfails := absurd hfails h.not_fails
  output_of_assesses b hb := by rw [h.unique hb]

/-- A command that assesses nothing and does not fail has a code of zero. -/
theorem Command.decided_of_print (hfails : ¬ c.Fails s) (hassesses : ∀ a, ¬ c.Assesses s a)
    (output : String) (directory : Option String) :
    c.Decided s ⟨0, output, none, directory⟩ where
  code_eq_two_iff := iff_of_false (by simp) fun ⟨a, ha, _⟩ => hassesses a ha
  code_eq_one_iff := iff_of_false (by simp) hfails
  code_eq_zero_iff := iff_of_true rfl ⟨fun ⟨a, ha, _⟩ => hassesses a ha, hfails⟩
  output_of_fails h := absurd h hfails
  output_of_assesses a ha := absurd ha (hassesses a)

theorem Surroundings.template_eq_error {template : Option String} {e : RunError}
    (h : s.template template = .error e) :
    template.isNone = true ∧ String.fromUTF8? s.input = none := by
  unfold Surroundings.template at h
  split at h
  next => cases h
  next =>
    split at h
    next => cases h
    next hinput => exact ⟨rfl, hinput⟩

theorem Surroundings.template_eq_ok {template : Option String} {text : List Char}
    (h : s.template template = .ok text) :
    ¬ (template.isNone = true ∧ String.fromUTF8? s.input = none) := by
  rintro ⟨hnone, hinput⟩
  rw [Option.isNone_iff_eq_none.mp hnone, Surroundings.template, hinput] at h
  cases h

theorem Command.stops_of_execute? {e : RunError} (h : c.execute? settings s = some (.error e)) :
    c.Stops settings s := by
  cases c with
  | count template | segment template | unfold template | expand template _ =>
      cases htemplate : s.template template with
      | error _ => exact .inl (Surroundings.template_eq_error htemplate)
      | ok _ =>
          rw [execute?, htemplate] at h
          cases h
  | sample template seed times =>
      cases htemplate : s.template template with
      | error _ => exact .inl (Surroundings.template_eq_error htemplate)
      | ok _ =>
          rw [execute?, htemplate] at h
          obtain ⟨_, -, ⟨⟩⟩ := Option.map_eq_some_iff.mp h
  | fold _ | risk _ => cases h
  | fleet recipients content =>
      cases content with
      | none => exact .inr ⟨recipients, none, rfl, .inl rfl⟩
      | some content =>
          rw [execute?, Settings.launchFleet] at h
          split at h
          next hnil => exact .inr ⟨recipients, some content, rfl, .inr (List.isEmpty_iff.mp hnil)⟩
          next => cases h

/-- A command that goes on to print assesses a launch or prints what it found. -/
theorem Command.execute?_ok {success : Success} (hstarts : s.Starts settings)
    (h : c.execute? settings s = some (.ok success)) :
    (∃ a, c.Assesses s a ∧
      success = ⟨if a.requiresConfirmation then needsConfirmationCode else 0,
        a.toJson.pretty ++ "\n"⟩) ∨
      ¬ c.Stops settings s ∧ (∀ a, ¬ c.Assesses s a) ∧ ∃ output, success = .print output := by
  -- All but a launch print what they found; a launch with accounts is assessed.
  cases c with
  | count template | segment template | unfold template | expand template _ =>
      cases htemplate : s.template template with
      | error _ =>
          rw [execute?, htemplate] at h
          cases h
      | ok _ =>
          rw [execute?, htemplate] at h
          cases h
          exact .inr ⟨mt (stops_iff_input rfl).mp (Surroundings.template_eq_ok htemplate),
            fun _ => not_assesses rfl, _, rfl⟩
  | sample template seed times =>
      cases htemplate : s.template template with
      | error _ =>
          rw [execute?, htemplate] at h
          cases h
      | ok _ =>
          rw [execute?, htemplate] at h
          obtain ⟨_, -, ⟨⟩⟩ := Option.map_eq_some_iff.mp h
          exact .inr ⟨mt (stops_iff_input rfl).mp (Surroundings.template_eq_ok htemplate),
            fun _ => not_assesses rfl, _, rfl⟩
  | fold _ | risk _ =>
      cases h
      exact .inr ⟨mt (stops_iff_input rfl).mp nofun, fun _ => not_assesses rfl, _, rfl⟩
  | fleet recipients content =>
      cases content with
      | none => cases h
      | some content =>
          rw [execute?, Settings.launchFleet] at h
          split at h
          next => cases h
          next haccounts =>
            cases h
            exact .inl ⟨_, .fleet hstarts (mt List.isEmpty_iff.mpr haccounts) rfl, rfl⟩

/-- A run fails before its command, is stopped by its log, or comes to what the command does. -/
theorem Command.run?_cases (c : Command) (s : Surroundings) :
    (c.Fails s ∧ ∃ e, c.run? s = some (.ofError none e)) ∨ (s.StopsAtLog ∧ c.run? s = none) ∨
      ∃ settings, s.Starts settings ∧ c.run? s = (c.execute? settings s).map fun
        | .ok success => ⟨success.code, success.output, none, settings.logging.directory⟩
        | .error e => .ofError settings.logging.directory e := by
  unfold Command.run?
  -- Stage after stage: settings, the directory of the log, its file.
  cases hsettings : s.settings with
  | error e =>
      obtain ⟨cause, hload⟩ := Surroundings.settings_eq_error hsettings
      exact .inl ⟨.settings hload, e, rfl⟩
  | ok settings =>
      have hloads := Surroundings.settings_eq_ok_iff.mp hsettings
      dsimp only
      cases hlog : s.startLog settings with
      | error e =>
          obtain ⟨path, cause, hpath, hstart⟩ := Surroundings.startLog_eq_error hlog
          exact .inl ⟨.log hloads hpath hstart, e, rfl⟩
      | ok _ =>
          by_cases hopens : settings.logging.directory.all s.opensLog = true
          · have hstarts : s.Starts settings := ⟨hloads, Surroundings.startLog_eq_ok_iff.mp hlog,
              Surroundings.all_opensLog_iff.mp hopens⟩
            exact .inr (.inr ⟨settings, hstarts, if_pos hopens⟩)
          · have hstops := Surroundings.stopsAtLog_of_not_all hloads hlog hopens
            exact .inr (.inl ⟨hstops, if_neg hopens⟩)

/-- Every outcome of a run is what it should come to. -/
theorem Command.decided_of_run? {outcome : Outcome} (h : c.run? s = some outcome) :
    c.Decided s outcome := by
  obtain ⟨hfails, e, hrun⟩ | ⟨-, hrun⟩ | ⟨settings, hstarts, hrun⟩ := c.run?_cases s
  · cases hrun.symm.trans h
    exact decided_of_fails hfails none e
  · cases hrun.symm.trans h
  · obtain ⟨result, hexecute, rfl⟩ := Option.map_eq_some_iff.mp (hrun.symm.trans h)
    cases result with
    | error e =>
        exact decided_of_fails ((fails_iff_stops hstarts).mpr (stops_of_execute? hexecute)) _ e
    | ok success =>
        obtain ⟨a, ha, rfl⟩ | ⟨hstops, hassesses, output, rfl⟩ := execute?_ok hstarts hexecute
        · exact decided_of_assesses ha _
        · exact decided_of_print (mt (fails_iff_stops hstarts).mp hstops) hassesses output _

/-- With a source that settles every choice, any number of samples can be drawn. -/
theorem sampleMany?_of_settles {source : Source} (h : source.Settles) (text : List Char)
    (times : Nat) : ∃ samples, sampleMany? text times source = some samples := by
  induction times generalizing source with
  | zero => exact ⟨[], rfl⟩
  | succ times ih =>
      obtain ⟨sample, after, hsample, hafter⟩ := sampleText?_of_settles h text
      obtain ⟨samples, hsamples⟩ := ih hafter
      refine ⟨sample :: samples, ?_⟩
      rw [sampleMany?, hsample]
      dsimp only [bind, Option.bind_some]
      rw [hsamples]
      rfl

/-- Only a sample whose choices do not settle goes on for ever. -/
theorem Command.neverSettles_of_execute? (h : c.execute? settings s = none) : c.NeverSettles s := by
  cases c with
  | sample template seed times =>
      refine ⟨template, seed, times, rfl, fun hsettles => ?_⟩
      rw [execute?] at h
      split at h
      next => cases h
      next text _ =>
        obtain ⟨samples, hsamples⟩ := sampleMany?_of_settles hsettles text times
        cases hsamples.symm.trans (Option.map_eq_none_iff.mp h)
  | _ => cases h

/-- A run without an outcome never settles or is stopped by its log. -/
theorem Command.neverSettles_or_stopsAtLog (h : c.run? s = none) :
    c.NeverSettles s ∨ s.StopsAtLog := by
  obtain ⟨-, e, hrun⟩ | ⟨hstops, -⟩ | ⟨settings, -, hrun⟩ := c.run?_cases s
  · cases hrun.symm.trans h
  · exact .inr hstops
  · exact .inl (neverSettles_of_execute? (Option.map_eq_none_iff.mp (hrun.symm.trans h)))

end Outcome

theorem fromUTF8?_toUTF8 (text : String) : String.fromUTF8? text.toUTF8 = some text := by
  unfold String.fromUTF8?
  exact dif_pos text.isValidUTF8

/-- A line end put after a text is taken off again, unless a carriage return before it makes it a
longer one. -/
theorem withoutLineEnd_newline {text : List Char} (h : text.getLast? ≠ some '\r') :
    withoutLineEnd (text ++ ['\n']) = text := by
  obtain ⟨backward, rfl⟩ : ∃ backward : List Char, text = backward.reverse :=
    ⟨text.reverse, text.reverse_reverse.symm⟩
  rw [List.getLast?_reverse] at h
  unfold withoutLineEnd
  rw [List.reverse_append, List.reverse_reverse, List.reverse_singleton, List.singleton_append]
  split
  next heq =>
    cases heq
    exact absurd rfl h
  next heq =>
    cases heq
    rfl
  next hno => exact absurd rfl (hno backward)

/-- A text on the input with a line end after it is the template of a command that is given none. -/
theorem Surroundings.template_newline (s : Surroundings) {text : String}
    (h : text.toList.getLast? ≠ some '\r') (entropy : UInt64) :
    ({ s with input := (text ++ "\n").toUTF8, entropy } : Surroundings).template none =
      .ok text.toList := by
  unfold Surroundings.template
  rw [fromUTF8?_toUTF8]
  dsimp only
  rw [String.toList_append]
  exact congrArg Except.ok (withoutLineEnd_newline h)

/-- A command that reads from the input the template that it was given runs as before. -/
theorem Command.run?_reading {c : Command} {text : String} {s : Surroundings} {input : ByteArray}
    {entropy : UInt64} (htemplate : c.template? = some text)
    (hread : ({ s with input, entropy } : Surroundings).template none = .ok text.toList) :
    c.reading.run? { s with input, entropy } = c.run? s := by
  have hexecute (settings : Settings) :
      c.reading.execute? settings { s with input, entropy } = c.execute? settings s := by
    cases c with
    | count template | segment template | unfold template | expand template _ =>
        cases htemplate
        rw [reading, execute?, hread]
        rfl
    | sample template seed times =>
        cases seed with
        | none => cases htemplate
        | some seed =>
            cases htemplate
            rw [reading, execute?, hread]
            rfl
    | fold _ | risk _ | fleet _ _ => cases htemplate
  unfold Command.run?
  simp only [hexecute]
  rfl

/-- A run of a command ends, unless it is a sample that never settles or its log stops it, its exit
code tells what it came to, and a template on the input counts as one that is given. -/
theorem run?_decided {arguments : List String} {c : Command}
    (h : Request.ofArguments? arguments = some (.command c)) :
    (∀ s, (run? arguments s = none → c.NeverSettles s ∨ s.StopsAtLog) ∧
      ∀ outcome, run? arguments s = some outcome → c.Decided s outcome) ∧
    ∀ text, c.template? = some text → text.toList.getLast? ≠ some '\r' →
      ∃ before after, arguments = before ++ text :: after ∧
        Request.ofArguments? (before ++ after) = some (.command c.reading) ∧
        ∀ s entropy, run? (before ++ after)
          { s with input := (text ++ "\n").toUTF8, entropy } = run? arguments s := by
  have hrun : ∀ s, run? arguments s = c.run? s := fun s => by rw [run?, h]
  refine ⟨fun s => ?_, fun text htemplate htext => ?_⟩
  · rw [hrun]
    exact ⟨Command.neverSettles_or_stopsAtLog, fun _ => Command.decided_of_run?⟩
  · obtain ⟨before, after, harguments, hwithout⟩ := Request.ofArguments?_reading h htemplate
    refine ⟨before, after, harguments, hwithout, fun s entropy => ?_⟩
    rw [hrun, run?, hwithout]
    exact Command.run?_reading htemplate (s.template_newline htext entropy)

/-- A launch past what its one account can bear is printed and ends with a code of 2, and a template
that is given may come from the input. -/
theorem run?_decided_launch :
    let document := "[[accounts]]\nid = \"tiny\"\ndaily_limit = 5\n"
    let s : Surroundings := {
      environment := fun _ => none
      settingsFile := .bytes document.toUTF8
      makeDirectory := fun _ => true
      input := ByteArray.empty
      now := 0
      entropy := 0 }
    let launch := ["fleet", "--recipients", "100", "--variations", "1"]
    let given := ["expand", "--limit", "2", "a"]
    (Request.ofArguments? launch = some (.command (.fleet 100 (some (.score 1)))) ∧
      ∃ outcome, run? launch s = some outcome ∧ outcome.code = 2 ∧ outcome.output =
        "\x7b\n  \"accounts\": [\n    \x7b\n      \"account_id\": \"tiny\",\n" ++
        "      \"planned_messages\": 100,\n      \"breakdown\": \x7b\n" ++
        "        \"total_risk\": 100,\n        \"load_penalty\": 130,\n" ++
        "        \"speed_penalty\": 0,\n        \"content_penalty\": 26,\n" ++
        "        \"bonus_factor\": 1.3\n      \x7d,\n      \"health\": 0\n    \x7d\n  ],\n" ++
        "  \"fleet_health\": 0,\n  \"requires_confirmation\": true\n\x7d\n") ∧
    Request.ofArguments? given = some (.command (.expand (some "a") 2)) ∧
    ∃ before after, given = before ++ "a" :: after ∧
      Request.ofArguments? (before ++ after) = some (.command (.expand none 2)) ∧
      run? (before ++ after) { s with input := ("a" ++ "\n").toUTF8 } = run? given s := by
  intro document s launch given
  have hlaunch : Request.ofArguments? launch = some (.command (.fleet 100 (some (.score 1)))) := by
    cbv
  have hgiven : Request.ofArguments? given = some (.command (.expand (some "a") 2)) := by cbv
  refine ⟨⟨hlaunch, ?_⟩, hgiven, ?_⟩
  · let settings : Settings := { accounts := [⟨"tiny", 5, 0.0, none⟩] }
    have hloads : s.Loads settings := by
      -- The document is read here once, and the run itself is never evaluated.
      have htable : Toml.read? document.toList = some ⟨.declared, [("accounts", .tables
          [.table .declared [("id", .string "tiny"), ("daily_limit", .integer 5)]])]⟩ := by cbv
      refine ⟨settings, ?_, rfl⟩
      unfold Settings.load
      dsimp only [s]
      rw [fromUTF8?_toUTF8]
      dsimp only
      rw [Settings.read?, htable]
      rfl
    have hstarts : s.Starts settings := by
      refine ⟨hloads, ?_, ?_⟩ <;> rintro path ⟨⟩
    have hassesses := Command.Assesses.fleet (c := .fleet 100 (some (.score 1))) hstarts
      (List.cons_ne_nil _ _) rfl
    obtain ⟨hnone, hsome⟩ := (run?_decided hlaunch).1 s
    cases hrun : run? launch s with
    | none =>
        obtain ⟨_, _, _, ⟨⟩, -⟩ | ⟨other, path, hother, hpath, -⟩ := hnone hrun
        cases hother.unique hloads
        cases hpath
    | some outcome =>
        have hdecided := hsome outcome hrun
        have hconfirm := hdecided.code_eq_two_iff.mpr ⟨_, hassesses, by decide +kernel⟩
        have hprinted := hdecided.output_of_assesses _ hassesses
        exact ⟨outcome, rfl, hconfirm, hprinted.trans (by decide +kernel)⟩
  · obtain ⟨before, after, hsplit, hwithout, hrun⟩ := (run?_decided hgiven).2 "a" rfl (by decide)
    exact ⟨before, after, hsplit, hwithout, hrun s 0⟩

/-- A carriage return at the end of a template goes with the line end. -/
theorem run?_carriageReturn :
    let s : Surroundings :=
      ⟨fun _ => none, .missing, fun _ => true, fun _ => true, ByteArray.empty, 0, 0⟩
    Request.ofArguments? ["expand", "a\r"] = some (.command (.expand (some "a\r") 1000)) ∧
    (run? ["expand", "a\r"] s).map (·.output) = some "a\r\n" ∧
    (run? ["expand"] { s with input := ("a\r" ++ "\n").toUTF8 }).map (·.output) = some "a\n" := by
  have hgiven : Request.ofArguments? ["expand", "a\r"] =
      some (.command (.expand (some "a\r") 1000)) := by cbv
  have hreading : Request.ofArguments? ["expand"] = some (.command (.expand none 1000)) := by cbv
  intro s
  refine ⟨hgiven, ?_, ?_⟩
  · rw [run?, hgiven]
    rfl
  · have hread : ({ s with input := ("a\r" ++ "\n").toUTF8 } : Surroundings).template none =
        .ok "a".toList := by
      unfold Surroundings.template
      rw [fromUTF8?_toUTF8]
      rfl
    rw [run?, hreading]
    have hrun := Command.run?_reading (c := .expand (some "a") 1000) rfl hread
    exact (congrArg (Option.map (·.output)) hrun).trans rfl

end Campaign
