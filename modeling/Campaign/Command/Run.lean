import Campaign.Command.Arguments
import Campaign.Json.Printer
import Campaign.Random.ChaCha
import Campaign.Risk.Record
import Campaign.Settings.Environment
import Campaign.Settings.File
import Campaign.Settings.Log
import Campaign.Template.Block
import Campaign.Template.Expansion
import Campaign.Template.Fold
import Campaign.Template.Sample

/-!
# Running a command

What a run does is a function of its arguments and of what it finds around it. The arguments are
read first, then the settings, then logging starts, and then the command runs; the first of these
that fails decides the outcome. A failure leaves the output empty. The file of the log is opened by
a library, which stops the run where it cannot, so that such a run has no outcome of its own.
-/

namespace Campaign

open Risk

/-- What a run finds around it, with the time in seconds since the epoch. -/
structure Surroundings where
  environment : Environment
  /-- What is found where the settings are looked for. -/
  settingsFile : FileState
  makeDirectory : String → Bool
  /-- Whether the file of a log can be opened in a directory that is there. -/
  opensLog : String → Bool := fun _ => true
  input : ByteArray
  now : Int
  /-- The seed of a run that is given none. -/
  entropy : UInt64

/-- Why a run fails. -/
inductive RunError where
  | settings (cause : SettingsError)
  | log (cause : LogError)
  | input
  | noScore
  | noAccounts

def RunError.message : RunError → String
  | settings _ => "failed to load configuration"
  | log cause => cause.message
  | input => "failed to read template from stdin"
  | noScore => "either --template or --variations is required"
  | noAccounts => "no accounts configured; add [[accounts]] to the config file"

/-- What a run comes to. -/
structure Outcome where
  code : Nat
  output : String
  errorLine : Option String
  logDirectory : Option String

/-- What a command that succeeds comes to: its exit code and its output. -/
structure Success where
  code : Nat
  output : String

def Success.print (output : String) : Success := ⟨0, output⟩

def unlines (texts : List (List Char)) : String :=
  String.ofList (texts.flatMap (· ++ ['\n']))

/-- A text on the input without the line end after it. -/
def withoutLineEnd (text : List Char) : List Char :=
  match text.reverse with
  | '\n' :: '\r' :: rest => rest.reverse
  | '\n' :: rest => rest.reverse
  | _ => text

/-- The template of a command: the one given, or the input without the line end after it. -/
def Surroundings.template (s : Surroundings) : Option String → Except RunError (List Char)
  | some template => .ok template.toList
  | none =>
    match String.fromUTF8? s.input with
    | some text => .ok (withoutLineEnd text.toList)
    | none => .error .input

/-- Random expansions of a text, one after another from the same source. -/
def sampleMany? (text : List Char) : (times : Nat) → Source → Option (List (List Char))
  | 0, _ => some []
  | times + 1, source => do
    let (sample, source) ← sampleText? text source
    let samples ← sampleMany? text times source
    return sample :: samples

def Block.toJson : Block → Json
  | literal text => .object [("kind", .string "static"), ("text", .string (String.ofList text))]
  | group raw alternatives count =>
    .object [("kind", .string "group"), ("raw_text", .string (String.ofList raw)),
      ("alternatives", .array (alternatives.map fun a => .string (String.ofList a))),
      ("count", .integer count)]

/-- The content score that a source gives. -/
def ContentSource.value : ContentSource → Nat
  | score n => n
  | template text => countVariations text.toList

/-- The launch that settings make of recipients and a content score. -/
def LaunchSettings.plan (s : LaunchSettings) (recipients contentScore : Nat) : Plan where
  recipients := recipients
  delay := s.delay
  contentScore := contentScore
  confirmBelow := s.confirmBelow

def needsConfirmationCode : Nat := 2

/-- Assesses a launch of the accounts that are set. -/
def Settings.launchFleet (settings : Settings) (now : Int) (recipients : Nat)
    (content : Option ContentSource) : Except RunError Success :=
  match content with
  | none => .error .noScore
  | some content =>
    if settings.accounts.isEmpty then .error .noAccounts
    else
      let a := assess settings.accounts (settings.launch.plan recipients content.value) now
      .ok ⟨if a.requiresConfirmation then needsConfirmationCode else 0, a.toJson.pretty ++ "\n"⟩

/-- What a command comes to; nothing if a random choice never settles. -/
def Command.execute? (settings : Settings) (s : Surroundings) :
    Command → Option (Except RunError Success)
  | count template =>
    some ((s.template template).map fun text => .print (toString (countVariations text) ++ "\n"))
  | segment template =>
    some ((s.template template).map fun text =>
      .print ((Json.array ((Campaign.segment text).map Block.toJson)).pretty ++ "\n"))
  | sample template seed times =>
    match s.template template with
    | .error e => some (.error e)
    | .ok text =>
      let source := Source.ofSeed ((seed.map UInt64.ofNat).getD s.entropy)
      (sampleMany? text times source).map fun texts => .ok (.print (unlines texts))
  | expand template limit =>
    some ((s.template template).map fun text => .print (unlines (Campaign.expand limit text)))
  | fold alternatives =>
    some (.ok (.print (unlines [Campaign.fold (alternatives.map String.toList)])))
  | unfold template =>
    some ((s.template template).map fun text => .print (unlines (Campaign.unfold text)))
  | risk input => some (.ok (.print ((evaluateAt input s.now).toJson.pretty ++ "\n")))
  | fleet recipients content => some (settings.launchFleet s.now recipients content)

/-- The settings of a run. -/
def Surroundings.settings (s : Surroundings) : Except RunError Settings :=
  match Settings.load s.environment.settingsPath s.settingsFile with
  | .ok settings => .ok (settings.override s.environment)
  | .error cause => .error (.settings cause)

/-- Starts the log that is set. -/
def Surroundings.startLog (s : Surroundings) (settings : Settings) : Except RunError Unit :=
  match settings.logging.directory with
  | none => .ok ()
  | some path =>
    match Campaign.startLog path (s.makeDirectory path) false with
    | .ok () => .ok ()
    | .error cause => .error (.log cause)

/-- The outcome of a run that fails. -/
def Outcome.ofError (logDirectory : Option String) (e : RunError) : Outcome :=
  ⟨1, "", some ("Error: " ++ e.message), logDirectory⟩

/-- What a command comes to with everything around it; nothing if the file of its log cannot be
opened or a random choice never settles. -/
def Command.run? (c : Command) (s : Surroundings) : Option Outcome :=
  match s.settings with
  | .error e => some (.ofError none e)
  | .ok settings =>
    match s.startLog settings with
    | .error e => some (.ofError none e)
    | .ok () =>
      if settings.logging.directory.all s.opensLog then
        (c.execute? settings s).map fun
          | .ok success => ⟨success.code, success.output, none, settings.logging.directory⟩
          | .error e => .ofError settings.logging.directory e
      else none

/-- The usage of the program. -/
def usageText : String :=
  "Usage: spinwheel <COMMAND>\n\nCommands:\n" ++
  "  count    Print the number of distinct expansions of a template\n" ++
  "  segment  Print the static and group blocks of a template as JSON\n" ++
  "  sample   Print random expansions of a template, one per line\n" ++
  "  expand   Print every expansion of a template, one per line\n" ++
  "  fold     Fold alternatives into a single spintax group\n" ++
  "  unfold   Split a spintax group into one alternative per line\n" ++
  "  risk     Score a single account and print the breakdown as JSON\n" ++
  "  fleet    Run the launch gate over the configured accounts\n"

/-- What a command line comes to; nothing if the file of its log cannot be opened or a random choice
never settles. -/
def run? (arguments : List String) (s : Surroundings) : Option Outcome :=
  match Request.ofArguments? arguments with
  | none => some ⟨2, "", none, none⟩
  | some .help => some ⟨0, usageText, none, none⟩
  | some .version => some ⟨0, "spinwheel 0.1.0\n", none, none⟩
  | some (.command c) => c.run? s

end Campaign
