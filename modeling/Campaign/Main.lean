import Campaign.Command.Run
import Std.Time.DateTime.Timestamp

/-!
# The program

Gathers what a run finds around it, and acts on its outcome: prints, reports an error and exits. The
directory for logs is made, the log file opened and the input read only if the run comes that far.
-/

namespace Campaign

/-- The variables that settings can come from. -/
def variableNames : List String :=
  ["SPINWHEEL_CONFIG_PATH", "SPINWHEEL_LOG_LEVEL", "SPINWHEEL_LOG_DIR", "SPINWHEEL_TIMING",
    "SPINWHEEL_MIN_DELAY_SECS", "SPINWHEEL_MAX_DELAY_SECS", "SPINWHEEL_AUTO_DELAY_SECS"]

def readEnvironment : IO Environment := do
  let values ← variableNames.mapM fun name => return (name, ← IO.getEnv name)
  return fun name => (values.lookup name).join

def readFileState (path : String) : IO FileState := do
  try
    return .bytes (← IO.FS.readBinFile path)
  catch
    | .noFileOrDirectory .. => return .missing
    | e => return .unreadable (toString e)

/-- Makes a directory and those around it; whether it is there now. -/
def ensureDirectory (path : String) : IO Bool := do
  if path.isEmpty then return true
  try
    IO.FS.createDirAll path
    return true
  catch _ => return false

/-- Opens the log file of the day of a time in a directory; whether it can be opened. -/
def openLog (directory : String) (now : Int) : IO Bool := do
  let separator := if directory.isEmpty || directory.endsWith "/" then "" else "/"
  try
    let _ ← IO.FS.Handle.mk (directory ++ separator ++ logFileName now) .append
    return true
  catch _ => return false

/-- A seed that is different every time. -/
def randomSeed : IO UInt64 := do
  let bytes ← IO.getRandomBytes 8
  return bytes.foldl (fun seed byte => seed * 256 + byte.toUInt64) 0

def currentTime : IO Int := do
  return (← Std.Time.Timestamp.now).toSecondsSinceUnixEpoch.val

/-- Adds to the surroundings what a command needs of them. -/
def prepare (c : Command) (s : Surroundings) : IO Surroundings := do
  let .ok settings := s.settings | return s
  let made ← match settings.logging.directory with
    | some path => ensureDirectory path
    | none => pure true
  let opened ← match settings.logging.directory with
    | some path => if made then openLog path s.now else pure false
    | none => pure true
  let input ← if opened && c.readsInput then (← IO.getStdin).readBinToEnd else pure s.input
  return { s with makeDirectory := fun _ => made, opensLog := fun _ => opened, input }

/-- The exit code of a run that a library stops. -/
def stoppedCode : UInt32 := 101

def conclude (outcome : Outcome) : IO UInt32 := do
  IO.print outcome.output
  if let some line := outcome.errorLine then IO.eprintln line
  return outcome.code.toUInt32

end Campaign

open Campaign in
def main (arguments : List String) : IO UInt32 := do
  let environment ← readEnvironment
  let now ← currentTime
  let bare : Surroundings := {
    environment, now
    settingsFile := ← readFileState environment.settingsPath
    makeDirectory := fun _ => false
    input := .empty
    entropy := ← randomSeed }
  let surroundings ← match Request.ofArguments? arguments with
    | some (.command c) => prepare c bare
    | some _ => pure bare
    | none => do
      IO.eprint usageText
      pure bare
  match run? arguments surroundings with
  | some outcome => conclude outcome
  | none => do
    -- A choice that never settles does not come back, so the log stopped this run.
    IO.eprintln "failed to open the log file"
    return stoppedCode
