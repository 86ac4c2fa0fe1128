/-!
# Logging to files

Logs go to files in a directory, which is made if it is not there, a file for each day of universal
time. A program logs to one place: once a log is installed, another is refused.
-/

namespace Campaign

/-- Why a log cannot be started. -/
inductive LogError where
  | directory (path : String)
  | alreadyInstalled

def LogError.message : LogError → String
  | directory path => "failed to create logs directory " ++ path
  | alreadyInstalled =>
    "failed to install log subscriber: a global default trace dispatcher has already been set"

/-- Starts a log in a directory, told whether the directory is there or could be made and whether
another log is installed. -/
def startLog (path : String) (made installed : Bool) : Except LogError Unit :=
  if !made then .error (.directory path)
  else if installed then .error .alreadyInstalled
  else .ok ()

structure CalendarDay where
  year : Int
  month : Int
  day : Int
  deriving Repr, DecidableEq

/-- The day of a time in seconds since the epoch. Years are counted from March, so that the leap day
comes last, and in cycles of 400, which all have the same number of days. -/
def CalendarDay.ofTime (seconds : Int) : CalendarDay :=
  let days := seconds / 86400 + 719468
  let cycle := days / 146097
  let inCycle := days % 146097
  let yearOfCycle := (inCycle - inCycle / 1460 + inCycle / 36524 - inCycle / 146096) / 365
  let inYear := inCycle - (365 * yearOfCycle + yearOfCycle / 4 - yearOfCycle / 100)
  let fromMarch := (5 * inYear + 2) / 153
  let month := if fromMarch < 10 then fromMarch + 3 else fromMarch - 9
  let year := cycle * 400 + yearOfCycle + if month ≤ 2 then 1 else 0
  ⟨year, month, inYear - (153 * fromMarch + 2) / 5 + 1⟩

/-- A number with zeros in front to a width. -/
def padded (width : Nat) (n : Int) : String :=
  let digits := toString n
  String.ofList (List.replicate (width - digits.length) '0') ++ digits

def logFileName (seconds : Int) : String :=
  let d := CalendarDay.ofTime seconds
  "spinwheel.log." ++ padded 4 d.year ++ "-" ++ padded 2 d.month ++ "-" ++ padded 2 d.day

end Campaign
