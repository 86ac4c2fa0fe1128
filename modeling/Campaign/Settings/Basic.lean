import Campaign.Risk.Fleet
import Campaign.Text.Blank

/-!
# Settings

What can be set for a run: where it logs to, how launches are timed and gated, and the accounts of
the fleet. Everything has a default.
-/

namespace Campaign

open Risk

/-- How the delay between messages is set: between two bounds, or by the sender. -/
inductive Timing where
  | fixed
  | auto
  deriving Repr, DecidableEq

/-- The timing that a word names, blanks at its edges and the case of its letters aside; or else the
word that names none. -/
def Timing.ofWord (word : String) : Except String Timing :=
  let name := String.ofList ((Text.trim word.toList).map Char.toLower)
  if name = "fixed" then .ok .fixed
  else if name = "auto" || name = "automatic" then .ok .auto
  else .error name

def Timing.errorMessage (name : String) : String := "unknown timing mode: " ++ name

def Timing.label : Timing → String
  | fixed => "fixed"
  | auto => "auto"

structure LogSettings where
  level : String := "info"
  /-- The directory for log files, or none to log to the console. -/
  directory : Option String := none

/-- The settings for launches, with delays in seconds. -/
structure LaunchSettings where
  timing : Timing := .fixed
  shortestDelay : Float := 30.0
  longestDelay : Float := 90.0
  autoDelay : Float := 45.0
  /-- The fleet health below which a launch must be confirmed. -/
  confirmBelow : Nat := 50

structure Settings where
  logging : LogSettings := {}
  launch : LaunchSettings := {}
  accounts : List Account := []

/-- The delay of launches. Bounds that are the wrong way round change places. -/
def LaunchSettings.delay (s : LaunchSettings) : Delay :=
  match s.timing with
  | .auto => .automatic s.autoDelay
  | .fixed =>
    if s.longestDelay < s.shortestDelay then .fixed s.longestDelay s.shortestDelay
    else .fixed s.shortestDelay s.longestDelay

end Campaign
