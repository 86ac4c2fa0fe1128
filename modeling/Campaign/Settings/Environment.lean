import Campaign.Number.Decimal
import Campaign.Settings.Basic

/-!
# Settings from the environment

Variables of the environment take the place of settings, each on its own: a value that a setting
cannot take is passed over and leaves the setting as it was.
-/

namespace Campaign

/-- The variables that are set and their values. -/
abbrev Environment := String → Option String

/-- The value of a variable as a delay: a double that is finite and not below zero. -/
def Environment.delay? (env : Environment) (name : String) : Option Float := do
  let value ← env name
  let x ← readFloat? value.toList
  if x.isFinite && 0.0 ≤ x then some x else none

def Environment.timing? (env : Environment) (name : String) : Option Timing := do
  let word ← env name
  (Timing.ofWord word).toOption

def LogSettings.override (s : LogSettings) (env : Environment) : LogSettings where
  level := (env "SPINWHEEL_LOG_LEVEL").getD s.level
  directory := (env "SPINWHEEL_LOG_DIR").or s.directory

def LaunchSettings.override (s : LaunchSettings) (env : Environment) : LaunchSettings where
  timing := (env.timing? "SPINWHEEL_TIMING").getD s.timing
  shortestDelay := (env.delay? "SPINWHEEL_MIN_DELAY_SECS").getD s.shortestDelay
  longestDelay := (env.delay? "SPINWHEEL_MAX_DELAY_SECS").getD s.longestDelay
  autoDelay := (env.delay? "SPINWHEEL_AUTO_DELAY_SECS").getD s.autoDelay
  confirmBelow := s.confirmBelow

/-- The settings with the environment's values in their place. -/
def Settings.override (s : Settings) (env : Environment) : Settings where
  logging := s.logging.override env
  launch := s.launch.override env
  accounts := s.accounts

/-- The file that settings are read from: the one the environment names, or the default one. -/
def Environment.settingsPath (env : Environment) : String :=
  (env "SPINWHEEL_CONFIG_PATH").getD "spinwheel.toml"

end Campaign
