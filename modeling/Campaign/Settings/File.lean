import Campaign.Settings.Reader

/-!
# Settings from a file

A file that does not exist gives the defaults. One that is there must be readable, in UTF-8, and a
document of settings.
-/

namespace Campaign

/-- What is found where a file is looked for. -/
inductive FileState where
  | missing
  | unreadable (reason : String)
  | bytes (content : ByteArray)

/-- Why settings cannot be had from a file. -/
inductive SettingsError where
  | unreadable (path reason : String)
  | malformed (path : String)

def SettingsError.message : SettingsError → String
  | unreadable path reason => "failed to read config at " ++ path ++ ": " ++ reason
  | malformed path => "failed to parse config at " ++ path

/-- Why a directory cannot be read as a file. -/
def isDirectory : String := "Is a directory (os error 21)"

/-- Why a file that is not in UTF-8 cannot be read. -/
def notUtf8 : String := "stream did not contain valid UTF-8"

def Settings.load (path : String) : FileState → Except SettingsError Settings
  | .missing => .ok {}
  | .unreadable reason => .error (.unreadable path reason)
  | .bytes content =>
    match String.fromUTF8? content with
    | none => .error (.unreadable path notUtf8)
    | some text =>
      match Settings.read? text with
      | none => .error (.malformed path)
      | some settings => .ok settings

end Campaign
