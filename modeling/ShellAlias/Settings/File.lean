import ShellAlias.Settings.Format
import ShellAlias.Text.Decoding

namespace ShellAlias

inductive SettingsFile where
  | absent
  | directory
  | content (bytes : List UInt8)
  deriving DecidableEq, Repr

inductive ReadFailure where
  | isDirectory
  | invalidBytes
  deriving DecidableEq, Repr

inductive SettingsError where
  | unreadable (path : Text) (failure : ReadFailure)
  | malformed (path : Text) (problem : Json.Problem) (position : Position)
  deriving DecidableEq, Repr

def ReadFailure.message : ReadFailure → Text
  | .isDirectory => "Is a directory (os error 21)".toList
  | .invalidBytes => Text.invalidBytesMessage

namespace SettingsError

def cause : SettingsError → Text
  | .unreadable _ failure => failure.message
  | .malformed _ problem position =>
    problem.message ++ " at line ".toList ++ Text.decimal position.line ++ " column ".toList ++
      Text.decimal position.column

def message : SettingsError → Text
  | .unreadable path failure =>
    "failed to read settings file ".toList ++ path ++ ": ".toList ++
      cause (.unreadable path failure)
  | .malformed path problem position =>
    "failed to parse settings file ".toList ++ path ++ ": ".toList ++
      cause (.malformed path problem position)

end SettingsError

namespace SettingsFile

def text? : SettingsFile → Except ReadFailure (Option Text)
  | .absent => .ok none
  | .directory => .error .isDirectory
  | .content bytes =>
    match Text.ofBytes? bytes with
    | some text => .ok (some text)
    | none => .error .invalidBytes

end SettingsFile

namespace Settings

/-- Loads settings from what is found at a path. Without a file there are the
defaults. -/
def Format.load (format : Format) (path : Text) (file : SettingsFile) :
    Except SettingsError Settings :=
  match file.text? with
  | .error failure => .error (.unreadable path failure)
  | .ok none => .ok {}
  | .ok (some text) =>
    match format.read text with
    | .ok settings => .ok settings
    | .error fault => .error (.malformed path fault.problem (fault.position text))

def load (path : Text) (file : SettingsFile) : Except SettingsError Settings :=
  json.load path file

end Settings
end ShellAlias
