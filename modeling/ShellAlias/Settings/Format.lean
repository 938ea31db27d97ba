import ShellAlias.Settings.Printer
import ShellAlias.Settings.Reader

namespace ShellAlias.Settings

/-- How settings are read from a text and written as one. -/
structure Format where
  read : Text → Except Json.Fault Settings
  write : Layout → Settings → Text

def json : Format where
  read := parse
  write layout settings := settings.print layout

end ShellAlias.Settings
