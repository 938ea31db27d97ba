import ShellAlias.Text.Decoding

namespace ShellAlias.Home

/-- The home directory that the environment names. A name that is no UTF-8
counts as none. -/
def ofEnvironment (value : Option (List UInt8)) : Option Text := value.bind Text.ofBytes?

/-- A path below a directory. The empty directory is the current one. -/
def join (directory path : Text) : Text :=
  if directory = [] ∨ directory.getLast? = some '/' then directory ++ path
  else directory ++ '/' :: path

def settingsPath (home : Text) : Text :=
  join (join home ".shalias".toList) "settings.json".toList

end ShellAlias.Home
