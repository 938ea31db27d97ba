import ShellAlias.CommandLine

namespace ShellAlias.Main

def lookAt (path : String) : IO SettingsFile := do
  try
    let content ← IO.FS.readBinFile path
    pure (.content content.toList)
  catch
    | .noFileOrDirectory _ _ _ => pure .absent
    | .inappropriateType _ _ _ => pure .directory
    | error => throw error

def settingsFile (home : Option (List UInt8)) : IO SettingsFile :=
  match Home.ofEnvironment home with
  | none => pure .absent
  | some home => lookAt (String.ofList (Home.settingsPath home))

/-- Input is read only by a run that has no option. -/
def input (arguments : List String) : IO (List UInt8) := do
  if arguments.isEmpty then
    let bytes ← (← IO.getStdin).readBinToEnd
    pure bytes.toList
  else pure []

end ShellAlias.Main

open ShellAlias in
def main (arguments : List String) : IO UInt32 := do
  let home := (← IO.getEnv "HOME").map fun home => Text.bytes home.toList
  let file ← Main.settingsFile home
  let result := CommandLine.run
    { arguments := arguments.map String.toList
      home
      file := fun _ => file
      input := ← Main.input arguments }
  (← IO.getStdout).putStr (String.ofList result.out)
  (← IO.getStderr).putStr (String.ofList result.err)
  pure (UInt32.ofNat result.code)
