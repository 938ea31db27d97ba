import ShellAlias.Home
import ShellAlias.Session
import ShellAlias.Settings.File

namespace ShellAlias.CommandLine

structure Surroundings where
  arguments : List Text
  home : Option (List UInt8)
  file : Text → SettingsFile
  input : List UInt8

structure Result where
  code : Nat := 0
  out : Text := []
  err : Text := []
  deriving DecidableEq, Repr

def versionLine : Text := Text.line "shalias v0.3.0".toList

def help : Text :=
  List.flatMap (fun line : String => Text.line line.toList) [
    "shalias v0.3.0 - shell alias expansion",
    "",
    "USAGE:",
    "  shalias                  Read lines from stdin and expand them",
    "  shalias --config         Show the settings file path",
    "  shalias --settings       Show the effective settings",
    "  shalias --version        Show the version",
    "  shalias --help           Show this help",
    "",
    "BUILTINS (one per input line):",
    "  alias                    List all aliases",
    "  alias <name>             Show one alias",
    "  alias <name>=<value>     Define an alias",
    "  alias <name> <value>     Define an alias",
    "  unalias <name>...        Remove aliases",
    "  complete [prefix]        List alias names starting with prefix",
    "",
    "Any other line is printed with its aliases expanded.",
    "Prefix a word with '\\' to keep it from being expanded.",
    "",
    "EXAMPLES:",
    "  printf 'alias ll=ls -la\\nll /tmp\\n' | shalias",
    "  RUST_LOG=debug shalias < script.sh"]

inductive Command where
  | run
  | help
  | version
  | settingsPath
  | settings
  deriving DecidableEq, Repr

inductive Failure where
  | surplusArguments (option : Text)
  | unknownOption (option : Text)
  | missingHome
  | settings (error : SettingsError)
  | invalidInput
  deriving DecidableEq, Repr

def Failure.message : Failure → Text
  | .surplusArguments option => option ++ " does not accept options".toList
  | .unknownOption option => "Unknown option: ".toList ++ option
  | .missingHome => missingHomeMessage
  | .settings error =>
    "Failed to load settings: ".toList ++ error.message ++ ": ".toList ++ error.cause
  | .invalidInput => "Failed to read input: ".toList ++ Text.invalidBytesMessage

def fail (failure : Failure) : Result :=
  { code := 1, err := Text.line ("Error: ".toList ++ failure.message) }

def Command.ofOption? (option : Text) : Option Command :=
  if option = "--help".toList ∨ option = "-h".toList then some .help
  else if option = "--version".toList ∨ option = "-V".toList then some .version
  else if option = "--config".toList then some .settingsPath
  else if option = "--settings".toList then some .settings
  else none

/-- Any second argument is refused, whatever the first one is. -/
def Command.ofArguments : List Text → Except Failure Command
  | [] => .ok .run
  | [option] =>
    match ofOption? option with
    | some command => .ok command
    | none => .error (.unknownOption option)
  | option :: _ => .error (.surplusArguments option)

/-- The settings in the user's home. A user without a home has the defaults. -/
def loadSettings (format : Settings.Format) (around : Surroundings) : Except Failure Settings :=
  match Home.ofEnvironment around.home with
  | none => .ok {}
  | some home =>
    let path := Home.settingsPath home
    match format.load path (around.file path) with
    | .ok settings => .ok settings
    | .error error => .error (.settings error)

/-- Runs lines in turn. One that is no UTF-8 stops the run there. A line that
fails does not, but the run has failed then. -/
def runLines (session : Session) : List (List UInt8) → Result
  | [] => {}
  | bytes :: others =>
    match Text.ofBytes? bytes with
    | none => fail .invalidInput
    | some line =>
      let turn := session.runLine line
      let later := runLines turn.session others
      { code := if turn.reply.ok then later.code else 1
        out := turn.reply.out ++ later.out
        err := turn.reply.err ++ later.err }

def feed : UInt8 := 0x0A

def ret : UInt8 := 0x0D

def runInput (format : Settings.Format) (around : Surroundings) : Result :=
  match loadSettings format around with
  | .error failure => fail failure
  | .ok settings =>
    let (session, _) :=
      Session.start settings CommandPosition.shell (Home.ofEnvironment around.home)
    runLines session (Lines.split feed ret around.input)

def runWith (format : Settings.Format) (around : Surroundings) : Result :=
  match Command.ofArguments around.arguments with
  | .error failure => fail failure
  | .ok .run => runInput format around
  | .ok .help => { out := help }
  | .ok .version => { out := versionLine }
  | .ok .settingsPath =>
    match Home.ofEnvironment around.home with
    | none => fail .missingHome
    | some home => { out := Text.line (Home.settingsPath home) }
  | .ok .settings =>
    match loadSettings format around with
    | .error failure => fail failure
    | .ok settings => { out := Text.line (format.write .indented settings) }

def run (around : Surroundings) : Result := runWith Settings.json around

end ShellAlias.CommandLine
