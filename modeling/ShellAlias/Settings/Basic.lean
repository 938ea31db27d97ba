namespace ShellAlias

inductive Truncation where
  | truncate
  | reject
  deriving DecidableEq, Repr

inductive ExpansionMode where
  | singlePass
  | fixedPoint (maxPasses : Nat)
  deriving DecidableEq, Repr

/-- Limits count characters. -/
structure Settings where
  maxKeyLength : Nat := 50
  maxValueLength : Nat := 200
  truncation : Truncation := .truncate
  expansion : ExpansionMode := .singlePass
  homeAlias : Bool := true
  deriving DecidableEq, Repr

/-- A cap of no passes still allows one. -/
def ExpansionMode.passes : ExpansionMode → Nat
  | .singlePass => 1
  | .fixedPoint maxPasses => max maxPasses 1

inductive Part where
  | key
  | value
  deriving DecidableEq, Repr

def Settings.limit (settings : Settings) : Part → Nat
  | .key => settings.maxKeyLength
  | .value => settings.maxValueLength

end ShellAlias
