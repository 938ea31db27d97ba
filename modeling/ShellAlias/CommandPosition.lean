import ShellAlias.Text.Blank

namespace ShellAlias

/-- Decides whether a command word stands at a byte index of a context, where
an occurrence of the key was found. -/
abbrev CommandPosition := (key context : Text) → (index : Nat) → Bool

namespace CommandPosition

def isSeparator (c : Char) : Bool :=
  c = '|' || c = ';' || c = '&' || c = '(' || c = '{' || c = '`' || c = '!' || c = '\n'

def isTerminator (c : Char) : Bool :=
  c = '|' || c = ';' || c = '&' || c = ')' || c = '<' || c = '>' || c = '`'

def startsCommand (before : Text) : Bool :=
  (Text.trimEnd (fun c => c = ' ' || c = '\t') before).getLast?.all isSeparator

def endsWord (after : Text) : Bool := after.head?.all fun c => isBlank c || isTerminator c

/-- The shell's rule: a whole word at the start of a command. The characters
between the index and the end of the key are not compared with the key. -/
def shell : CommandPosition := fun key context index =>
  match Text.splitAtByte? index context, Text.splitAtByte? (index + Text.size key) context with
  | some (before, _), some (_, after) => startsCommand before && endsWord after
  | _, _ => false

end CommandPosition
end ShellAlias
