import ShellAlias.Settings.Member

namespace ShellAlias

inductive Layout where
  | compact
  | indented
  deriving DecidableEq, Repr

namespace Layout

def newline : Layout → Nat → Text
  | .compact, _ => []
  | .indented, depth => '\n' :: List.replicate (2 * depth) ' '

def colon : Layout → Text
  | .compact => [':']
  | .indented => [':', ' ']

/-- A name in quotes. None of the names that are written needs an escape. -/
def string (name : Text) : Text := '"' :: name ++ ['"']

def object (layout : Layout) (depth : Nat) (parts : List (Text × Text)) : Text :=
  let written := parts.map fun (name, value) =>
    layout.newline (depth + 1) ++ string name ++ layout.colon ++ value
  '\x7b' :: List.intercalate [','] written ++ layout.newline depth ++ ['\x7d']

end Layout

namespace ExpansionMode

def parts : ExpansionMode → List (Text × Text)
  | .singlePass => [(ModeName.memberName, Layout.string (ModeName.name .singlePass))]
  | .fixedPoint maxPasses =>
    [(ModeName.memberName, Layout.string (ModeName.name .fixedPoint)),
      (ModeName.capName, Text.decimal maxPasses)]

end ExpansionMode

namespace Settings

def written (settings : Settings) (layout : Layout) : Member → Text
  | .maxKeyLength => Text.decimal settings.maxKeyLength
  | .maxValueLength => Text.decimal settings.maxValueLength
  | .truncation => Layout.string settings.truncation.name
  | .expansion => layout.object 1 settings.expansion.parts
  | .homeAlias => if settings.homeAlias then "true".toList else "false".toList

def print (settings : Settings) (layout : Layout) : Text :=
  layout.object 0 (Member.all.map fun member => (member.name, settings.written layout member))

end Settings
end ShellAlias
