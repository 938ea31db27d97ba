import ShellAlias.Proofs.Json.Value
import ShellAlias.Settings.File

namespace ShellAlias

open Json

/-- The values that stand for an expansion mode: an object with its name and, if it has
one, its cap before or behind the name. -/
inductive ExpansionMode.HasValue : ExpansionMode → Value → Prop where
  | singlePass : HasValue .singlePass
      (.object [(ModeName.memberName, .string (ModeName.name .singlePass))])
  | fixedPoint {cap : Nat} {members : List (Text × Scalar)} (hcap : cap < Nat.pow 2 64)
      (horder : members = [(ModeName.memberName, .string (ModeName.name .fixedPoint)),
          (ModeName.capName, .natural cap)] ∨
        members = [(ModeName.capName, .natural cap),
          (ModeName.memberName, .string (ModeName.name .fixedPoint))]) :
      HasValue (.fixedPoint cap) (.object members)

namespace Settings

/-- The values that stand for what settings have for a member, by its type. -/
inductive HasValue (settings : Settings) : Member → Value → Prop where
  | maxKeyLength (hn : settings.maxKeyLength < Nat.pow 2 64) :
      HasValue settings .maxKeyLength (.scalar (.natural settings.maxKeyLength))
  | maxValueLength (hn : settings.maxValueLength < Nat.pow 2 64) :
      HasValue settings .maxValueLength (.scalar (.natural settings.maxValueLength))
  | truncation : HasValue settings .truncation (.scalar (.string settings.truncation.name))
  | expansion {value : Value} (h : settings.expansion.HasValue value) :
      HasValue settings .expansion value
  | homeAlias : HasValue settings .homeAlias (.scalar (.boolean settings.homeAlias))

structure Representable (settings : Settings) : Prop where
  key : settings.maxKeyLength < Nat.pow 2 64
  value : settings.maxValueLength < Nat.pow 2 64
  cap : ∀ cap, settings.expansion = .fixedPoint cap → cap < Nat.pow 2 64

def assign (others settings : Settings) : Member → Settings
  | .maxKeyLength => { settings with maxKeyLength := others.maxKeyLength }
  | .maxValueLength => { settings with maxValueLength := others.maxValueLength }
  | .truncation => { settings with truncation := others.truncation }
  | .expansion => { settings with expansion := others.expansion }
  | .homeAlias => { settings with homeAlias := others.homeAlias }

/-- What is relied on of the rule by which members are taken for settings. Without any there
are the defaults. One with an unknown name is passed, whatever its value is. One with
a known name that has not come before gives the settings its value. -/
structure TakesMembers (take? : List (Text × Value) → Option Settings) : Prop where
  none : take? [] = some {}
  unknown : ∀ members name value, (∀ member : Member, name ≠ member.name) →
    take? (members ++ [(name, value)]) = take? members
  known : ∀ members settings others member value, take? members = some settings →
    member.name ∉ members.map Prod.fst → HasValue others member value →
    take? (members ++ [(member.name, value)]) = some (assign others settings member)

/-- What is relied on of the rule by which settings are given as members: there is one for
each name, in order, and its value stands for what the settings have. -/
structure GivesMembers (give : Settings → List (Text × Value)) : Prop where
  names : ∀ settings, (give settings).map Prod.fst = Member.all.map Member.name
  values : ∀ settings, settings.Representable → ∀ member value,
    (Member.name member, value) ∈ give settings → settings.HasValue member value

/-- What is relied on of a reader: an object is read as the settings that its members are
taken for, with any space that may stand in it and around it. -/
def Format.ReadsObjects (format : Format) (take? : List (Text × Value) → Option Settings) :
    Prop :=
  ∀ members settings before object after, take? members = some settings → IsSpace before →
    IsObjectOf Value.IsWritten members object → IsSpace after →
    format.read (before ++ (object ++ after)) = .ok settings

/-- What is relied on of a writer: what it writes in any layout is an object with the
members that the settings are given as. -/
def Format.WritesObjects (format : Format) (give : Settings → List (Text × Value)) : Prop :=
  ∀ layout settings, settings.Representable →
    IsObjectOf Value.IsWritten (give settings) (format.write layout settings)

theorem Format.load_of_read {format : Format} {settings : Settings} {text : Text}
    (h : format.read text = .ok settings) (path : Text) :
    format.load path (.content (Text.bytes text)) = .ok settings := by
  simp only [load,SettingsFile.text?,Text.ofBytes?_bytes,h]

end Settings
end ShellAlias
