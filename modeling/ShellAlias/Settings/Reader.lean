import ShellAlias.Json.Skip
import ShellAlias.Json.Tree
import ShellAlias.Settings.Member

namespace ShellAlias

open Json

namespace Settings

/-- How many brackets may be open at once, that of the settings included, in
what is not just skipped. -/
def depthLimit : Nat := 127

def readLength (text : Text) : Step Nat :=
  match token text with
  | .error fault => .error fault
  | .ok (.number (.natural n), rest) => .ok (n, rest)
  | .ok (.number (.negative n), rest) => giveUp (.negativeLength n) rest
  | .ok (found, rest) => mistyped .length text found rest

def readBoolean (text : Text) : Step Bool :=
  match token text with
  | .error fault => .error fault
  | .ok (.boolean value, rest) => .ok (value, rest)
  | .ok (found, rest) => mistyped .boolean text found rest

def readNull (text : Text) : Step Unit :=
  match token text with
  | .error fault => .error fault
  | .ok (.null, rest) => .ok ((), rest)
  | .ok (found, rest) => mistyped .unit text found rest

def readName {α : Type} (ofName? : Text → Option α) (names : Text × Text) (text : Text) :
    Step α :=
  match token text with
  | .error fault => .error fault
  | .ok (.string word, rest) =>
    match ofName? word with
    | some value => .ok (value, rest)
    | none => giveUp (.unknownName word names) rest
  | .ok (found, rest) => mistyped .modeName text found rest

def readTruncationKey (text : Text) : Step Truncation :=
  match skipSpace text with
  | [] => giveUp .endInObject []
  | c :: rest =>
    if c = '"' then readName Truncation.ofName? Truncation.names (c :: rest)
    else if c = '\x7d' then refuse .noValue (c :: rest)
    else refuse .noKey (c :: rest)

/-- Reads a truncation policy in an object, after the bracket. The name is the
key of its one member, and the value is null. -/
def readTruncationObject (text : Text) : Step Truncation :=
  match readTruncationKey text with
  | .error fault => .error fault
  | .ok (value, rest) =>
    match colon rest with
    | .error fault => .error fault
    | .ok rest =>
      match readNull rest with
      | .error fault => .error fault
      | .ok ((), rest) =>
        match skipSpace rest with
        | [] => giveUp .endInObject []
        | '\x7d' :: rest => .ok (value, rest)
        | rest => giveUp .noValue rest

def readTruncation (text : Text) : Step Truncation :=
  match skipSpace text with
  | [] => giveUp .endInValue []
  | '"' :: _ => readName Truncation.ofName? Truncation.names text
  | '\x7b' :: rest => readTruncationObject rest
  | rest => refuse .noValue rest

def lengthOfTree : Tree → Except Problem Nat
  | .number (.natural n) => .ok n
  | .number (.negative n) => .error (.negativeLength n)
  | tree => .error (.wrongType tree.found .length)

/-- The cap among some members, which must be there once. -/
def capOfMembers : Option Nat → List (Text × Tree) → Except Problem Nat
  | none, [] => .error (.missingMember ModeName.capName)
  | some cap, [] => .ok cap
  | seen, (key, tree) :: others =>
    if key = ModeName.capName then
      match seen, lengthOfTree tree with
      | some _, _ => .error (.duplicateMember ModeName.capName)
      | none, .error problem => .error problem
      | none, .ok cap => capOfMembers (some cap) others
    else capOfMembers seen others

/-- A mode with the members beside its name. Those that it does not need are
ignored. -/
def modeOfMembers : ModeName → List (Text × Tree) → Except Problem ExpansionMode
  | .singlePass, _ => .ok .singlePass
  | .fixedPoint, others => (capOfMembers none others).map .fixedPoint

def modeOfElements : ModeName → List Tree → Except Problem ExpansionMode
  | .singlePass, [] => .ok .singlePass
  | .singlePass, others => .error (.surplusElements others.length 0)
  | .fixedPoint, [] => .error .missingElement
  | .fixedPoint, tree :: others =>
    match lengthOfTree tree with
    | .error problem => .error problem
    | .ok cap =>
      if others = [] then .ok (.fixedPoint cap)
      else .error (.surplusElements (1 + others.length) 1)

structure ModeParts where
  name : Option ModeName := none
  others : List (Text × Tree) := []

/-- Reads a member of an expansion. The name of the mode may come anywhere. -/
def readModePart (parts : ModeParts) (key text : Text) : Step ModeParts :=
  if key = ModeName.memberName then
    if parts.name.isSome then giveUp (.duplicateMember ModeName.memberName) (leaveObject text)
    else
      match colon text with
      | .error fault => .error fault
      | .ok rest => (readName ModeName.ofName? ModeName.names rest).map fun (name, rest) =>
        ({ parts with name := some name }, rest)
  else
    (Tree.readMember (Tree.read (depthLimit - 2)) parts.others key text).map
      fun (others, rest) => ({ parts with others }, rest)

/-- Reads an expansion mode: an object with the name as a member, or a list with
the name as first element. What is read may still be wrong, which is told after
what follows it. -/
def readExpansion (text : Text) : Step (Except Problem ExpansionMode) :=
  match token text with
  | .error fault => .error fault
  | .ok (.openObject, rest) =>
    match members readModePart {} rest with
    | .error fault => .error fault
    | .ok (parts, rest) =>
      match parts.name with
      | none => giveUp (.missingMember ModeName.memberName) rest
      | some name => .ok (modeOfMembers name parts.others, rest)
  | .ok (.openList, rest) =>
    match nextElement true rest with
    | .error fault => .error fault
    | .ok (.closed rest) => giveUp (.missingMember ModeName.memberName) rest
    | .ok (.element rest) =>
      match readName ModeName.ofName? ModeName.names rest with
      | .error fault => .error fault
      | .ok (name, rest) =>
        (elements (Tree.readElement (Tree.read (depthLimit - 2))) false [] rest).map
          fun (others, rest) => (modeOfElements name others, rest)
  | .ok (found, rest) => mistyped .expansion text found rest

/-- Reads the value of a member. `leave` says where the container is left if the
value of an expansion is wrong. -/
def readMember (leave : Text → Text) (settings : Settings) (member : Member) (text : Text) :
    Step Settings :=
  match member with
  | .maxKeyLength => (readLength text).map fun (n, rest) =>
    ({ settings with maxKeyLength := n }, rest)
  | .maxValueLength => (readLength text).map fun (n, rest) =>
    ({ settings with maxValueLength := n }, rest)
  | .truncation => (readTruncation text).map fun (truncation, rest) =>
    ({ settings with truncation }, rest)
  | .expansion =>
    match readExpansion text with
    | .error fault => .error fault
    | .ok (.error problem, rest) => giveUp problem (leave rest)
    | .ok (.ok expansion, rest) => .ok ({ settings with expansion }, rest)
  | .homeAlias => (readBoolean text).map fun (homeAlias, rest) =>
    ({ settings with homeAlias }, rest)

structure Reading where
  settings : Settings := {}
  seen : List Member := []

def readNamed (read : Reading) (key text : Text) : Step Reading :=
  match Member.ofName? key with
  | none =>
    match colon text with
    | .error fault => .error fault
    | .ok rest => (skip rest).map fun rest => (read, rest)
  | some member =>
    if member ∈ read.seen then giveUp (.duplicateMember member.name) (leaveObject text)
    else
      match colon text with
      | .error fault => .error fault
      | .ok rest => (readMember leaveObject read.settings member rest).map
        fun (settings, rest) => (⟨settings,member :: read.seen⟩, rest)

/-- Reads the elements of a list that stand for some members in order. A list
that ends early leaves the others as they are. -/
def readOrdered (first : Bool) (settings : Settings) : List Member → Text → Step Settings
  | [], text => (endList text).map fun rest => (settings, rest)
  | member :: members, text =>
    match nextElement first text with
    | .error fault => .error fault
    | .ok (.closed rest) => .ok (settings, rest)
    | .ok (.element rest) =>
      match readMember leaveList settings member rest with
      | .error fault => .error fault
      | .ok (settings, rest) => readOrdered false settings members rest

/-- Reads settings: an object, or a list of the members in order. Members that
are left out have their default. -/
def readSettings (text : Text) : Step Settings :=
  match token text with
  | .error fault => .error fault
  | .ok (.openObject, rest) =>
    (members readNamed {} rest).map fun (read, rest) => (read.settings, rest)
  | .ok (.openList, rest) => readOrdered true {} Member.all rest
  | .ok (found, rest) => mistyped .settings text found rest

def parse (text : Text) : Except Fault Settings :=
  match readSettings text with
  | .error fault => .error fault
  | .ok (settings, rest) =>
    match skipSpace rest with
    | [] => .ok settings
    | rest => refuse .trailingCharacters rest

end Settings
end ShellAlias
