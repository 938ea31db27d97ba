import ShellAlias.Settings.Basic
import ShellAlias.Text.Basic

namespace ShellAlias

/-- The members of the settings, in the order in which they are written. -/
inductive Member where
  | maxKeyLength
  | maxValueLength
  | truncation
  | expansion
  | homeAlias
  deriving DecidableEq, Repr

namespace Member

def all : List Member := [.maxKeyLength, .maxValueLength, .truncation, .expansion, .homeAlias]

def name : Member → Text
  | .maxKeyLength => "max_key_len".toList
  | .maxValueLength => "max_value_len".toList
  | .truncation => "truncation".toList
  | .expansion => "expansion".toList
  | .homeAlias => "home_alias".toList

def ofName? (name : Text) : Option Member := all.find? fun member => member.name = name

end Member

namespace Truncation

def name : Truncation → Text
  | .truncate => "truncate".toList
  | .reject => "reject".toList

/-- The names in the order in which a complaint lists them. -/
def names : Text × Text := (name .truncate, name .reject)

def ofName? (word : Text) : Option Truncation :=
  if word = name .truncate then some .truncate
  else if word = name .reject then some .reject
  else none

end Truncation

inductive ModeName where
  | singlePass
  | fixedPoint
  deriving DecidableEq, Repr

namespace ModeName

def name : ModeName → Text
  | .singlePass => "single_pass".toList
  | .fixedPoint => "fixed_point".toList

/-- The names in the order in which a complaint lists them. -/
def names : Text × Text := (name .singlePass, name .fixedPoint)

def ofName? (word : Text) : Option ModeName :=
  if word = name .singlePass then some .singlePass
  else if word = name .fixedPoint then some .fixedPoint
  else none

def memberName : Text := "mode".toList

def capName : Text := "max_passes".toList

end ModeName
end ShellAlias
