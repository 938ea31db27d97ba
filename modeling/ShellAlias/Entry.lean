import ShellAlias.Settings.Basic
import ShellAlias.Text.Basic

namespace ShellAlias

structure Entry where
  key : Text
  value : Text
  deriving DecidableEq, Repr

inductive AliasError where
  | notFound (key : Text)
  | emptyKey
  | tooLong (part : Part) (length limit : Nat)
  | malformedListing (line : Text)
  deriving DecidableEq, Repr

def Part.name : Part → Text
  | .key => "key".toList
  | .value => "value".toList

def AliasError.message : AliasError → Text
  | .notFound key => "no such alias key: ".toList ++ key
  | .emptyKey => "invalid alias key: key must not be empty".toList
  | .tooLong part length limit =>
    "alias ".toList ++ part.name ++ " is ".toList ++ Text.decimal length ++
      " characters long (max ".toList ++ Text.decimal limit ++ ")".toList
  | .malformedListing line => "malformed alias listing line: ".toList ++ line

end ShellAlias
