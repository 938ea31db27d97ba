import ShellAlias.Expansion.Pass

namespace ShellAlias

inductive Event where
  | visited (visit : Visit)
  | unsettled (maxPasses : Nat)
  | resolved (text : Text)
  | cut (part : Part) (text : Text) (length limit : Nat)
  | cacheRefreshed (count : Nat)
  | homeRefused (error : AliasError)
  | homeMissing
  deriving DecidableEq, Repr

def missingHomeMessage : Text := "HOME environment variable not found".toList

def Visit.message (visit : Visit) : Text :=
  let shown := "'".toList ++ visit.key ++ "'".toList
  let found (verdict : String) : Text :=
    "alias: ".toList ++ shown ++ verdict.toList ++ " in context '".toList ++ visit.key ++
      visit.after ++ "'".toList
  match visit.occurrence with
  | .escaped => "alias: escaping ".toList ++ shown
  | .valid => found " VALID"
  | .invalid => found " INVALID"

def Event.message : Event → Text
  | .visited visit => "DEBUG ".toList ++ visit.message
  | .unsettled maxPasses =>
    "WARN alias expansion did not settle, giving up max_passes=".toList ++ Text.decimal maxPasses
  | .resolved text => "DEBUG alias: input resolved to: '".toList ++ text ++ "'".toList
  | .cut part text length limit =>
    "WARN alias ".toList ++ part.name ++ " truncated to '".toList ++ text ++ "' len=".toList ++
      Text.decimal length ++ " max=".toList ++ Text.decimal limit
  | .cacheRefreshed count =>
    "DEBUG alias key cache refreshed count=".toList ++ Text.decimal count
  | .homeRefused error => "WARN failed to seed home alias: ".toList ++ error.message
  | .homeMissing => "DEBUG no home alias: ".toList ++ missingHomeMessage

def Event.query? : Event → Option Query
  | .visited visit => visit.query?
  | _ => none

end ShellAlias
