import ShellAlias.Event

namespace ShellAlias

structure Expansion where
  text : Text
  log : List Event
  deriving DecidableEq, Repr

namespace Expansion

/-- Passes that were made one after the other. `settled` says that the last one
replaced nothing. -/
structure Run where
  visits : List Visit
  text : Text
  settled : Bool
  deriving DecidableEq, Repr

/-- Repeats a pass until one replaces nothing, at most `n` times. -/
def repeatPass (pass : Text → Pass) : Nat → Text → Run
  | 0, text => ⟨[],text,false⟩
  | n + 1, text =>
    let first := pass text
    if first.substitutions = 0 then ⟨first.visits,first.text,true⟩
    else
      let others := repeatPass pass n first.text
      ⟨first.visits ++ others.visits,others.text,others.settled⟩

/-- Expands a line. A single pass drops the backslashes of escaped keys as it
meets them; repeated passes keep them until the line has settled. -/
def expand (position : CommandPosition) (mode : ExpansionMode) (entries : List Entry)
    (input : Text) : Expansion :=
  match mode with
  | .singlePass =>
    let pass := Pass.ofEntries position .drop entries input
    ⟨pass.text,pass.visits.map .visited ++ [.resolved pass.text]⟩
  | .fixedPoint _ =>
    let run := repeatPass (Pass.ofEntries position .keep entries) mode.passes input
    let text := unescapeAll (entries.map Entry.key) run.text
    let warning := if run.settled then [] else [.unsettled mode.passes]
    ⟨text,run.visits.map .visited ++ warning ++ [.resolved text]⟩

end Expansion
end ShellAlias
