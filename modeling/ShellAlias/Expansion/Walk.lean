import ShellAlias.Text.Basic

namespace ShellAlias

/-- Visits the occurrences of `key` in `rest` from left to right. `done` is
what has become of the text before, and `step` says what becomes of it and the
next occurrence together. Neither is searched again. -/
def walk {α : Type} (key : Text) (step : (before after : Text) → α × Text)
    (done rest : Text) : List α × Text :=
  match _found : Text.cutFirst? key rest with
  | none => ([], done ++ rest)
  | some (between, after) =>
    let (seen, done) := step (done ++ between) after
    let (others, text) := walk key step done after
    (seen :: others, text)
termination_by rest.length
decreasing_by exact Text.cutFirst?_length _found

end ShellAlias
