import ShellAlias.Text.Basic

namespace ShellAlias.Lines

/-- The pieces that a terminator closes, each without it, and the piece that is
still open at the end. -/
def segments {α : Type} [DecidableEq α] (terminator : α) : List α → List (List α) × List α
  | [] => ([], [])
  | x :: xs =>
    let (closed, last) := segments terminator xs
    if x = terminator then ([] :: closed, last)
    else
      match closed with
      | [] => ([], x :: last)
      | segment :: others => ((x :: segment) :: others, last)

def dropReturn {α : Type} [DecidableEq α] (ret : α) (line : List α) : List α :=
  if line.getLast? = some ret then line.dropLast else line

/-- Lines end in a line feed, or in a return and a line feed. An open last
piece is a line too unless it is empty, and a return at its end belongs to it. -/
def split {α : Type} [DecidableEq α] (feed ret : α) (xs : List α) : List (List α) :=
  let (closed, last) := segments feed xs
  closed.map (dropReturn ret) ++ if last = [] then [] else [last]

end ShellAlias.Lines

namespace ShellAlias.Text

def lines (text : Text) : List Text := Lines.split '\n' '\r' text

end ShellAlias.Text
