import ShellAlias.Table.Basic
import ShellAlias.Text.Blank
import ShellAlias.Text.Lines

namespace ShellAlias

namespace Listing

def opening : Text := "alias ".toList

def separator : Text := " = '".toList

/-- The line that shows an alias. Nothing in the value is escaped. -/
def line (entry : Entry) : Text := opening ++ entry.key ++ separator ++ entry.value ++ ['\'']

/-- Reads a line back. The key ends at the first separator and the value at the
end of the line, so a value may hold quotes and separators. -/
def entryOfLine? (line : Text) : Option Entry := do
  let rest ← Text.stripStart? opening line
  let (key, quoted) ← Text.cutFirst? separator rest
  let value ← Text.stripEnd? '\'' quoted
  if key = [] then none else some ⟨key,value⟩

def parse (line : Text) : Except AliasError Entry :=
  match entryOfLine? line with
  | some entry => .ok entry
  | none => .error (.malformedListing line)

end Listing

namespace Table

def listing (table : Table) : Text :=
  table.entries.flatMap fun entry => Text.line (Listing.line entry)

/-- Restores the lines in turn, up to the first that fails. What was restored
before it stays. -/
def replayLines (table : Table) : List Text → Outcome Table Nat
  | [] => { result := .ok 0, state := table }
  | line :: lines =>
    match Listing.parse line with
    | .error error => { result := .error error, state := table }
    | .ok entry =>
      let first := table.restore entry.key entry.value
      match first.result with
      | .error error => { result := .error error, state := first.state, log := first.log }
      | .ok () =>
        let others := replayLines first.state lines
        { result := others.result.map (· + 1)
          state := others.state
          log := first.log ++ others.log }

/-- Restores the aliases of a listing and counts them. Blank lines are passed
over. -/
def replay (table : Table) (listing : Text) : Outcome Table Nat :=
  table.replayLines ((Text.lines listing).filter fun line => !Text.isBlankText line)

end Table
end ShellAlias
