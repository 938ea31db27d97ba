import ShellAlias.Json.Literal
import ShellAlias.Json.Numeral

namespace ShellAlias.Json

def isSpace (c : Char) : Bool := c = ' ' || c = '\t' || c = '\n' || c = '\r'

def skipSpace (text : Text) : Text := text.dropWhile isSpace

theorem skipSpace_length (text : Text) : (skipSpace text).length ≤ text.length := by
  induction text with
  | nil => simp [skipSpace]
  | cons c text ih =>
    simp only [skipSpace,List.dropWhile_cons,List.length_cons] at ih ⊢
    split
    · omega
    · simp

/-- What a value starts with: all of it, or the bracket of a list or an object. -/
inductive Token where
  | null
  | boolean (value : Bool)
  | number (value : Number)
  | string (value : Text)
  | openList
  | openObject
  deriving DecidableEq, Repr

def Token.found : Token → Found
  | .null => .null
  | .boolean value => .boolean value
  | .number value => .number value
  | .string value => .string value
  | .openList => .list
  | .openObject => .object

def tokenHere (text : Text) : Step Token :=
  match text with
  | [] => giveUp .endInValue []
  | c :: rest =>
    if c = 'n' then (word "ull".toList rest).map fun rest => (.null, rest)
    else if c = 't' then (word "rue".toList rest).map fun rest => (.boolean true, rest)
    else if c = 'f' then (word "alse".toList rest).map fun rest => (.boolean false, rest)
    else if c = '-' ∨ c.isDigit then (number text).map fun (value, rest) => (.number value, rest)
    else if c = '"' then (string rest).map fun (value, rest) => (.string value, rest)
    else if c = '[' then .ok (.openList, rest)
    else if c = '{' then .ok (.openObject, rest)
    else refuse .noValue text

def token (text : Text) : Step Token := tokenHere (skipSpace text)

/-- The fault of a token that is not what is wanted. A bracket counts as not
read yet. -/
def mistyped {α : Type} (wanted : Wanted) (start : Text) (token : Token) (rest : Text) :
    Except Fault α :=
  match token with
  | .openList => giveUp (.wrongType .list wanted) (skipSpace start)
  | .openObject => giveUp (.wrongType .object wanted) (skipSpace start)
  | token => giveUp (.wrongType token.found wanted) rest

end ShellAlias.Json
