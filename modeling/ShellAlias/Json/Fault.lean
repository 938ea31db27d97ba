import ShellAlias.Json.Number
import ShellAlias.Text.Quoted

namespace ShellAlias

/-- A place in a text: lines from one, and the bytes since the line's start. -/
structure Position where
  line : Nat
  column : Nat
  deriving DecidableEq, Repr

def Position.after (bytes : List UInt8) : Position :=
  bytes.foldl (fun place byte =>
    if byte = 0x0A then ⟨place.line + 1,0⟩ else ⟨place.line,place.column + 1⟩) ⟨1,0⟩

namespace Json

inductive Found where
  | null
  | boolean (value : Bool)
  | number (value : Number)
  | string (value : Text)
  | list
  | object
  deriving DecidableEq, Repr

inductive Wanted where
  | length
  | boolean
  | unit
  | settings
  | expansion
  | modeName
  deriving DecidableEq, Repr

inductive Problem where
  | endInValue
  | endInObject
  | endInList
  | endInString
  | noValue
  | misspeltWord
  | noColon
  | noObjectEnd
  | noListEnd
  | noKey
  | trailingComma
  | trailingCharacters
  | invalidNumber
  | numberTooLarge
  | invalidEscape
  | controlCharacter
  | unpairedEscape
  | loneSurrogate
  | tooDeep
  | wrongType (found : Found) (wanted : Wanted)
  | negativeLength (n : Nat)
  | unknownName (name : Text) (known : Text × Text)
  | duplicateMember (name : Text)
  | missingMember (name : Text)
  | missingElement
  | surplusElements (found wanted : Nat)
  deriving DecidableEq, Repr

def Found.name : Found → Text
  | .null => "null".toList
  | .boolean true => "boolean `true`".toList
  | .boolean false => "boolean `false`".toList
  | .number (.natural n) => "integer `".toList ++ Text.decimal n ++ ['`']
  | .number (.negative n) => "integer `-".toList ++ Text.decimal n ++ ['`']
  | .number (.double isNegative magnitude) =>
    "floating point `".toList ++ doubleText isNegative magnitude ++ ['`']
  | .string value => "string ".toList ++ Text.quoted value
  | .list => "sequence".toList
  | .object => "map".toList

def Wanted.name : Wanted → Text
  | .length => "usize".toList
  | .boolean => "a boolean".toList
  | .unit => "unit".toList
  | .settings => "struct Settings".toList
  | .expansion => "internally tagged enum ExpansionMode".toList
  | .modeName => "variant identifier".toList

def backquoted (name : Text) : Text := '`' :: name ++ ['`']

def Problem.message : Problem → Text
  | .endInValue => "EOF while parsing a value".toList
  | .endInObject => "EOF while parsing an object".toList
  | .endInList => "EOF while parsing a list".toList
  | .endInString => "EOF while parsing a string".toList
  | .noValue => "expected value".toList
  | .misspeltWord => "expected ident".toList
  | .noColon => "expected `:`".toList
  | .noObjectEnd => "expected `,` or `\x7d`".toList
  | .noListEnd => "expected `,` or `]`".toList
  | .noKey => "key must be a string".toList
  | .trailingComma => "trailing comma".toList
  | .trailingCharacters => "trailing characters".toList
  | .invalidNumber => "invalid number".toList
  | .numberTooLarge => "number out of range".toList
  | .invalidEscape => "invalid escape".toList
  | .controlCharacter =>
    "control character (\\u0000-\\u001F) found while parsing a string".toList
  | .unpairedEscape => "unexpected end of hex escape".toList
  | .loneSurrogate => "lone leading surrogate in hex escape".toList
  | .tooDeep => "recursion limit exceeded".toList
  | .wrongType found wanted =>
    "invalid type: ".toList ++ found.name ++ ", expected ".toList ++ wanted.name
  | .negativeLength n =>
    "invalid value: integer `-".toList ++ Text.decimal n ++ "`, expected ".toList ++
      Wanted.name .length
  | .unknownName name known =>
    "unknown variant ".toList ++ backquoted name ++ ", expected ".toList ++
      backquoted known.1 ++ " or ".toList ++ backquoted known.2
  | .duplicateMember name => "duplicate field ".toList ++ backquoted name
  | .missingMember name => "missing field ".toList ++ backquoted name
  | .missingElement =>
    "invalid length 0, expected struct variant ExpansionMode::FixedPoint with 1 element".toList
  | .surplusElements found wanted =>
    "invalid length ".toList ++ Text.decimal found ++ ", expected ".toList ++
      Text.decimal wanted ++ (if wanted = 1 then " element" else " elements").toList ++
      " in sequence".toList

/-- A problem with its place: the text after the place, and how many bytes of
that text were already looked at. -/
structure Fault where
  problem : Problem
  rest : Text
  looked : Nat := 0
  deriving DecidableEq, Repr

/-- Where a fault lies in a text. What was looked at counts as passed, up to the
end of the text. -/
def Fault.position (fault : Fault) (text : Text) : Position :=
  Position.after ((Text.bytes text).take
    (Text.size text - Text.size fault.rest + fault.looked))

abbrev Step (α : Type) := Except Fault (α × Text)

/-- Gives up at the first byte of a text, or at its end. -/
def refuse {α : Type} (problem : Problem) (rest : Text) : Except Fault α :=
  .error ⟨problem,rest,1⟩

/-- Gives up after what was read. -/
def giveUp {α : Type} (problem : Problem) (rest : Text) : Except Fault α :=
  .error ⟨problem,rest,0⟩

end Json
end ShellAlias
