import ShellAlias.Json.Container

namespace ShellAlias.Json

/-- A JSON value. Members keep their order and may repeat a key. -/
inductive Tree where
  | null
  | boolean (value : Bool)
  | number (value : Number)
  | string (value : Text)
  | list (elements : List Tree)
  | object (members : List (Text × Tree))

namespace Tree

def found : Tree → Found
  | .null => .null
  | .boolean value => .boolean value
  | .number value => .number value
  | .string value => .string value
  | .list _ => .list
  | .object _ => .object

def readElement (value : Text → Step Tree) (seen : List Tree) (text : Text) : Step (List Tree) :=
  (value text).map fun (tree, rest) => (seen ++ [tree], rest)

def readMember (value : Text → Step Tree) (seen : List (Text × Tree)) (key text : Text) :
    Step (List (Text × Tree)) :=
  match colon text with
  | .error fault => .error fault
  | .ok rest => (value rest).map fun (tree, rest) => (seen ++ [(key, tree)], rest)

/-- Reads a value in which no more than `depth` brackets are open at once. -/
def read : (depth : Nat) → Text → Step Tree
  | depth, text =>
    match token text with
    | .error fault => .error fault
    | .ok (.null, rest) => .ok (.null, rest)
    | .ok (.boolean value, rest) => .ok (.boolean value, rest)
    | .ok (.number value, rest) => .ok (.number value, rest)
    | .ok (.string value, rest) => .ok (.string value, rest)
    | .ok (.openList, rest) =>
      match depth with
      | 0 => refuse .tooDeep (skipSpace text)
      | depth + 1 =>
        (elements (readElement (read depth)) true [] rest).map fun (trees, rest) =>
          (.list trees, rest)
    | .ok (.openObject, rest) =>
      match depth with
      | 0 => refuse .tooDeep (skipSpace text)
      | depth + 1 =>
        (members (readMember (read depth)) [] rest).map fun (trees, rest) =>
          (.object trees, rest)

end Tree
end ShellAlias.Json
