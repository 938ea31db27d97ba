import ShellAlias.Json.Token

namespace ShellAlias.Json

inductive NextMember where
  | closed (rest : Text)
  | key (rest : Text)

inductive NextElement where
  | closed (rest : Text)
  | element (rest : Text)

/-- Looks for the next member. Only the first has no comma before it. -/
def nextMember (first : Bool) (text : Text) : Except Fault NextMember :=
  match skipSpace text with
  | [] => giveUp .endInObject []
  | c :: rest =>
    if c = '\x7d' then .ok (.closed rest)
    else if first then
      if c = '"' then .ok (.key rest) else refuse .noKey (c :: rest)
    else if c = ',' then
      match skipSpace rest with
      | [] => giveUp .endInValue []
      | c :: rest =>
        if c = '"' then .ok (.key rest)
        else if c = '\x7d' then refuse .trailingComma (c :: rest)
        else refuse .noKey (c :: rest)
    else refuse .noObjectEnd (c :: rest)

def nextElement (first : Bool) (text : Text) : Except Fault NextElement :=
  match skipSpace text with
  | [] => giveUp .endInList []
  | c :: rest =>
    if c = ']' then .ok (.closed rest)
    else if first then .ok (.element (c :: rest))
    else if c = ',' then
      match skipSpace rest with
      | [] => giveUp .endInValue []
      | c :: rest =>
        if c = ']' then refuse .trailingComma (c :: rest) else .ok (.element (c :: rest))
    else refuse .noListEnd (c :: rest)

def colon (text : Text) : Except Fault Text :=
  match skipSpace text with
  | [] => giveUp .endInObject []
  | c :: rest => if c = ':' then .ok rest else refuse .noColon (c :: rest)

/-- Goes through members and the closing bracket. `member` takes a key and the
text after it, and passes the value. Each member takes some text, so `fuel` of
the text's length is enough. -/
def membersFrom {σ : Type} (member : σ → Text → Text → Step σ) :
    (fuel : Nat) → (first : Bool) → σ → Text → Step σ
  | 0, _, _, text => giveUp .endInObject text
  | fuel + 1, first, state, text =>
    match nextMember first text with
    | .error fault => .error fault
    | .ok (.closed rest) => .ok (state, rest)
    | .ok (.key rest) =>
      match string rest with
      | .error fault => .error fault
      | .ok (key, rest) =>
        match member state key rest with
        | .error fault => .error fault
        | .ok (state, rest) => membersFrom member fuel false state rest

def members {σ : Type} (member : σ → Text → Text → Step σ) (state : σ) (text : Text) :
    Step σ :=
  membersFrom member (text.length + 1) true state text

def elementsFrom {σ : Type} (element : σ → Text → Step σ) :
    (fuel : Nat) → (first : Bool) → σ → Text → Step σ
  | 0, _, _, text => giveUp .endInList text
  | fuel + 1, first, state, text =>
    match nextElement first text with
    | .error fault => .error fault
    | .ok (.closed rest) => .ok (state, rest)
    | .ok (.element rest) =>
      match element state rest with
      | .error fault => .error fault
      | .ok (state, rest) => elementsFrom element fuel false state rest

/-- Goes through elements up to the closing bracket. The first of them follows
an opening bracket or, if `first` does not hold, another element. -/
def elements {σ : Type} (element : σ → Text → Step σ) (first : Bool) (state : σ) (text : Text) :
    Step σ :=
  elementsFrom element (text.length + 1) first state text

/-- Where an object is left: behind its bracket if that is next. -/
def leaveObject (text : Text) : Text :=
  match skipSpace text with
  | '\x7d' :: rest => rest
  | rest => rest

/-- Where a list is left: behind its bracket if that is next, or before what
follows a comma. -/
def leaveList (text : Text) : Text :=
  match skipSpace text with
  | ']' :: rest => rest
  | ',' :: rest => skipSpace rest
  | rest => rest

def endList (text : Text) : Except Fault Text :=
  match skipSpace text with
  | [] => giveUp .endInList []
  | ']' :: rest => .ok rest
  | ',' :: rest =>
    match skipSpace rest with
    | ']' :: rest => refuse .trailingComma (']' :: rest)
    | rest => refuse .trailingCharacters rest
  | rest => refuse .trailingCharacters rest

end ShellAlias.Json
