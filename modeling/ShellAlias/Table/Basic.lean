import ShellAlias.Expansion.Basic

namespace ShellAlias

/-- The aliases in the order of their definition. `changed` is up from a change
until the next snapshot that is given out. -/
structure Table where
  settings : Settings
  entries : List Entry := []
  /-- Bytes of all values, kept up to date by every change. -/
  totalValueSize : Nat := 0
  changed : Bool := false
  deriving DecidableEq, Repr

structure Outcome (σ α : Type) where
  result : Except AliasError α
  state : σ
  log : List Event := []

namespace Table

def keys (table : Table) : List Text := table.entries.map Entry.key

def storedKey (table : Table) (key : Text) : Text :=
  match table.settings.truncation with
  | .truncate => key.take table.settings.maxKeyLength
  | .reject => key

/-- The text as the length policy lets it be stored, and a warning if it is cut. -/
def fit (table : Table) (part : Part) (text : Text) : Except AliasError (Text × List Event) :=
  let limit := table.settings.limit part
  if text.length ≤ limit then .ok (text, [])
  else
    match table.settings.truncation with
    | .reject => .error (.tooLong part text.length limit)
    | .truncate => .ok (text.take limit, [.cut part (text.take limit) text.length limit])

/-- The entry of a key, which may be given uncut. -/
def entry? (table : Table) (key : Text) : Option Entry :=
  table.entries.find? fun entry => entry.key = table.storedKey key

def get? (table : Table) (key : Text) : Option Text := (table.entry? key).map Entry.value

def contains (table : Table) (key : Text) : Bool := (table.entry? key).isSome

def erase? (table : Table) (key : Text) : Option Table :=
  (table.entry? key).map fun entry => { table with
    entries := table.entries.eraseP fun other => other.key = entry.key
    totalValueSize := table.totalValueSize - Text.size entry.value
    changed := true }

/-- The table with an entry at its end in place of the one of the same key. -/
def put (table : Table) (entry : Entry) : Table :=
  let others := (table.erase? entry.key).getD table
  { others with
    entries := others.entries ++ [entry]
    totalValueSize := others.totalValueSize + Text.size entry.value
    changed := true }

def restore (table : Table) (key value : Text) : Outcome Table Unit :=
  if key = [] then { result := .error .emptyKey, state := table }
  else
    match table.fit .key key with
    | .error error => { result := .error error, state := table }
    | .ok (key, keyLog) =>
      match table.fit .value value with
      | .error error => { result := .error error, state := table, log := keyLog }
      | .ok (value, valueLog) =>
        { result := .ok (), state := table.put ⟨key,value⟩, log := keyLog ++ valueLog }

def expand (table : Table) (position : CommandPosition) (input : Text) : Expansion :=
  Expansion.expand position table.settings.expansion table.entries input

/-- Stores what the value means under the aliases defined so far. -/
def define (table : Table) (position : CommandPosition) (key raw : Text) : Outcome Table Unit :=
  let expansion := table.expand position raw
  let outcome := table.restore key expansion.text
  { outcome with log := expansion.log ++ outcome.log }

/-- Takes an alias away. The error names the key as it was given. -/
def remove (table : Table) (key : Text) : Outcome Table Unit :=
  match table.erase? key with
  | some others => { result := .ok (), state := others }
  | none => { result := .error (.notFound key), state := table }

/-- The keys, if they are asked for in any case or may have changed, and the
table with its change told. -/
def snapshot (table : Table) (onlyIfChanged : Bool) : Option (List Text) × Table :=
  if onlyIfChanged && !table.changed then (none, table)
  else (some table.keys, { table with changed := false })

end Table
end ShellAlias
