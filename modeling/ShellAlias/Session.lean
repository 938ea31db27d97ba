import ShellAlias.KeyCache
import ShellAlias.Table.Listing
import ShellAlias.Words

namespace ShellAlias

structure Session where
  table : Table
  cache : KeyCache := {}
  position : CommandPosition

structure Reply where
  ok : Bool := true
  out : Text := []
  err : Text := []
  deriving DecidableEq, Repr

structure Turn where
  reply : Reply
  session : Session
  log : List Event := []

inductive Builtin where
  | alias
  | unalias
  | complete
  deriving DecidableEq, Repr

inductive AliasRequest where
  | list
  | show (name : Text)
  | define (key value : Text)
  deriving DecidableEq, Repr

namespace Builtin

def name : Builtin → Text
  | .alias => "alias".toList
  | .unalias => "unalias".toList
  | .complete => "complete".toList

def ofName? (word : Text) : Option Builtin :=
  if word = name .alias then some .alias
  else if word = name .unalias then some .unalias
  else if word = name .complete then some .complete
  else none

def complain (builtin : Builtin) (message : Text) : Text :=
  Text.line (builtin.name ++ ": ".toList ++ message)

end Builtin

namespace AliasRequest

def spaced (words : List Text) : Text := List.intercalate [' '] words

/-- A definition is `key=value`, `key value` or `key = value`. The value goes on
to the end of the line. -/
def ofArguments : List Text → AliasRequest
  | [] => .list
  | first :: rest =>
    match Text.cutFirst? ['='] first, rest with
    | some (key, head), _ => .define key (spaced (head :: rest))
    | none, [] => .show first
    | none, second :: others =>
      if second = ['='] then .define first (spaced others)
      else .define first (spaced (second :: others))

end AliasRequest

namespace Session

def homeKey : Text := ['~']

/-- A new session, with an alias for the home directory if the settings ask for
one. A home that cannot be stored is passed over. -/
def start (settings : Settings) (position : CommandPosition) (home : Option Text) :
    Session × List Event :=
  let table : Table := { settings }
  if settings.homeAlias then
    match home with
    | none => ({ table, position }, [.homeMissing])
    | some home =>
      let outcome := table.restore homeKey home
      let refusal :=
        match outcome.result with
        | .ok () => []
        | .error error => [.homeRefused error]
      ({ table := outcome.state, position }, outcome.log ++ refusal)
  else ({ table, position }, [])

def afterTable {α : Type} (session : Session) (outcome : Outcome Table α) : Outcome Session α :=
  { outcome with state := { session with table := outcome.state } }

def define (session : Session) (key raw : Text) : Outcome Session Unit :=
  session.afterTable (session.table.define session.position key raw)

def remove (session : Session) (key : Text) : Outcome Session Unit :=
  session.afterTable (session.table.remove key)

def listing (session : Session) : Text := session.table.listing

/-- The keys, if they are asked for in any case or may have changed. Completion
is not told of a change that was given out here. -/
def snapshot (session : Session) (onlyIfChanged : Bool) : Option (List Text) × Session :=
  let (keys, table) := session.table.snapshot onlyIfChanged
  (keys, { session with table })

def expand (session : Session) (input : Text) : Expansion :=
  session.table.expand session.position input

def runAlias (session : Session) (args : List Text) : Turn :=
  match AliasRequest.ofArguments args with
  | .list => { reply := { out := session.listing }, session }
  | .show name =>
    match session.table.entry? name with
    | some entry => { reply := { out := Text.line (Listing.line entry) }, session }
    | none =>
      let err := Builtin.complain .alias (name ++ ": not found".toList)
      { reply := { ok := false, err }, session }
  | .define key value =>
    let outcome := session.define key value
    let reply : Reply :=
      match outcome.result with
      | .ok () => {}
      | .error error => { ok := false, err := Builtin.complain .alias error.message }
    { reply, session := outcome.state, log := outcome.log }

def removeAll (session : Session) : List Text → Turn
  | [] => { reply := {}, session }
  | name :: names =>
    let outcome := session.remove name
    let others := removeAll outcome.state names
    match outcome.result with
    | .ok () => others
    | .error error => { others with
        reply := { others.reply with
          ok := false
          err := Builtin.complain .unalias error.message ++ others.reply.err } }

def runUnalias (session : Session) (args : List Text) : Turn :=
  match args with
  | [] =>
    let err := Builtin.complain .unalias "missing alias name".toList
    { reply := { ok := false, err }, session }
  | names => session.removeAll names

/-- Runs the `complete` command. Arguments after the first are ignored. -/
def runComplete (session : Session) (args : List Text) : Turn :=
  let refresh := session.cache.refresh session.table
  let keys := refresh.cache.complete (args.headD [])
  { reply := { out := keys.flatMap Text.line }
    session := { session with table := refresh.table, cache := refresh.cache }
    log := refresh.log }

def runBuiltin (session : Session) (args : List Text) : Builtin → Turn
  | .alias => session.runAlias args
  | .unalias => session.runUnalias args
  | .complete => session.runComplete args

/-- Runs a line: a builtin is run, any other line is expanded and a blank one
passed over. The first word is found by blanks and the arguments by the rules
given, which find no words in a line that they refuse. The first of them is
dropped. -/
def runLineWith (split : Text → Option (List Text)) (session : Session) (line : Text) : Turn :=
  let trimmed := Text.trim line
  if trimmed = [] then { reply := {}, session }
  else
    match Builtin.ofName? (Text.firstWord trimmed) with
    | none =>
      let expansion := session.expand line
      { reply := { out := Text.line expansion.text }, session, log := expansion.log }
    | some builtin =>
      match split trimmed with
      | none =>
        let err := builtin.complain Words.openQuoteMessage
        { reply := { ok := false, err }, session }
      | some words => session.runBuiltin words.tail builtin

def runLine (session : Session) (line : Text) : Turn := session.runLineWith Words.split line

end Session
end ShellAlias
