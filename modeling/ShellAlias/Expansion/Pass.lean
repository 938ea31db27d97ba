import ShellAlias.Entry
import ShellAlias.Expansion.Occurrence
import ShellAlias.Expansion.Walk

namespace ShellAlias

/-- An occurrence that a pass came to, with the text around it at that moment, and the
rule's answer if a question was put to it then. -/
structure Visit where
  key : Text
  before : Text
  after : Text
  occurrence : Occurrence
  answer? : Option Bool
  deriving DecidableEq, Repr

/-- What a pass does with the backslash before an escaped key. Later passes
need it, so only a last pass drops it. -/
inductive Escapes where
  | drop
  | keep
  deriving DecidableEq, Repr

namespace Visit

def context (visit : Visit) : Text := visit.before ++ visit.key ++ visit.after

def index (visit : Visit) : Nat := Text.size visit.before

def make (position : CommandPosition) (key before after : Text) : Visit :=
  let judged := Occurrence.judge key (before ++ key ++ after) (Text.size before) position
  ⟨key,before,after,judged.1,judged.2.map Query.answer⟩

def query? (visit : Visit) : Option Query :=
  visit.answer?.map fun answer => ⟨visit.key,visit.context,visit.index,answer⟩

/-- A visit keeps the question as it was put. -/
theorem query?_eq_judge (position : CommandPosition) (key before after : Text) :
    (make position key before after).query? =
      (Occurrence.judge key (before ++ key ++ after) (Text.size before) position).2 := by
  simp only [query?,make,Occurrence.judge_eq]
  repeat' split
  all_goals rfl

/-- The text that a visit leaves in place of what was before the occurrence and
the occurrence itself. -/
def leaves (escapes : Escapes) (value : Text) (visit : Visit) : Text :=
  match visit.occurrence, escapes with
  | .escaped, .drop => Text.dropEscape visit.before ++ visit.key
  | .escaped, .keep => visit.before ++ visit.key
  | .valid, _ => visit.before ++ value
  | .invalid, _ => visit.before ++ visit.key

end Visit

structure Pass where
  visits : List Visit
  text : Text
  deriving DecidableEq, Repr

namespace Pass

def substitutions (pass : Pass) : Nat := pass.visits.countP fun v => v.occurrence = .valid

def ofEntry (position : CommandPosition) (escapes : Escapes) (entry : Entry) (text : Text) :
    Pass :=
  let (visits, text) := walk entry.key (fun before after =>
    let visit := Visit.make position entry.key before after
    (visit, visit.leaves escapes entry.value)) [] text
  ⟨visits,text⟩

def ofEntries (position : CommandPosition) (escapes : Escapes) : List Entry → Text → Pass
  | [], text => ⟨[],text⟩
  | entry :: entries, text =>
    let first := ofEntry position escapes entry text
    let others := ofEntries position escapes entries first.text
    ⟨first.visits ++ others.visits,others.text⟩

end Pass

def unescapeAll (keys : List Text) (text : Text) : Text :=
  keys.foldl (fun text key =>
    (walk key (fun before _ => ((), Text.dropEscape before ++ key)) [] text).2) text

end ShellAlias
