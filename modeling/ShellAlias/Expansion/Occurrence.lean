import ShellAlias.CommandPosition

namespace ShellAlias

/-- What an occurrence of a key is: kept back by a backslash, to be replaced,
or no command word. -/
inductive Occurrence where
  | escaped
  | valid
  | invalid
  deriving DecidableEq, Repr

structure Query where
  key : Text
  context : Text
  index : Nat
  answer : Bool
  deriving DecidableEq, Repr

namespace Occurrence

/-- Keys that start with this character are replaced in any position. -/
def sentinel : Char := '~'

def backslash : UInt8 := 0x5C

/-- The byte before an index is a backslash. The index may lie inside a
character or past the end. -/
def isEscaped (context : Text) (index : Nat) : Bool :=
  0 < index && (Text.bytes context)[index - 1]? = some backslash

def isSentinelKey (key : Text) : Bool := key.head? = some sentinel

/-- What the occurrence of a key at a byte index is, and the question that was put to
the rule to find out. A backslash or a sentinel decides without one. Whether the key is
really there is not looked at. -/
def judge (key context : Text) (index : Nat) (position : CommandPosition) :
    Occurrence × Option Query :=
  if isEscaped context index then (.escaped, none)
  else if isSentinelKey key then (.valid, none)
  else
    let answer := position key context index
    (if answer then .valid else .invalid, some ⟨key,context,index,answer⟩)

def classify (key context : Text) (index : Nat) (position : CommandPosition) : Occurrence :=
  (judge key context index position).1

/-- The question that an occurrence was judged by: it is judged once more, by a rule
that answers as it was judged. -/
def query? (occurrence : Occurrence) (key context : Text) (index : Nat) : Option Query :=
  (judge key context index fun _ _ _ => occurrence = .valid).2

theorem judge_eq (key context : Text) (index : Nat) (position : CommandPosition) :
    judge key context index position =
      if isEscaped context index = true then (.escaped, none)
      else if isSentinelKey key = true then (.valid, none)
      else if position key context index = true then (.valid, some ⟨key,context,index,true⟩)
      else (.invalid, some ⟨key,context,index,false⟩) := by
  unfold judge
  cases position key context index <;> rfl

/-- A judgement depends on the rule only through the question put to it. -/
theorem judge_congr {position other : CommandPosition} {key context : Text} {index : Nat}
    (h : ∀ query, (judge key context index position).2 = some query →
      other query.key query.context query.index = query.answer) :
    judge key context index other = judge key context index position := by
  unfold judge at h ⊢
  split
  · rfl
  · split
    · rfl
    · rename_i hescaped hsentinel
      rw [if_neg hescaped,if_neg hsentinel] at h
      rw [h _ rfl]

theorem query?_classify (key context : Text) (index : Nat) (position : CommandPosition) :
    (classify key context index position).query? key context index =
      (judge key context index position).2 := by
  simp only [query?,classify,judge_eq]
  repeat' split
  all_goals simp_all

/-- Takes away the backslash before a byte index: where the text after it now
starts, and the text without it. None if no backslash is there. -/
def unescapeAt? (text : Text) : Nat → Option (Nat × Text)
  | 0 => none
  | index + 1 =>
    match Text.splitAtByte? index text with
    | some (before, '\\' :: after) => some (index, before ++ after)
    | _ => none

end Occurrence
end ShellAlias
