import Mathlib.Logic.Relation
import ShellAlias.Proofs.Expansion.Visit

namespace ShellAlias

/-- A buffer that is changed in place, and the byte offset from which it is still
to be searched. -/
structure Cursor where
  buffer : Text
  offset : Nat
  deriving DecidableEq, Repr

namespace Cursor

def find? (cursor : Cursor) (key : Text) : Option Nat :=
  (Text.splitAtByte? cursor.offset cursor.buffer).bind fun (_, rest) =>
    (Text.cutFirst? key rest).map fun (between, _) => cursor.offset + Text.size between

/-- The text with another one in place of so many bytes at an index. None if the
bytes do not begin and end between characters. -/
def replaceAt? (text : Text) (index length : Nat) (other : Text) : Option Text :=
  (Text.splitAtByte? index text).bind fun (before, _) =>
    (Text.splitAtByte? (index + length) text).map fun (_, after) => before ++ other ++ after

def settle? (position : CommandPosition) (escapes : Escapes) (entry : Entry) (buffer : Text)
    (index : Nat) : Option Cursor :=
  match Occurrence.classify entry.key buffer index position, escapes with
  | .escaped, .drop =>
    let (index, buffer) := (Occurrence.unescapeAt? buffer index).getD (index, buffer)
    some ⟨buffer,index + Text.size entry.key⟩
  | .escaped, .keep => some ⟨buffer,index + Text.size entry.key⟩
  | .valid, _ => (replaceAt? buffer index (Text.size entry.key) entry.value).map fun buffer =>
    ⟨buffer,index + Text.size entry.value⟩
  | .invalid, _ => some ⟨buffer,index + Text.size entry.key⟩

def Advances (position : CommandPosition) (escapes : Escapes) (entry : Entry)
    (cursor next : Cursor) : Prop :=
  ∃ index, cursor.find? entry.key = some index ∧
    settle? position escapes entry cursor.buffer index = some next

theorem find?_append (done rest key : Text) :
    find? ⟨done ++ rest,Text.size done⟩ key =
      (Text.cutFirst? key rest).map fun (between, _) => Text.size (done ++ between) := by
  simp only [find?,Text.splitAtByte?_append,Option.bind_some,Text.size_append]

theorem replaceAt?_append (before key after other : Text) :
    replaceAt? (before ++ key ++ after) (Text.size before) (Text.size key) other =
      some (before ++ other ++ after) := by
  have hafter : Text.splitAtByte? (Text.size before + Text.size key) (before ++ key ++ after) =
      some (before ++ key, after) := by
    rw [← Text.size_append,Text.splitAtByte?_append]
  have hbefore : Text.splitAtByte? (Text.size before) (before ++ key ++ after) =
      some (before, key ++ after) := by
    rw [List.append_assoc,Text.splitAtByte?_append]
  simp only [replaceAt?,hbefore,hafter,Option.bind_some,Option.map_some]

theorem unescapeAt?_append (before rest : Text) :
    Occurrence.unescapeAt? (before ++ '\\' :: rest) (Text.size (before ++ ['\\'])) =
      some (Text.size before, before ++ rest) := by
  have hsize : Text.size (before ++ ['\\']) = Text.size before + 1 := by
    rw [Text.size_append]
    rfl
  rw [hsize]
  simp only [Occurrence.unescapeAt?,Text.splitAtByte?_append]

theorem find?_eq_none_iff {done rest key : Text} :
    find? ⟨done ++ rest,Text.size done⟩ key = none ↔ key = [] ∨ ¬ key <:+: rest := by
  rw [find?_append,Option.map_eq_none_iff,Text.cutFirst?_eq_none_iff]

/-- In place, an occurrence is settled as a visit with the same surroundings
settles it. -/
theorem settle?_append (position : CommandPosition) (escapes : Escapes) (entry : Entry)
    (before after : Text) :
    let left := (Visit.make position entry.key before after).leaves escapes entry.value
    settle? position escapes entry (before ++ entry.key ++ after) (Text.size before) =
      some ⟨left ++ after,Text.size left⟩ := by
  intro left
  unfold settle?
  cases ho : (Visit.make position entry.key before after).occurrence with
  | escaped =>
    have hc : Occurrence.classify entry.key (before ++ entry.key ++ after) (Text.size before)
      position = .escaped := ho
    obtain ⟨front,rfl⟩ := List.getLast?_eq_some_iff.mp (Visit.escaped_iff.mp ho)
    cases escapes with
    | keep =>
      have hleft : left = front ++ ['\\'] ++ entry.key := Visit.leaves_escaped _ ho
      rw [hc,hleft,Text.size_append (front ++ ['\\'])]
    | drop =>
      have hdrop : Text.dropEscape (front ++ ['\\']) = front := by simp [Text.dropEscape]
      have hleft : left = front ++ entry.key := by
        conv => rhs; rw [← hdrop]
        exact Visit.leaves_escaped _ ho
      have htext : front ++ ['\\'] ++ entry.key ++ after =
          front ++ '\\' :: (entry.key ++ after) := by simp
      rw [hc,htext,unescapeAt?_append,hleft,Text.size_append front entry.key,List.append_assoc]
      rfl
  | valid =>
    have hc : Occurrence.classify entry.key (before ++ entry.key ++ after) (Text.size before)
      position = .valid := ho
    have hleft : left = before ++ entry.value := Visit.leaves_valid _ ho
    simp only [hc,replaceAt?_append,Option.map_some,hleft,Text.size_append]
  | invalid =>
    have hc : Occurrence.classify entry.key (before ++ entry.key ++ after) (Text.size before)
      position = .invalid := ho
    have hleft : left = before ++ entry.key := Visit.leaves_invalid _ ho
    simp only [hc,hleft,Text.size_append]

end Cursor
end ShellAlias
