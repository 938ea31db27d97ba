import ShellAlias.Proofs.Session.Operations
import ShellAlias.Proofs.Words

namespace ShellAlias

/-- What stands after the blanks at the start is not blank. -/
theorem Text.dropWhile_trim (text : Text) : (trim text).dropWhile isBlank = trim text := by
  cases ht : trim text with
  | nil => rfl
  | cons c rest =>
    obtain ⟨more,hmore⟩ := ht ▸ trim_prefix text
    have hc : isBlank c = false := by
      have hhead := List.head?_dropWhile_not isBlank text
      rw [← hmore] at hhead
      simpa using hhead
    exact List.dropWhile_cons_of_neg (by simp [hc])

/-- A trimmed line is its first word and what stands from the next blank on. -/
theorem Text.exists_firstWord_append (text : Text) :
    ∃ after, trim text = firstWord (trim text) ++ after ∧ ∀ c ∈ after.head?, isBlank c = true := by
  refine ⟨(trim text).dropWhile fun c => !isBlank c,?_,?_⟩
  · rw [firstWord,dropWhile_trim]
    exact List.takeWhile_append_dropWhile.symm
  · intro c hc
    have hhead := List.head?_dropWhile_not (fun c => !isBlank c) (trim text)
    rw [Option.mem_def.mp hc] at hhead
    simpa using hhead

namespace Builtin

theorem eq_name_of_ofName? {word : Text} {builtin : Builtin} (h : ofName? word = some builtin) :
    word = builtin.name := by
  grind [ofName?]

theorem isOrdinary_of_mem_name (builtin : Builtin) : ∀ c ∈ builtin.name, Words.IsOrdinary c := by
  have hall : (builtin.name.all fun c => decide (Words.IsOrdinary c)) = true := by
    cases builtin <;> decide
  intro c hc
  exact of_decide_eq_true (List.all_eq_true.mp hall c hc)

theorem name_ne_nil (builtin : Builtin) : builtin.name ≠ [] := by
  cases builtin <;> decide

end Builtin

/-- A blank that ends no word stands for itself in one. -/
theorem Words.isOrdinary_of_isBlank {c : Char} (h : isBlank c = true)
    (hc : isDelimiter c = false) : IsOrdinary c := by
  refine ⟨hc,?_,?_,?_,?_⟩
  all_goals
    rintro rfl
    revert h
    decide

namespace Session

variable {split : Text → Option (List Text)}

/-- The words of a line that a builtin runs are never none, and the builtin is given all
but the first. The first is the builtin's name just if a space, a tab, a line feed or the
end of the line comes after the name, and the others are then the words of what comes
after that. Else it goes on behind the name, and what it goes on with is given to none. -/
theorem first_word_is_name_iff (finds : Words.FindsFirst split) (session : Session) {line : Text}
    {builtin : Builtin} {words : List Text}
    (named : Builtin.ofName? (Text.firstWord (Text.trim line)) = some builtin)
    (found : split (Text.trim line) = some words) :
    ∃ first arguments after, words = first :: arguments ∧
      Text.trim line = builtin.name ++ after ∧
      session.runLineWith split line = session.runBuiltin arguments builtin ∧
      (first = builtin.name ↔ ∀ c ∈ after.head?, Words.isDelimiter c = true) ∧
      (first = builtin.name → split after.tail = some arguments) ∧
      ∀ c ∈ after.head?, first ≠ builtin.name → builtin.name ++ [c] <+: first := by
  obtain ⟨after,hline,hblank⟩ := Text.exists_firstWord_append line
  rw [Builtin.eq_name_of_ofName? named] at hline
  have hrun : session.runLineWith split line = session.runBuiltin words.tail builtin := by
    rw [runLineWith_of_name named,found]
  rw [hline] at found
  by_cases hends : ∀ c ∈ after.head?, Words.isDelimiter c = true
  · rw [finds.ends _ _ builtin.name_ne_nil builtin.isOrdinary_of_mem_name hends] at found
    obtain ⟨arguments,harguments,rfl⟩ := Option.map_eq_some_iff.mp found
    exact ⟨builtin.name,arguments,after,rfl,hline,hrun,⟨fun _ => hends,fun _ => rfl⟩,
      fun _ => harguments,fun _ _ hother => absurd rfl hother⟩
  · cases after with
    | nil => simp at hends
    | cons c rest =>
      have hc : Words.isDelimiter c = false := by simpa using hends
      have hordinary : ∀ d ∈ builtin.name ++ [c], Words.IsOrdinary d := by
        intro d hd
        rcases List.mem_append.mp hd with hd | hd
        · exact builtin.isOrdinary_of_mem_name d hd
        · rw [List.mem_singleton.mp hd]
          exact Words.isOrdinary_of_isBlank (hblank c rfl) hc
      rw [List.append_cons] at found
      obtain ⟨first,hfirst,hstart⟩ := finds.goesOn _ rest words (by simp) hordinary found
      obtain ⟨arguments,rfl⟩ := List.head?_eq_some_iff.mp hfirst
      have hlonger : first ≠ builtin.name := by
        rintro rfl
        have hlength := hstart.length_le
        rw [List.length_append,List.length_singleton] at hlength
        omega
      refine ⟨first,arguments,c :: rest,rfl,hline,hrun,⟨fun h => absurd h hlonger,fun h => ?_⟩,
        fun h => absurd h hlonger,fun d hd _ => ?_⟩
      · exact absurd h hends
      · rwa [← Option.some.inj hd]

/-- The rules of shell words meet the condition. A wide space stands before the name and
a tab behind it, and a comment and a line feed among the words. -/
theorem first_word_is_name_iff_tab :
    let session := (start { homeAlias := false } CommandPosition.shell none).1
    let line := "\u2003unalias\tll #x\n'g s'".toList
    Builtin.ofName? (Text.firstWord (Text.trim line)) = some .unalias ∧
      Words.split (Text.trim line) = some ["unalias".toList,"ll".toList,"g s".toList] ∧
      session.runLine line = session.runUnalias ["ll".toList,"g s".toList] := by
  intro session line
  have named : Builtin.ofName? (Text.firstWord (Text.trim line)) = some .unalias := by decide
  have found : Words.split (Text.trim line) =
      some ["unalias".toList,"ll".toList,"g s".toList] := by decide
  obtain ⟨_,_,after,hwords,_,hrun,_⟩ :=
    first_word_is_name_iff Words.split_findsFirst session named found
  obtain ⟨rfl,rfl⟩ := List.cons.inj hwords
  exact ⟨named,found,hrun⟩

/-- A no-break space behind the name makes the definition a part of the first word. It is
dropped with it, and the aliases are listed. -/
theorem first_word_goes_on :
    let session := (start { homeAlias := false } CommandPosition.shell none).1
    let line := "alias\u00a0ll=ls".toList
    Builtin.ofName? (Text.firstWord (Text.trim line)) = some .alias ∧
      Words.split (Text.trim line) = some [line] ∧ line ≠ Builtin.name .alias ∧
      (session.runLine line).session.table.entries = [] ∧
      (session.runLine line).reply = { ok := true, out := [], err := [] } ∧
      (session.runLine "alias ll=ls".toList).session.table.entries =
        [⟨"ll".toList,"ls".toList⟩] := by
  decide +kernel

end Session
end ShellAlias
