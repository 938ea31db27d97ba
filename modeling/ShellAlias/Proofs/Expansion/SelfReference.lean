import ShellAlias.Proofs.CommandPosition
import ShellAlias.Proofs.Expansion.Iterated
import ShellAlias.Table.Basic

namespace ShellAlias

/-- A word, and a text that can follow it in a value of its own: the word ends where the
text starts, and no command starts within the text. -/
structure SelfReference (word suffix : Text) : Prop where
  nonempty : word ≠ []
  isWord : CommandPosition.IsWord word
  noSentinel : word.head? ≠ some '~'
  starts : ∃ c rest, suffix = c :: rest ∧ (isBlank c = true ∨ c = ')' ∨ c = '<' ∨ c = '>')
  noSeparator : ∀ c ∈ suffix, CommandPosition.isSeparator c = false
  noBackslash : '\\' ∉ suffix

namespace SelfReference

variable {word suffix : Text}

def copies (n : Nat) (text : Text) : Text := (List.replicate n text).flatten

theorem copies_succ (n : Nat) (text : Text) : copies (n + 1) text = text ++ copies n text := by
  rw [copies,List.replicate_succ,List.flatten_cons]
  rfl

theorem mem_of_mem_copies {n : Nat} {text : Text} {c : Char} (h : c ∈ copies n text) :
    c ∈ text := by
  obtain ⟨one,hone,hc⟩ := List.mem_flatten.mp h
  rwa [List.eq_of_mem_replicate hone] at hc

theorem endsWord_copies (h : SelfReference word suffix) (n : Nat) :
    CommandPosition.endsWord (copies n suffix) = true := by
  cases n with
  | zero => rfl
  | succ n =>
    obtain ⟨c,rest,rfl,hc⟩ := h.starts
    rw [copies_succ]
    rcases hc with hc | rfl | rfl | rfl
    · simp [CommandPosition.endsWord,hc]
    all_goals rfl

theorem valid_head (h : SelfReference word suffix) (n : Nat) :
    (Visit.make CommandPosition.shell word [] (copies n suffix)).occurrence = .valid := by
  refine Visit.valid_iff.mpr ⟨by simp,Or.inr ?_⟩
  rw [CommandPosition.shell_append,h.endsWord_copies]
  rfl

/-- Neither a separator nor a backslash gets in between the word and a later place. -/
theorem plain (h : SelfReference word suffix) {text : Text} (made : ∀ c ∈ text, c ∈ suffix) :
    ∀ c ∈ word ++ text, CommandPosition.isSeparator c = false ∧ c ≠ '\\' := by
  intro c hc
  rcases List.mem_append.mp hc with hc | hc
  · obtain ⟨_,hs,_,hb⟩ := CommandPosition.isWordChar_iff.mp (h.isWord c hc)
    exact ⟨hs,hb⟩
  · have hsuffix := made c hc
    exact ⟨h.noSeparator c hsuffix,fun he => h.noBackslash (he ▸ hsuffix)⟩

/-- Behind the word nothing is replaced. -/
theorem quiet_behind (h : SelfReference word suffix) (n : Nat) :
    Quiet CommandPosition.shell .keep word (word ++ suffix) (copies n suffix) := by
  intro between after hcopies
  left
  have hmade : ∀ c ∈ suffix ++ between, c ∈ suffix := by
    intro c hc
    rcases List.mem_append.mp hc with hc | hc
    · exact hc
    · exact mem_of_mem_copies (n := n) (by rw [hcopies]; simp [hc])
  have hplain := h.plain hmade
  -- The word is visible, so blanks behind it do not reach back to the start of the line.
  obtain ⟨c,hc,hvisible⟩ := h.isWord.visible h.nonempty
  have hstart : CommandPosition.startsCommand (word ++ (suffix ++ between)) = false :=
    CommandPosition.startsCommand_append_of_visible [] (fun c hc => (hplain c hc).1)
      ⟨c,List.mem_append_left _ hc,hvisible⟩
  rw [List.append_assoc]
  refine Visit.invalid_iff.mpr ⟨?_,h.noSentinel,?_⟩
  · intro hlast
    exact (hplain _ (List.mem_of_getLast? hlast)).2 rfl
  · rw [CommandPosition.shell_append,hstart]
    rfl

/-- A pass replaces the word at the head and nothing else. -/
theorem pass_copies (h : SelfReference word suffix) (n : Nat) :
    let pass := Pass.ofEntries CommandPosition.shell .keep [⟨word,word ++ suffix⟩]
      (word ++ copies n suffix)
    pass.text = word ++ copies (n + 1) suffix ∧ pass.substitutions = 1 := by
  let entry : Entry := ⟨word,word ++ suffix⟩
  let head := Visit.make CommandPosition.shell word [] (copies n suffix)
  let others := Pass.resume CommandPosition.shell .keep entry (word ++ suffix) (copies n suffix)
  have hvalid : head.occurrence = .valid := h.valid_head n
  have hcut : Text.cutFirst? entry.key (word ++ copies n suffix) = some ([], copies n suffix) :=
    Text.cutFirst?_append h.nonempty
  have hleft : head.leaves .keep entry.value = word ++ suffix := Visit.leaves_valid _ hvalid
  have hfirst : Pass.ofEntry CommandPosition.shell .keep entry (word ++ copies n suffix) =
      ⟨head :: others.visits,others.text⟩ := by
    simp only [others,← hleft]
    exact Pass.resume_of_cut hcut
  obtain ⟨htext,hcount⟩ : others.text = word ++ suffix ++ copies n suffix ∧
      others.substitutions = 0 := Pass.resume_of_quiet fun _ => h.quiet_behind n
  simp only [Pass.ofEntries]
  rw [hfirst]
  refine ⟨?_,?_⟩
  · rw [htext,copies_succ,List.append_assoc]
  · rw [Pass.substitutions,List.append_nil,List.countP_cons,hvalid]
    exact congrArg (· + 1) hcount

/-- Passes in a row put in one copy each, and none of them finds nothing to do. -/
theorem repeatPass_copies (h : SelfReference word suffix) (n made : Nat) :
    let run := Expansion.repeatPass
      (Pass.ofEntries CommandPosition.shell .keep [⟨word,word ++ suffix⟩]) n
      (word ++ copies made suffix)
    run.text = word ++ copies (made + n) suffix ∧ run.settled = false := by
  -- Each pass goes on from one copy more, so the copies so far are general.
  induction n generalizing made with
  | zero => exact ⟨rfl,rfl⟩
  | succ n ih =>
    obtain ⟨htext,hcount⟩ := h.pass_copies made
    obtain ⟨hrest,hsettled⟩ := ih (made + 1)
    have hbusy : ¬ (Pass.ofEntries CommandPosition.shell .keep [⟨word,word ++ suffix⟩]
        (word ++ copies made suffix)).substitutions = 0 := by omega
    rw [Expansion.repeatPass,if_neg hbusy,htext]
    exact ⟨by rw [hrest,Nat.add_right_comm,Nat.add_assoc],hsettled⟩

end SelfReference

/-- An alias whose value starts with its own word is replaced once in each pass, so that
the cap alone ends the expansion: with as many copies of what follows the word as the cap
allows passes, and a warning. A cap of none allows one. -/
theorem Table.expand_self_reference {table : Table} {word suffix : Text} {n : Nat}
    (h : SelfReference word suffix) (repeated : table.settings.expansion = .fixedPoint n)
    (alone : table.entries = [⟨word,word ++ suffix⟩]) :
    let expansion := table.expand CommandPosition.shell word
    expansion.text = word ++ (List.replicate (max n 1) suffix).flatten ∧
      .unsettled (max n 1) ∈ expansion.log := by
  let pass := Pass.ofEntries CommandPosition.shell .keep [⟨word,word ++ suffix⟩]
  let run := Expansion.repeatPass pass (max n 1) word
  have hcopies :
      run.text = word ++ SelfReference.copies (max n 1) suffix ∧ run.settled = false := by
    have hrun := h.repeatPass_copies (max n 1) 0
    rw [Nat.zero_add] at hrun
    rwa [SelfReference.copies,List.replicate_zero,List.flatten_nil,List.append_nil] at hrun
  obtain ⟨htext,hsettled⟩ := hcopies
  have hexpand : table.expand CommandPosition.shell word =
      ⟨unescapeAll [word] run.text,run.visits.map .visited ++
        (if run.settled then [] else [.unsettled (max n 1)]) ++
        [.resolved (unescapeAll [word] run.text)]⟩ := by
    rw [expand,repeated,alone]
    rfl
  have hbackslash : '\\' ∉ word ++ SelfReference.copies (max n 1) suffix :=
    fun hm => (h.plain (fun _ hc => SelfReference.mem_of_mem_copies hc) _ hm).2 rfl
  rw [hexpand,htext,hsettled,unescapeAll_of_not_mem hbackslash]
  exact ⟨rfl,by simp⟩

/-- The word stands in what follows it too, also at its end, where the next copy starts. -/
theorem Table.expand_self_reference_inside :
    let word : Text := ['l','s']
    let suffix : Text := [')','l','s',' ','l','s']
    let table := fun n =>
      (({ settings := { expansion := .fixedPoint n } } : Table).restore word (word ++ suffix)).state
    SelfReference word suffix ∧
      ((table 0).expand CommandPosition.shell word).text = word ++ suffix ∧
      .unsettled 1 ∈ ((table 0).expand CommandPosition.shell word).log ∧
      ((table 2).expand CommandPosition.shell word).text = word ++ suffix ++ suffix := by
  intro word suffix table
  have noSeparator : ∀ c ∈ suffix, CommandPosition.isSeparator c = false := by
    simp [suffix,CommandPosition.isSeparator]
  have h : SelfReference word suffix :=
    ⟨by decide,by decide,by decide,⟨')',['l','s',' ','l','s'],rfl,by decide⟩,noSeparator,by decide⟩
  have once := expand_self_reference h (show (table 0).settings.expansion = _ from rfl) rfl
  have twice := expand_self_reference h (show (table 2).settings.expansion = _ from rfl) rfl
  exact ⟨h,once.1,once.2,twice.1⟩

end ShellAlias
