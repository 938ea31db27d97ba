import Mathlib.Data.List.Induction
import ShellAlias.CommandPosition
import ShellAlias.Proofs.Text.Search

namespace ShellAlias

theorem Text.trimEnd_concat (p : Char → Bool) (text : Text) (c : Char) :
    Text.trimEnd p (text ++ [c]) = if p c then Text.trimEnd p text else text ++ [c] := by
  simp only [Text.trimEnd,List.reverse_append,List.reverse_singleton,List.singleton_append,
    List.dropWhile_cons]
  split
  · rfl
  · simp

namespace CommandPosition

def isWordChar (c : Char) : Bool :=
  !isBlank c && !isSeparator c && !isTerminator c && c ≠ '\\'

def IsWord (text : Text) : Prop := ∀ c ∈ text, isWordChar c = true

instance (text : Text) : Decidable (IsWord text) :=
  List.decidableBAll _ text

theorem isWordChar_iff {c : Char} : isWordChar c = true ↔
    isBlank c = false ∧ isSeparator c = false ∧ isTerminator c = false ∧ c ≠ '\\' := by
  simp [isWordChar,and_assoc]

theorem IsWord.append {a b : Text} : IsWord (a ++ b) ↔ IsWord a ∧ IsWord b :=
  List.forall_mem_append

theorem startsCommand_concat (before : Text) (c : Char) :
    startsCommand (before ++ [c]) =
      if c = ' ' ∨ c = '\t' then startsCommand before else isSeparator c := by
  simp only [startsCommand,Text.trimEnd_concat,Bool.or_eq_true,decide_eq_true_eq]
  split
  · rfl
  · simp

/-- What stands further back counts only through its own answer. -/
theorem startsCommand_append_congr {a b : Text} (h : startsCommand a = startsCommand b)
    (text : Text) : startsCommand (a ++ text) = startsCommand (b ++ text) := by
  induction text using List.reverseRecOn with
  | nil => simpa using h
  | append_singleton text c ih =>
    rw [← List.append_assoc,← List.append_assoc,startsCommand_concat,startsCommand_concat,ih]

/-- After a visible text without separators no command starts, however many
spaces follow. -/
theorem startsCommand_append_of_visible (before : Text) {text : Text}
    (hs : ∀ c ∈ text, isSeparator c = false) (hv : ∃ c ∈ text, c ≠ ' ' ∧ c ≠ '\t') :
    startsCommand (before ++ text) = false := by
  induction text using List.reverseRecOn with
  | nil => simp at hv
  | append_singleton text c ih =>
    rw [← List.append_assoc,startsCommand_concat]
    split
    · rename_i hc
      apply ih (fun d hd => hs d (List.mem_append_left _ hd))
      obtain ⟨d,hd,hne⟩ := hv
      rcases List.mem_append.mp hd with hd | hd
      · exact ⟨d,hd,hne⟩
      · obtain rfl := List.mem_singleton.mp hd
        exact absurd hc (by simp [hne])
    · exact hs c (by simp)

theorem IsWord.visible {word : Text} (hw : IsWord word) (hne : word ≠ []) :
    ∃ c ∈ word, c ≠ ' ' ∧ c ≠ '\t' := by
  obtain ⟨c,cs,rfl⟩ := List.exists_cons_of_ne_nil hne
  have hb := (isWordChar_iff.mp (hw c List.mem_cons_self)).1
  refine ⟨c,List.mem_cons_self,?_,?_⟩
  all_goals
    intro hc
    subst hc
    revert hb
    decide

/-- No command starts right after a word. -/
theorem startsCommand_append_word (before : Text) {word : Text} (hw : IsWord word)
    (hne : word ≠ []) : startsCommand (before ++ word) = false :=
  startsCommand_append_of_visible before
    (fun c hc => (isWordChar_iff.mp (hw c hc)).2.1) (hw.visible hne)

theorem endsWord_append_word {word : Text} (hw : IsWord word) (hne : word ≠ []) (after : Text) :
    endsWord (word ++ after) = false := by
  obtain ⟨c,cs,rfl⟩ := List.exists_cons_of_ne_nil hne
  obtain ⟨hb,_,ht,_⟩ := isWordChar_iff.mp (hw c List.mem_cons_self)
  simp [endsWord,hb,ht]

/-- What ends a word is the character behind it. -/
theorem endsWord_append_congr {text : Text} (hne : text ≠ []) (a b : Text) :
    endsWord (text ++ a) = endsWord (text ++ b) := by
  obtain ⟨c,text,rfl⟩ := List.exists_cons_of_ne_nil hne
  rfl

def IsBreak (before after : Text) : Prop :=
  ∀ front c d back, before = front ++ [c] → after = d :: back →
    isWordChar c = true → isWordChar d = false

theorem isBreak_of_startsCommand {before : Text} (h : startsCommand before = true)
    (after : Text) : IsBreak before after := by
  intro front c d back hb _ hc
  have hword : IsWord [c] := by simpa [IsWord] using hc
  rw [hb,startsCommand_append_word front hword (List.cons_ne_nil _ _)] at h
  contradiction

theorem isBreak_of_endsWord {after : Text} (h : endsWord after = true) (before : Text) :
    IsBreak before after := by
  intro front c d back _ ha _
  by_contra hd
  have hword : IsWord [d] := by simpa [IsWord] using hd
  have hgoes := endsWord_append_word hword (List.cons_ne_nil _ _) back
  rw [List.singleton_append,← ha,h] at hgoes
  contradiction

/-- A word lies on one side of a break. -/
theorem IsWord.beside {word a b x y : Text} (hw : IsWord word)
    (hbreak : IsBreak a b) (h : a ++ b = x ++ word ++ y) :
    (∃ c, a = x ++ word ++ c ∧ y = c ++ b) ∨ ∃ c, b = c ++ word ++ y ∧ x = a ++ c := by
  rw [List.append_assoc] at h
  rcases List.append_eq_append_iff.mp h with ⟨c,hx,hb⟩ | ⟨c,ha,hrest⟩
  · exact Or.inr ⟨c,by rw [hb,List.append_assoc],hx⟩
  · rcases List.append_eq_append_iff.mp hrest with ⟨d,hc,hy⟩ | ⟨d,hword,hb⟩
    · exact Or.inl ⟨d,by rw [ha,hc,List.append_assoc],hy⟩
    · -- The word is `c ++ d`, with the break between the two.
      rcases List.eq_nil_or_concat c with rfl | ⟨front,e,rfl⟩
      · right
        exact ⟨[],by rw [hb,hword,List.nil_append,List.nil_append],by simp [ha]⟩
      · cases d with
        | nil =>
          left
          exact ⟨[],by rw [ha,hword,List.append_nil,List.append_nil],hb.symm⟩
        | cons d back =>
          rw [hword,List.concat_eq_append] at hw
          have hd := hbreak (x ++ front) e d (back ++ y) (by rw [ha]; simp) hb
            (hw e (by simp))
          rw [hw d (by simp)] at hd
          contradiction

/-- At an occurrence of the key the shell's rule asks only for what stands on
either side. -/
theorem shell_append (key before after : Text) :
    shell key (before ++ key ++ after) (Text.size before) =
      (startsCommand before && endsWord after) := by
  have hbefore : Text.splitAtByte? (Text.size before) (before ++ key ++ after) =
      some (before, key ++ after) := by
    rw [List.append_assoc,Text.splitAtByte?_append]
  have hafter : Text.splitAtByte? (Text.size before + Text.size key) (before ++ key ++ after) =
      some (before ++ key, after) := by
    rw [← Text.size_append,Text.splitAtByte?_append]
  simp only [shell,hbefore,hafter]

end CommandPosition
end ShellAlias
