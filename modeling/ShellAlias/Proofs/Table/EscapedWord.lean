import ShellAlias.Proofs.Expansion.EscapedChars
import ShellAlias.Proofs.Expansion.PlainWord
import ShellAlias.Proofs.Table.Reachable

namespace ShellAlias

namespace Pass

variable {word value : Text} {older younger : List Entry}

theorem ofEntries_around (position : CommandPosition) (escapes : Escapes) (entry : Entry)
    (text : Text) :
    let before := (ofEntries position escapes older text).text
    (ofEntries position escapes (older ++ entry :: younger) text).text =
      (ofEntries position escapes younger (ofEntry position escapes entry before).text).text := by
  rw [ofEntries_append]
  rfl

/-- An older key that the word starts with takes the backslash away before the
word's own turn comes, and the word is then replaced. -/
theorem text_escaped_word (hw : IsPlainWord word) (hne : word ≠ [])
    (hk : ∀ entry ∈ older ++ ⟨word,value⟩ :: younger, '\\' ∉ entry.key)
    (holder : ∀ entry ∈ older, entry.key ≠ word)
    (hyounger : ∀ entry ∈ younger, entry.key ≠ word) :
    (ofEntries CommandPosition.shell .drop (older ++ ⟨word,value⟩ :: younger)
      ('\\' :: word)).text =
      if ∃ entry ∈ older, entry.key ≠ [] ∧ entry.key <+: word then
        (ofEntries CommandPosition.shell .drop younger value).text
      else word := by
  obtain ⟨hkolder,hkrest⟩ := List.forall_mem_append.mp hk
  obtain ⟨hkword,_⟩ := List.forall_mem_cons.mp hkrest
  rw [ofEntries_around,ofEntries_escaped hw hkolder fun entry hm he => absurd he (holder entry hm)]
  split
  · rw [ofEntry_word hne]
  · rw [ofEntry_escaped_start hw hne hkword (List.prefix_refl word),
      ofEntries_word hw .drop fun entry hm he => absurd he (hyounger entry hm)]

/-- Behind a backslash that no key follows nothing happens. -/
theorem text_lone_backslash {entries : List Entry} (hk : ∀ entry ∈ entries, '\\' ∉ entry.key) :
    (ofEntries CommandPosition.shell .drop entries ['\\']).text = ['\\'] := by
  have hword : IsPlainWord [] := by decide
  refine (ofEntries_of_quiet fun entry hm hne => ?_).1
  exact hword.quiet_escaped (hk entry hm) hne (by simpa using hne) .drop

end Pass

namespace Table

/-- In a single pass a stored word behind a backslash comes out as it is just if
it is not empty, and no older key starts it or what its value then becomes is
the word itself. -/
theorem expand_escaped_word_iff {settings : Settings} {table : Table}
    (reachable : Reachable settings table) (single : settings.expansion = .singlePass)
    (keys : ∀ key ∈ table.keys, '\\' ∉ key) {older younger : List Entry} {word value : Text}
    (stored : table.entries = older ++ ⟨word,value⟩ :: younger) (plain : IsPlainWord word) :
    (table.expand CommandPosition.shell ('\\' :: word)).text = word ↔
      word ≠ [] ∧ ((∀ entry ∈ older, entry.key ≠ [] → ¬ entry.key <+: word) ∨
        (Expansion.expand CommandPosition.shell .singlePass younger value).text = word) := by
  have hk : ∀ entry ∈ older ++ ⟨word,value⟩ :: younger, '\\' ∉ entry.key := by
    intro entry hm
    rw [← stored] at hm
    exact keys entry.key (List.mem_map_of_mem hm)
  have hn := reachable.keys_nodup
  simp only [Table.keys,stored,List.map_append,List.map_cons] at hn
  have htext : (table.expand CommandPosition.shell ('\\' :: word)).text =
      (Pass.ofEntries CommandPosition.shell .drop (older ++ ⟨word,value⟩ :: younger)
        ('\\' :: word)).text := by
    rw [Table.expand,reachable.settings_eq,single,stored]
    rfl
  have hyounger : ∀ entry ∈ younger, entry.key ≠ word := by
    intro entry hm hkey
    rw [← hkey] at hn
    exact (List.nodup_cons.mp (List.nodup_append.mp hn).2.1).1 (List.mem_map_of_mem hm)
  have holder : ∀ entry ∈ older, entry.key ≠ word := by
    intro entry hm
    exact (List.nodup_append.mp hn).2.2 _ (List.mem_map_of_mem hm) _ List.mem_cons_self
  rw [htext]
  by_cases hne : word = []
  · subst hne
    rw [Pass.text_lone_backslash hk]
    simp
  · rw [Pass.text_escaped_word plain hne hk holder hyounger]
    change _ ↔ _ ∧ (_ ∨ (Pass.ofEntries CommandPosition.shell .drop younger value).text = word)
    by_cases hp : ∃ entry ∈ older, entry.key ≠ [] ∧ entry.key <+: word
    · rw [if_pos hp]
      obtain ⟨entry,hm,hkey,hstart⟩ := hp
      have hnot : ¬ ∀ entry ∈ older, entry.key ≠ [] → ¬ entry.key <+: word :=
        fun h => h entry hm hkey hstart
      simp only [hnot,false_or,ne_eq,hne,not_false_eq_true,true_and]
    · rw [if_neg hp]
      have hall : ∀ entry ∈ older, entry.key ≠ [] → ¬ entry.key <+: word :=
        fun entry hm hkey hstart => hp ⟨entry,hm,hkey,hstart⟩
      simp only [true_iff]
      exact ⟨hne,Or.inl hall⟩

theorem expand_escaped_word_iff_ls :
    let first := (({ settings := {} } : Table).restore ['l','s'] ['l','s',' ','-','l']).state
    let table := (first.restore ['l'] ['x']).state
    Reachable {} table ∧ (∀ key ∈ table.keys, '\\' ∉ key) ∧ IsPlainWord ['l','s'] ∧
      (table.expand CommandPosition.shell ['\\','l','s']).text = ['l','s'] := by
  intro first table
  have reachable : Reachable {} table :=
    .step (.restore ['l'] ['x']) (.step (.restore ['l','s'] ['l','s',' ','-','l']) .new)
  have keys : ∀ key ∈ table.keys, '\\' ∉ key := by decide
  have plain : IsPlainWord ['l','s'] := by decide
  have stored : table.entries =
      [] ++ ⟨['l','s'],['l','s',' ','-','l']⟩ :: [⟨['l'],['x']⟩] := rfl
  refine ⟨reachable,keys,plain,?_⟩
  exact (expand_escaped_word_iff reachable rfl keys stored plain).mpr
    ⟨List.cons_ne_nil _ _,Or.inl (by simp)⟩

/-- With the two aliases defined the other way round, the word is replaced in
spite of its backslash. -/
theorem escaped_word_replaced_after_prefix :
    let first := (({ settings := {} } : Table).restore ['l'] ['x']).state
    let table := (first.restore ['l','s'] ['l','s',' ','-','l']).state
    Reachable {} table ∧ table.settings.expansion = .singlePass ∧
      (∀ key ∈ table.keys, '\\' ∉ key) ∧ ['l','s'] ∈ table.keys ∧ IsPlainWord ['l','s'] ∧
      (table.expand CommandPosition.shell ['\\','l','s']).text = ['l','s',' ','-','l'] := by
  refine ⟨.step (.restore ['l','s'] ['l','s',' ','-','l']) (.step (.restore ['l'] ['x']) .new),
    rfl,by decide,by decide,by decide,by decide +kernel⟩

end Table

namespace Expansion

theorem repeatPass_escaped_word {entries : List Entry} (hk : ∀ entry ∈ entries, '\\' ∉ entry.key)
    {word : Text} (hw : IsPlainWord word) {n : Nat} (hn : 0 < n) :
    (repeatPass (Pass.ofEntries CommandPosition.shell .keep entries) n ('\\' :: word)).text =
      '\\' :: word :=
  repeatPass_of_quiet hn fun entry hm hne => hw.quiet_escaped_keep (hk entry hm) hne

/-- Repeated passes keep every escape: no replacement starts behind a backslash,
covers one or parts it from the character it precedes, what a backslash precedes
stays behind a backslash until the line has settled, and a stored word behind a
backslash comes out as it is. -/
theorem escapes_kept {entries : List Entry} (hk : ∀ entry ∈ entries, '\\' ∉ entry.key) :
    (∀ (position : CommandPosition) (n : Nat) (input : Text),
      let run := repeatPass (Pass.ofEntries position .keep entries) n input
      (escapedChars input).Sublist (escapedChars run.text) ∧
        ∀ visit ∈ run.visits, visit.occurrence = .valid →
          visit.before.getLast? ≠ some '\\' ∧ '\\' ∉ visit.key ∧
            ∀ front c back, visit.context = front ++ '\\' :: c :: back →
              front ++ ['\\',c] <+: visit.before ∨ '\\' :: c :: back <:+ visit.after) ∧
      (∀ (position : CommandPosition) (maxPasses : Nat) (input : Text),
        (expand position (.fixedPoint maxPasses) entries input).text =
          unescapeAll (entries.map Entry.key)
            (repeatPass (Pass.ofEntries position .keep entries) (max maxPasses 1) input).text) ∧
      ∀ (maxPasses : Nat) (word : Text), word ∈ entries.map Entry.key → word ≠ [] →
        IsPlainWord word →
        (expand CommandPosition.shell (.fixedPoint maxPasses) entries ('\\' :: word)).text =
          word := by
  refine ⟨?_,fun _ _ _ => rfl,?_⟩
  · intro position n input run
    refine ⟨escapedChars_sublist_of_edits hk (edits_repeatPass n input),?_⟩
    intro visit hv ho
    obtain ⟨entry,hm,_,hmake⟩ := visits_repeatPass_made n input visit hv
    have hbefore : visit.before.getLast? ≠ some '\\' := by
      rw [hmake] at ho
      exact (Visit.valid_iff.mp ho).1
    have hkey : '\\' ∉ visit.key := by
      rw [hmake]
      exact hk entry hm
    exact ⟨hbefore,hkey,fun _ _ _ h => unsplit_of_replace hbefore hkey h⟩
  · intro maxPasses word hstored hne hw
    have hkeys : ∀ key ∈ entries.map Entry.key, '\\' ∉ key := List.forall_mem_map.mpr hk
    change unescapeAll (entries.map Entry.key)
      (repeatPass (Pass.ofEntries CommandPosition.shell .keep entries) (max maxPasses 1)
        ('\\' :: word)).text = word
    rw [repeatPass_escaped_word hk hw (by omega),Pass.unescapeAll_escaped hw hkeys]
    exact if_pos ⟨word,hstored,hne,List.prefix_refl word⟩

theorem escapes_kept_ls :
    let entries : List Entry := [⟨['l'],['x','\\']⟩,⟨['l','s'],['l','s',' ','-','l']⟩]
    (∀ entry ∈ entries, '\\' ∉ entry.key) ∧
      ((escapedChars ['\\','l','s',';','l']).Sublist (escapedChars (repeatPass
        (Pass.ofEntries CommandPosition.shell .keep entries) 2 ['\\','l','s',';','l']).text)) ∧
      (expand CommandPosition.shell (.fixedPoint 2) entries ['\\','l','s']).text = ['l','s'] := by
  intro entries
  have hk : ∀ entry ∈ entries, '\\' ∉ entry.key := by decide
  have kept := escapes_kept hk
  exact ⟨hk,(kept.1 _ 2 _).1,kept.2.2 2 ['l','s'] (by decide) (by decide) (by decide)⟩

/-- A table whose keys are cut to nothing stores the empty key, and the backslash
of the empty word stays. -/
theorem escaped_empty_word_kept :
    let settings : Settings := { maxKeyLength := 0, expansion := .fixedPoint 3 }
    let table := (({ settings } : Table).restore ['a'] ['x']).state
    Table.Reachable settings table ∧ (∀ entry ∈ table.entries, '\\' ∉ entry.key) ∧
      [] ∈ table.keys ∧ IsPlainWord [] ∧
      (table.expand CommandPosition.shell ['\\']).text ≠ [] :=
  ⟨.step (.restore ['a'] ['x']) .new,by decide,by decide,by decide,by decide +kernel⟩

end Expansion
end ShellAlias
