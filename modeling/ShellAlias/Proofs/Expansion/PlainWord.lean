import Mathlib.Data.List.Basic
import ShellAlias.Proofs.CommandPosition
import ShellAlias.Proofs.Expansion.Edit

namespace ShellAlias

/-- A word that the shell's rule takes as a whole and that is in no part a
sentinel. -/
structure IsPlainWord (word : Text) : Prop where
  isWord : CommandPosition.IsWord word
  noSentinel : Occurrence.sentinel ∉ word

instance (word : Text) : Decidable (IsPlainWord word) :=
  decidable_of_iff (CommandPosition.IsWord word ∧ Occurrence.sentinel ∉ word)
    ⟨fun h => ⟨h.1,h.2⟩,fun h => ⟨h.1,h.2⟩⟩

namespace IsPlainWord

variable {word key a b : Text}

theorem noBackslash (hw : IsPlainWord word) : '\\' ∉ word := fun hm =>
  (CommandPosition.isWordChar_iff.mp (hw.isWord _ hm)).2.2.2 rfl

theorem of_prefix (hw : IsPlainWord word) (h : a <+: word) : IsPlainWord a :=
  ⟨fun c hc => hw.isWord c (h.mem hc),fun hs => hw.noSentinel (h.mem hs)⟩

theorem head_ne_sentinel (hw : IsPlainWord word) (hs : word = a ++ key ++ b) :
    key.head? ≠ some '~' := by
  intro hk
  apply hw.noSentinel
  have hm := List.mem_of_mem_head? hk
  rw [hs]
  simp [Occurrence.sentinel,hm]

/-- Inside the word no key is replaced or kept back, whatever stands before. -/
theorem invalid_inside (hw : IsPlainWord word) (hs : word = a ++ key ++ b) (ha : a ≠ [])
    (before : Text) :
    (Visit.make CommandPosition.shell key (before ++ a) b).occurrence = .invalid := by
  have hword : CommandPosition.IsWord a := by
    have h := hw.isWord
    rw [hs] at h
    exact (CommandPosition.IsWord.append.mp (CommandPosition.IsWord.append.mp h).1).1
  have hlast : (before ++ a).getLast? ≠ some '\\' := by
    rw [List.getLast?_append_of_ne_nil _ ha]
    intro hl
    apply hw.noBackslash
    rw [hs]
    simp [List.mem_of_getLast? hl]
  refine Visit.invalid_iff.mpr ⟨hlast,hw.head_ne_sentinel hs,?_⟩
  rw [CommandPosition.shell_append,CommandPosition.startsCommand_append_word before hword ha]
  rfl

theorem invalid_start (hw : IsPlainWord word) (hs : word = key ++ b) (hb : b ≠ []) :
    (Visit.make CommandPosition.shell key [] b).occurrence = .invalid := by
  have hword : CommandPosition.IsWord b := by
    have h := hw.isWord
    rw [hs] at h
    exact (CommandPosition.IsWord.append.mp h).2
  refine Visit.invalid_iff.mpr ⟨by simp,IsPlainWord.head_ne_sentinel (a := []) hw hs,?_⟩
  have hend := CommandPosition.endsWord_append_word hword hb []
  rw [List.append_nil] at hend
  rw [CommandPosition.shell_append,hend,Bool.and_false]

/-- Only the word itself could change a line that is the word. -/
theorem quiet (hw : IsPlainWord word) (hne : key ≠ word) (escapes : Escapes) :
    Quiet CommandPosition.shell escapes key [] word := by
  intro between after hs
  left
  by_cases hb : between = []
  · subst hb
    refine hw.invalid_start hs ?_
    intro hafter
    exact hne (by simpa [hafter] using hs.symm)
  · exact hw.invalid_inside hs hb []

/-- Behind the backslash, only a key that the word starts with is met with it. -/
theorem quiet_escaped (hw : IsPlainWord word) (hk : '\\' ∉ key) (hne : key ≠ [])
    (hp : ¬ key <+: word) (escapes : Escapes) :
    Quiet CommandPosition.shell escapes key [] ('\\' :: word) := by
  intro between after hs
  left
  obtain ⟨front,rfl,hword⟩ := Text.exists_cons_of_not_mem hk hne hs
  have hfront : front ≠ [] := by
    intro h
    subst h
    exact hp ⟨after,hword.symm⟩
  exact hw.invalid_inside hword hfront ['\\']

theorem quiet_escaped_keep (hw : IsPlainWord word) (hk : '\\' ∉ key) (hne : key ≠ []) :
    Quiet CommandPosition.shell .keep key [] ('\\' :: word) := by
  intro between after hs
  obtain ⟨front,rfl,hword⟩ := Text.exists_cons_of_not_mem hk hne hs
  by_cases hfront : front = []
  · subst hfront
    exact Or.inr ⟨Visit.escaped_iff.mpr rfl,rfl⟩
  · exact Or.inl (hw.invalid_inside hword hfront ['\\'])

end IsPlainWord

namespace Pass

variable {word : Text} {entries : List Entry}

theorem ofEntries_append (position : CommandPosition) (escapes : Escapes)
    (first second : List Entry) (text : Text) :
    (ofEntries position escapes (first ++ second) text).text =
      (ofEntries position escapes second (ofEntries position escapes first text).text).text := by
  induction first generalizing text with
  | nil => rfl
  | cons entry first ih => exact ih _

/-- A key that the word starts with takes the backslash away. -/
theorem ofEntry_escaped_start (hw : IsPlainWord word) {entry : Entry} (hne : entry.key ≠ [])
    (hk : '\\' ∉ entry.key) (hp : entry.key <+: word) :
    (ofEntry CommandPosition.shell .drop entry ('\\' :: word)).text = word := by
  obtain ⟨after,rfl⟩ := hp
  have hcut : Text.cutFirst? entry.key ('\\' :: (entry.key ++ after)) =
      some (['\\'], after) := by
    refine Text.cutFirst?_eq_some_iff.mpr ⟨hne,rfl,?_⟩
    intro a b hs
    obtain ⟨front,rfl,_⟩ := Text.exists_cons_of_not_mem hk hne hs
    simp
  have hleaves : (Visit.make CommandPosition.shell entry.key ['\\'] after).leaves .drop
      entry.value = entry.key :=
    Visit.leaves_escaped _ (Visit.escaped_iff.mpr rfl)
  have hquiet : Quiet CommandPosition.shell .drop entry.key entry.key after := by
    intro between after' hs
    left
    exact hw.invalid_inside (a := entry.key ++ between) (by rw [hs]; simp) (by simp [hne]) []
  rw [ofEntry_eq_resume,resume_of_cut hcut]
  simp only [List.nil_append,hleaves]
  exact (resume_of_quiet fun _ => hquiet).1

theorem ofEntry_word (hne : word ≠ []) (escapes : Escapes)
    (value : Text) :
    (ofEntry CommandPosition.shell escapes ⟨word,value⟩ word).text = value := by
  have hcut : Text.cutFirst? word word = some ([], []) := by
    have h : Text.cutFirst? word (word ++ []) = some ([], []) := Text.cutFirst?_append hne
    rwa [List.append_nil] at h
  have hvalid : (Visit.make CommandPosition.shell word [] []).occurrence = .valid := by
    refine Visit.valid_iff.mpr ⟨by simp,Or.inr ?_⟩
    rw [CommandPosition.shell_append]
    rfl
  rw [ofEntry_eq_resume,resume_of_cut hcut]
  simp only [List.nil_append,Visit.leaves_valid _ hvalid]
  rw [resume_of_absent (Or.inr (by simp [hne]))]
  simp [Visit.make]

theorem ofEntries_word (hw : IsPlainWord word) (escapes : Escapes)
    (ho : ∀ entry ∈ entries, entry.key = word → entry.value = word) :
    (ofEntries CommandPosition.shell escapes entries word).text = word := by
  induction entries with
  | nil => rfl
  | cons entry entries ih =>
    obtain ⟨hv,hos⟩ := List.forall_mem_cons.mp ho
    have hfirst : (ofEntry CommandPosition.shell escapes entry word).text = word := by
      by_cases hk : entry.key = word ∧ word ≠ []
      · obtain ⟨key,value⟩ := entry
        obtain ⟨hkey,hne⟩ := hk
        change key = word at hkey
        subst hkey
        rw [ofEntry_word hne]
        exact hv rfl
      · have hquiet (hne : entry.key ≠ []) :
            Quiet CommandPosition.shell escapes entry.key [] word :=
          hw.quiet (fun he => hk ⟨he,he ▸ hne⟩) escapes
        exact (resume_of_quiet hquiet).1
    rw [ofEntries,hfirst]
    exact ih hos

/-- A word that only the newest alias is for becomes that alias's value. No older one
finds a whole word in it, and there is none to go over the value. -/
theorem ofEntries_newest (hw : IsPlainWord word) {value : Text} {older : List Entry}
    (hne : word ≠ []) (escapes : Escapes) (holder : ∀ entry ∈ older, entry.key ≠ word) :
    (ofEntries CommandPosition.shell escapes (older ++ [⟨word,value⟩]) word).text = value := by
  rw [ofEntries_append,
    ofEntries_word hw escapes fun entry hm he => absurd he (holder entry hm)]
  exact ofEntry_word hne escapes value

theorem ofEntries_escaped (hw : IsPlainWord word) (hk : ∀ entry ∈ entries, '\\' ∉ entry.key)
    (ho : ∀ entry ∈ entries, entry.key = word → entry.value = word) :
    (ofEntries CommandPosition.shell .drop entries ('\\' :: word)).text =
      if ∃ entry ∈ entries, entry.key ≠ [] ∧ entry.key <+: word then word
      else '\\' :: word := by
  induction entries with
  | nil => simp [ofEntries]
  | cons entry entries ih =>
    obtain ⟨hk,hks⟩ := List.forall_mem_cons.mp hk
    obtain ⟨_,hos⟩ := List.forall_mem_cons.mp ho
    change (ofEntries CommandPosition.shell .drop entries
      (ofEntry CommandPosition.shell .drop entry ('\\' :: word)).text).text = _
    by_cases hp : entry.key ≠ [] ∧ entry.key <+: word
    · rw [ofEntry_escaped_start hw hp.1 hk hp.2,ofEntries_word hw .drop hos]
      simp [hp]
    · have hquiet (hne : entry.key ≠ []) :
          Quiet CommandPosition.shell .drop entry.key [] ('\\' :: word) :=
        hw.quiet_escaped hk hne (fun h => hp ⟨hne,h⟩) .drop
      rw [ofEntry_eq_resume,(resume_of_quiet hquiet).1,List.nil_append,ih hks hos]
      simp only [List.exists_mem_cons_iff,hp,false_or]

theorem unescapeAll_escaped (hw : IsPlainWord word) {keys : List Text}
    (hk : ∀ key ∈ keys, '\\' ∉ key) :
    unescapeAll keys ('\\' :: word) =
      if ∃ key ∈ keys, key ≠ [] ∧ key <+: word then word else '\\' :: word := by
  rw [unescapeAll_eq_ofEntries CommandPosition.shell,ofEntries_escaped hw]
  · simp only [List.mem_map,exists_exists_and_eq_and]
  · exact List.forall_mem_map.mpr hk
  · simp

end Pass
end ShellAlias
