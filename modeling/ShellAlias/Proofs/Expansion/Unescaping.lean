import ShellAlias.Proofs.Expansion.Iterated

namespace ShellAlias

/-- The second text is the first without some of its backslashes. -/
inductive DropsBackslashes : (text dropped : Text) → Prop where
  | nil : DropsBackslashes [] []
  | keep (c : Char) {text dropped : Text} (rest : DropsBackslashes text dropped) :
      DropsBackslashes (c :: text) (c :: dropped)
  | drop {text dropped : Text} (rest : DropsBackslashes text dropped) :
      DropsBackslashes ('\\' :: text) dropped

namespace DropsBackslashes

theorem refl (text : Text) : DropsBackslashes text text := by
  induction text with
  | nil => exact .nil
  | cons c text ih => exact .keep c ih

theorem trans {a b c : Text} (hab : DropsBackslashes a b) (hbc : DropsBackslashes b c) :
    DropsBackslashes a c := by
  induction hab generalizing c with
  | nil => exact hbc
  | keep d _ ih =>
    cases hbc with
    | keep _ hbc => exact .keep d (ih hbc)
    | drop hbc => exact .drop (ih hbc)
  | drop _ ih => exact .drop (ih hbc)

theorem append_right {a b : Text} (h : DropsBackslashes a b) (rest : Text) :
    DropsBackslashes (a ++ rest) (b ++ rest) := by
  induction h with
  | nil => exact refl rest
  | keep c _ ih => exact .keep c ih
  | drop _ ih => exact .drop ih

theorem dropEscape (text : Text) : DropsBackslashes text (Text.dropEscape text) := by
  unfold Text.dropEscape
  split
  · rename_i hlast
    obtain ⟨front,rfl⟩ := List.getLast?_eq_some_iff.mp hlast
    rw [List.dropLast_concat]
    induction front with
    | nil => exact .drop .nil
    | cons c front ih => exact .keep c (ih (by simp))
  · exact refl text

end DropsBackslashes

variable {position : CommandPosition} {entry : Entry} {entries : List Entry}

/-- What is not replaced is left as it is, without the backslash before it. -/
theorem Visit.leaves_drop_of_not_valid {key before after : Text} (value : Text)
    (h : (make position key before after).occurrence ≠ .valid) :
    (make position key before after).leaves .drop value = Text.dropEscape before ++ key := by
  cases ho : (make position key before after).occurrence with
  | escaped => exact leaves_escaped value ho
  | valid => exact absurd ho h
  | invalid =>
    have he : before.getLast? ≠ some '\\' := (invalid_iff.mp ho).1
    rw [Text.dropEscape,if_neg he]
    exact leaves_invalid value ho

/-- A key that stands for itself loses a backslash at most. -/
theorem Edit.dropsBackslashes {keys : List Text} {text edited : Text}
    (h : Edit position .drop (keys.map fun key => ⟨key,key⟩) text edited) :
    DropsBackslashes text edited := by
  cases h with
  | visit entry before after hm _ =>
    obtain ⟨key,_,rfl⟩ := List.mem_map.mp hm
    rw [Visit.leaves_drop_key]
    have h := (DropsBackslashes.dropEscape before).append_right (key ++ after)
    rwa [← List.append_assoc,← List.append_assoc] at h

theorem dropsBackslashes_of_edits {keys : List Text} {text edited : Text}
    (h : Relation.ReflTransGen (Edit position .drop (keys.map fun key => ⟨key,key⟩)) text edited) :
    DropsBackslashes text edited := by
  induction h with
  | refl => exact .refl text
  | tail _ edit ih => exact ih.trans edit.dropsBackslashes

theorem unescapeAll_dropsBackslashes (keys : List Text) (text : Text) :
    DropsBackslashes text (unescapeAll keys text) := by
  rw [Pass.unescapeAll_eq_ofEntries CommandPosition.shell]
  exact dropsBackslashes_of_edits (Pass.edits_ofEntries text)

namespace Pass

/-- An alias that drops backslashes and replaces nothing does what its key does if it
stands for itself. -/
theorem text_resume_of_no_substitution (done rest : Text)
    (h : (resume position .drop entry done rest).substitutions = 0) :
    (resume position .drop entry done rest).text =
      (resume position .drop ⟨entry.key,entry.key⟩ done rest).text := by
  let itself : Entry := ⟨entry.key,entry.key⟩
  change _ = (resume position .drop itself done rest).text
  induction done, rest using resume_induction with
  | stop done rest habsent =>
    have hself : itself.key = [] ∨ ¬ itself.key <:+: rest := habsent
    rw [resume_of_absent hself]
  | visit done between after pass hc ih =>
    have hself : Text.cutFirst? itself.key (between ++ entry.key ++ after) =
      some (between, after) := hc
    simp only [substitutions,List.countP_cons,Nat.add_eq_zero_iff] at h
    obtain ⟨hrest,hvalid⟩ := h
    have hnot : (Visit.make position entry.key (done ++ between) after).occurrence ≠ .valid := by
      intro ho
      simp [ho] at hvalid
    rw [Visit.leaves_drop_of_not_valid entry.value hnot,
      ← Visit.leaves_drop_key position entry.key (done ++ between) after] at ih
    rw [resume_of_cut hself]
    exact ih hrest

theorem text_ofEntries_of_no_substitution {text : Text}
    (h : (ofEntries position .drop entries text).substitutions = 0) :
    (ofEntries position .drop entries text).text = unescapeAll (entries.map Entry.key) text := by
  rw [unescapeAll_eq_ofEntries position]
  induction entries generalizing text with
  | nil => rfl
  | cons entry entries ih =>
    simp only [ofEntries,substitutions,List.countP_append,Nat.add_eq_zero_iff] at h
    obtain ⟨hfirst,hothers⟩ := h
    have htext : (ofEntry position .drop entry text).text =
        (ofEntry position .drop ⟨entry.key,entry.key⟩ text).text :=
      text_resume_of_no_substitution [] text hfirst
    rw [List.map_cons,List.map_cons,ofEntries,ofEntries,← htext]
    exact ih hothers

end Pass

namespace Expansion

/-- A pass that drops backslashes as it goes and replaces nothing drops the same
ones as unescaping at the end, and changes nothing else. A line in which neither
kind of pass replaces anything therefore expands to one text in both modes. -/
theorem unescaping_agrees (position : CommandPosition) (entries : List Entry) (text : Text) :
    let dropping := Pass.ofEntries position .drop entries text
    let keeping := Pass.ofEntries position .keep entries text
    (dropping.substitutions = 0 →
      dropping.text = unescapeAll (entries.map Entry.key) text ∧
        DropsBackslashes text dropping.text) ∧
      (dropping.substitutions = 0 → keeping.substitutions = 0 → ∀ maxPasses,
        (expand position .singlePass entries text).text =
          (expand position (.fixedPoint maxPasses) entries text).text) := by
  intro dropping keeping
  have htext : dropping.substitutions = 0 →
      dropping.text = unescapeAll (entries.map Entry.key) text :=
    Pass.text_ofEntries_of_no_substitution
  refine ⟨?_,?_⟩
  · intro hnone
    refine ⟨htext hnone,?_⟩
    rw [htext hnone]
    exact unescapeAll_dropsBackslashes _ text
  · intro hnone hidle maxPasses
    have hkept : (Pass.ofEntries position .keep entries text).text = text :=
      Pass.ofEntries_keep_of_no_substitution hidle
    have hrun : (repeatPass (Pass.ofEntries position .keep entries) (max maxPasses 1) text).text =
        text := by
      obtain ⟨n,hn⟩ := Nat.exists_eq_succ_of_ne_zero (show max maxPasses 1 ≠ 0 by omega)
      rw [hn,repeatPass,if_pos hidle]
      exact hkept
    have hrepeated : (expand position (.fixedPoint maxPasses) entries text).text =
        unescapeAll (entries.map Entry.key) text := congrArg (unescapeAll _) hrun
    exact (htext hnone).trans hrepeated.symm

/-- A word behind two backslashes loses one to a key that it starts with and one to
itself. -/
theorem unescaping_agrees_twice :
    let entries : List Entry := [⟨['l'],['x']⟩,⟨['l','s'],['y']⟩]
    let text := ['\\','\\','l','s',' ','\\','l']
    let dropping := Pass.ofEntries CommandPosition.shell .drop entries text
    dropping.substitutions = 0 ∧
      (Pass.ofEntries CommandPosition.shell .keep entries text).substitutions = 0 ∧
      DropsBackslashes text dropping.text ∧ dropping.text = ['l','s',' ','l'] ∧
      (expand CommandPosition.shell .singlePass entries text).text =
        (expand CommandPosition.shell (.fixedPoint 0) entries text).text := by
  intro entries text dropping
  have hnone : dropping.substitutions = 0 := by decide +kernel
  have hidle : (Pass.ofEntries CommandPosition.shell .keep entries text).substitutions = 0 := by
    decide +kernel
  have htext : dropping.text = ['l','s',' ','l'] := by decide +kernel
  obtain ⟨hdrop,hmodes⟩ := unescaping_agrees CommandPosition.shell entries text
  exact ⟨hnone,hidle,(hdrop hnone).2,htext,hmodes hnone hidle 0⟩

end Expansion
end ShellAlias
