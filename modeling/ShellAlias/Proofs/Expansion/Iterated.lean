import Mathlib.Logic.Function.Iterate
import ShellAlias.Proofs.Expansion.Characters

namespace ShellAlias

theorem Visit.leaves_drop_eq_keep {visit : Visit} (h : visit.occurrence ≠ .escaped) (value : Text) :
    visit.leaves .drop value = visit.leaves .keep value := by
  cases ho : visit.occurrence with
  | escaped => exact absurd ho h
  | valid => rw [leaves_valid value ho,leaves_valid value ho]
  | invalid => rw [leaves_invalid value ho,leaves_invalid value ho]

/-- Where there is no backslash, unescaping has nothing to take away. -/
theorem unescapeAll_of_not_mem {text : Text} (h : '\\' ∉ text) (keys : List Text) :
    unescapeAll keys text = text := by
  have one (key done rest : Text) (hb : '\\' ∉ done ++ rest) :
      (walk key (fun before _ => ((), Text.dropEscape before ++ key)) done rest).2 =
        done ++ rest := by
    induction done, rest using walk_induction with
    | stop done rest _ => rfl
    | visit done between after result _ ih =>
      have hwhole : done ++ (between ++ key ++ after) = done ++ between ++ key ++ after := by simp
      rw [hwhole] at hb ⊢
      have hbefore : '\\' ∉ done ++ between :=
        fun hm => hb (List.mem_append_left _ (List.mem_append_left _ hm))
      dsimp only at ih ⊢
      rw [Text.dropEscape_of_not_mem hbefore] at ih
      exact ih hb
  induction keys with
  | nil => rfl
  | cons key keys ih =>
    rw [unescapeAll,List.foldl_cons,one key [] text h]
    exact ih

variable {position : CommandPosition} {entry : Entry} {entries : List Entry}

namespace Pass

/-- With no backslash about, an alias does the same whether backslashes are to be
kept or dropped. -/
theorem resume_drop_eq_keep (hv : '\\' ∉ entry.value) {done rest : Text}
    (h : '\\' ∉ done ++ rest) :
    resume position .drop entry done rest = resume position .keep entry done rest := by
  revert h
  refine resume_induction (motive := fun done rest pass =>
    '\\' ∉ done ++ rest → resume position .drop entry done rest = pass) ?_ ?_ done rest
  · intro done rest habsent _
    exact resume_of_absent habsent
  · intro done between after pass hc ih h
    have hwhole : done ++ (between ++ entry.key ++ after) =
      done ++ between ++ entry.key ++ after := by simp
    rw [hwhole] at h
    have hbefore : '\\' ∉ done ++ between :=
      fun hm => h (List.mem_append_left _ (List.mem_append_left _ hm))
    have hmarked : (Visit.make position entry.key (done ++ between) after).occurrence ≠ .escaped :=
      Visit.ne_escaped hbefore
    have hleft := Visit.leaves_drop_eq_keep hmarked entry.value
    have hedit : Edit position .keep [entry] _ _ := .visit entry (done ++ between) after
      List.mem_cons_self (Text.cutFirst?_eq_some hc).1
    have hrest := ih (not_mem_of_edits (by simpa using hv) (.single hedit) h)
    rw [resume_of_cut hc,hleft,hrest]

theorem ofEntries_drop_eq_keep (hv : ∀ entry ∈ entries, '\\' ∉ entry.value) {text : Text}
    (h : '\\' ∉ text) :
    ofEntries position .drop entries text = ofEntries position .keep entries text := by
  induction entries generalizing text with
  | nil => rfl
  | cons entry entries ih =>
    obtain ⟨hentry,hrest⟩ := List.forall_mem_cons.mp hv
    have hfirst : ofEntry position .drop entry text = ofEntry position .keep entry text :=
      resume_drop_eq_keep hentry h
    have hnext : '\\' ∉ (ofEntry position .keep entry text).text :=
      not_mem_of_edits hv (edits_resume List.mem_cons_self [] text) h
    rw [ofEntries,ofEntries,hfirst,ih hrest hnext]

/-- An alias that keeps backslashes and replaces nothing leaves the text as it is. -/
theorem resume_keep_of_no_substitution (done rest : Text)
    (h : (resume position .keep entry done rest).substitutions = 0) :
    (resume position .keep entry done rest).text = done ++ rest := by
  induction done, rest using resume_induction with
  | stop done rest _ => rfl
  | visit done between after pass _ ih =>
    simp only [substitutions,List.countP_cons,Nat.add_eq_zero_iff] at h
    obtain ⟨hrest,hvalid⟩ := h
    have hleft : (Visit.make position entry.key (done ++ between) after).leaves .keep
        entry.value = done ++ between ++ entry.key := by
      cases ho : (Visit.make position entry.key (done ++ between) after).occurrence with
      | escaped => exact Visit.leaves_escaped _ ho
      | valid => simp [ho] at hvalid
      | invalid => exact Visit.leaves_invalid _ ho
    rw [hleft] at ih
    refine (ih hrest).trans ?_
    simp only [List.append_assoc]

theorem ofEntries_keep_of_no_substitution {text : Text}
    (h : (ofEntries position .keep entries text).substitutions = 0) :
    (ofEntries position .keep entries text).text = text := by
  induction entries generalizing text with
  | nil => rfl
  | cons entry entries ih =>
    simp only [ofEntries,substitutions,List.countP_append,Nat.add_eq_zero_iff] at h
    obtain ⟨hfirst,hothers⟩ := h
    have htext : (ofEntry position .keep entry text).text = text :=
      resume_keep_of_no_substitution [] text hfirst
    rw [htext] at hothers
    simp only [ofEntries,htext]
    exact ih hothers

end Pass

namespace Expansion

/-- If a pass that replaces nothing changes nothing, stopping after it is as good
as going on. -/
theorem text_repeatPass_eq_iterate {pass : Text → Pass}
    (hidle : ∀ text, (pass text).substitutions = 0 → (pass text).text = text) (n : Nat)
    (text : Text) :
    (repeatPass pass n text).text = (fun text => (pass text).text)^[n] text := by
  induction n generalizing text with
  | zero => rfl
  | succ n ih =>
    rw [repeatPass,Function.iterate_succ_apply]
    split
    · rename_i hzero
      have hfixed := hidle text hzero
      dsimp only
      rw [hfixed,Function.iterate_fixed hfixed]
    · exact ih _

theorem settled_repeatPass_iff (pass : Text → Pass) (n : Nat) (text : Text) :
    (repeatPass pass n text).settled = true ↔
      ∃ i < n, (pass ((fun text => (pass text).text)^[i] text)).substitutions = 0 := by
  induction n generalizing text with
  | zero => simp [repeatPass]
  | succ n ih =>
    rw [repeatPass]
    split
    · rename_i hzero
      exact ⟨fun _ => ⟨0,n.succ_pos,hzero⟩,fun _ => rfl⟩
    · rename_i hzero
      dsimp only
      rw [ih]
      constructor
      · rintro ⟨i,hi,hidle⟩
        exact ⟨i + 1,by omega,hidle⟩
      · rintro ⟨i,hi,hidle⟩
        cases i with
        | zero => exact absurd hidle hzero
        | succ i => exact ⟨i,by omega,hidle⟩

/-- Single passes over a text without backslashes, one after the other, are passes
that keep backslashes. -/
theorem iterate_singlePass (hv : ∀ entry ∈ entries, '\\' ∉ entry.value) {text : Text}
    (h : '\\' ∉ text) (n : Nat) :
    (fun text => (expand position .singlePass entries text).text)^[n] text =
        (fun text => (Pass.ofEntries position .keep entries text).text)^[n] text ∧
      '\\' ∉ (fun text => (Pass.ofEntries position .keep entries text).text)^[n] text := by
  induction n with
  | zero => exact ⟨rfl,h⟩
  | succ n ih =>
    obtain ⟨hsame,hn⟩ := ih
    rw [Function.iterate_succ_apply',Function.iterate_succ_apply',hsame]
    refine ⟨?_,not_mem_of_edits hv (Pass.edits_ofEntries _) hn⟩
    exact congrArg Pass.text (Pass.ofEntries_drop_eq_keep hv hn)

/-- Where no backslash comes in, repeated passes are single passes in a row, up to
the cap and at least one. The warning is left out just if one of them replaced
nothing, and then a further single pass changes nothing. -/
theorem expand_fixedPoint_eq_iterate (position : CommandPosition) {entries : List Entry}
    (values : ∀ entry ∈ entries, '\\' ∉ entry.value) {input : Text} (unescaped : '\\' ∉ input)
    (n : Nat) :
    let once := fun text => (expand position .singlePass entries text).text
    let repeated := expand position (.fixedPoint n) entries input
    repeated.text = once^[max n 1] input ∧
      (Event.unsettled (max n 1) ∉ repeated.log ↔ ∃ i < max n 1,
        (Pass.ofEntries position .keep entries (once^[i] input)).substitutions = 0) ∧
      ((∃ i < max n 1,
        (Pass.ofEntries position .keep entries (once^[i] input)).substitutions = 0) →
          once repeated.text = repeated.text) := by
  intro once repeated
  let kept := fun text => (Pass.ofEntries position .keep entries text).text
  have hsame (i : Nat) : once^[i] input = kept^[i] input :=
    (iterate_singlePass values unescaped i).1
  have hrun : (repeatPass (Pass.ofEntries position .keep entries) (max n 1) input).text =
      kept^[max n 1] input :=
    text_repeatPass_eq_iterate (fun _ => Pass.ofEntries_keep_of_no_substitution) _ _
  have htext : repeated.text = once^[max n 1] input := by
    change unescapeAll (entries.map Entry.key)
      (repeatPass (Pass.ofEntries position .keep entries) (max n 1) input).text = _
    rw [hrun,hsame]
    exact unescapeAll_of_not_mem (iterate_singlePass values unescaped _).2 _
  refine ⟨htext,?_,?_⟩
  · simp only [hsame]
    rw [← settled_repeatPass_iff]
    change Event.unsettled (max n 1) ∉ List.map Event.visited _ ++ (if _ then _ else _) ++ _ ↔ _
    split <;> simp_all [ExpansionMode.passes]
  · rintro ⟨i,hi,hidle⟩
    rw [hsame] at hidle
    have hfixed : kept (kept^[i] input) = kept^[i] input :=
      Pass.ofEntries_keep_of_no_substitution hidle
    have hlast : kept^[max n 1] input = kept^[i] input := by
      obtain ⟨more,hmore⟩ := Nat.exists_eq_add_of_le' (Nat.le_of_lt hi)
      rw [hmore,Function.iterate_add_apply,Function.iterate_fixed hfixed]
    rw [htext,← Function.iterate_succ_apply' once,hsame,hsame,Function.iterate_succ_apply',hlast,
      hfixed]

/-- An alias whose value an older one replaces takes a second pass, and a third
finds nothing to do. -/
theorem expand_fixedPoint_eq_iterate_hub :
    let entries : List Entry := [⟨['g','i','t'],['h','u','b']⟩,⟨['g'],['g','i','t']⟩]
    let once := fun text => (expand CommandPosition.shell .singlePass entries text).text
    let repeated := expand CommandPosition.shell (.fixedPoint 3) entries ['g']
    (∀ entry ∈ entries, '\\' ∉ entry.value) ∧ '\\' ∉ ['g'] ∧ once ['g'] = ['g','i','t'] ∧
      once^[3] ['g'] = ['h','u','b'] ∧ Event.unsettled 3 ∉ repeated.log ∧
      once repeated.text = repeated.text := by
  intro entries once repeated
  have values : ∀ entry ∈ entries, '\\' ∉ entry.value := by decide
  have unescaped : '\\' ∉ ['g'] := by decide
  have hone : once ['g'] = ['g','i','t'] := by decide +kernel
  have htext : repeated.text = ['h','u','b'] := by decide +kernel
  have hlog : Event.unsettled 3 ∉ repeated.log := by decide +kernel
  obtain ⟨hrepeated,hsettled,hfinal⟩ :=
    expand_fixedPoint_eq_iterate CommandPosition.shell values unescaped 3
  exact ⟨values,unescaped,hone,hrepeated.symm.trans htext,hlog,hfinal (hsettled.mp hlog)⟩

end Expansion
end ShellAlias
