import ShellAlias.Proofs.Expansion.Visit

namespace ShellAlias

inductive Edit (position : CommandPosition) (escapes : Escapes) (entries : List Entry) :
    Text → Text → Prop where
  | visit (entry : Entry) (before after : Text) (mem : entry ∈ entries)
      (nonempty : entry.key ≠ []) :
      Edit position escapes entries (before ++ entry.key ++ after)
        ((Visit.make position entry.key before after).leaves escapes entry.value ++ after)

/-- No occurrence of the key in `rest` is one that would change the text. -/
def Quiet (position : CommandPosition) (escapes : Escapes) (key done rest : Text) : Prop :=
  ∀ between after, rest = between ++ key ++ after →
    (Visit.make position key (done ++ between) after).occurrence = .invalid ∨
      (Visit.make position key (done ++ between) after).occurrence = .escaped ∧ escapes = .keep

namespace Pass

variable {position : CommandPosition} {escapes : Escapes} {entry : Entry} {entries : List Entry}

theorem edits_resume (hm : entry ∈ entries) (done rest : Text) :
    Relation.ReflTransGen (Edit position escapes entries) (done ++ rest)
      (resume position escapes entry done rest).text := by
  induction done, rest using resume_induction with
  | stop done rest h => exact .refl
  | visit done between after pass hc ih =>
    have hk := (Text.cutFirst?_eq_some hc).1
    have hv : Edit position escapes entries (done ++ between ++ entry.key ++ after) _ :=
      .visit entry (done ++ between) after hm hk
    simp only [List.append_assoc] at hv ⊢
    exact .head hv ih

theorem edits_ofEntries_of_subset {part : List Entry} (hs : part ⊆ entries) (text : Text) :
    Relation.ReflTransGen (Edit position escapes entries) text
      (ofEntries position escapes part text).text := by
  induction part generalizing text with
  | nil => exact .refl
  | cons entry part ih =>
    obtain ⟨hm,hs⟩ := List.cons_subset.mp hs
    exact .trans (edits_resume hm [] text) (ih hs _)

/-- A pass is a run of edits. -/
theorem edits_ofEntries (text : Text) :
    Relation.ReflTransGen (Edit position escapes entries) text
      (ofEntries position escapes entries text).text :=
  edits_ofEntries_of_subset (List.Subset.refl _) text

/-- Every visit is of a stored key that is not empty. -/
theorem visits_resume_made (done rest : Text) :
    ∀ visit ∈ (resume position escapes entry done rest).visits,
      entry.key ≠ [] ∧ visit = Visit.make position entry.key visit.before visit.after := by
  induction done, rest using resume_induction with
  | stop done rest h => simp
  | visit done between after pass hc ih =>
    intro visit hv
    rcases List.mem_cons.mp hv with rfl | hv
    · exact ⟨(Text.cutFirst?_eq_some hc).1,rfl⟩
    · exact ih visit hv

theorem visits_ofEntries_made (text : Text) :
    ∀ visit ∈ (ofEntries position escapes entries text).visits, ∃ entry ∈ entries,
      entry.key ≠ [] ∧ visit = Visit.make position entry.key visit.before visit.after := by
  induction entries generalizing text with
  | nil => simp [ofEntries]
  | cons entry entries ih =>
    intro visit hv
    rcases List.mem_append.mp hv with hv | hv
    · exact ⟨entry,List.mem_cons_self,visits_resume_made [] text visit hv⟩
    · obtain ⟨other,hm,ho⟩ := ih _ visit hv
      exact ⟨other,List.mem_cons_of_mem _ hm,ho⟩

/-- Where the key is quiet the alias changes nothing and replaces nothing. -/
theorem resume_of_quiet {done rest : Text}
    (hq : entry.key ≠ [] → Quiet position escapes entry.key done rest) :
    (resume position escapes entry done rest).text = done ++ rest ∧
      (resume position escapes entry done rest).substitutions = 0 := by
  induction done, rest using resume_induction with
  | stop done rest h => exact ⟨rfl,rfl⟩
  | visit done between after pass hc ih =>
    have hk := (Text.cutFirst?_eq_some hc).1
    have hkept : (Visit.make position entry.key (done ++ between) after).leaves escapes
        entry.value = done ++ between ++ entry.key ∧
        (Visit.make position entry.key (done ++ between) after).occurrence ≠ .valid := by
      rcases hq hk between after rfl with hv | ⟨hv,rfl⟩
      · exact ⟨Visit.leaves_invalid _ hv,by simp [hv]⟩
      · exact ⟨Visit.leaves_escaped _ hv,by simp [hv]⟩
    have hafter : Quiet position escapes entry.key
        (done ++ between ++ entry.key) after := by
      intro between' after' he
      have hv := hq hk (between ++ entry.key ++ between') after' (by simp [he])
      simpa only [List.append_assoc] using hv
    rw [hkept.1] at ih
    obtain ⟨htext,hcount⟩ := ih (fun _ => hafter)
    refine ⟨by simp [htext],?_⟩
    simpa [substitutions,List.countP_cons,hkept.2] using hcount

theorem ofEntries_of_quiet {text : Text}
    (hq : ∀ entry ∈ entries, entry.key ≠ [] → Quiet position escapes entry.key [] text) :
    (ofEntries position escapes entries text).text = text ∧
      (ofEntries position escapes entries text).substitutions = 0 := by
  induction entries with
  | nil => exact ⟨rfl,rfl⟩
  | cons entry entries ih =>
    obtain ⟨htext,hcount⟩ := resume_of_quiet (hq entry List.mem_cons_self)
    obtain ⟨hothers,hrest⟩ := ih (fun other hm => hq other (List.mem_cons_of_mem _ hm))
    have hfirst : (ofEntry position escapes entry text).text = text := htext
    refine ⟨by rw [ofEntries,hfirst]; exact hothers,?_⟩
    simp only [ofEntries,hfirst,substitutions,List.countP_append] at hrest ⊢
    rw [hrest]
    exact hcount

end Pass

namespace Expansion

variable {position : CommandPosition} {escapes : Escapes} {entries : List Entry}

theorem edits_repeatPass (n : Nat) (text : Text) :
    Relation.ReflTransGen (Edit position escapes entries) text
      (repeatPass (Pass.ofEntries position escapes entries) n text).text := by
  induction n generalizing text with
  | zero => exact .refl
  | succ n ih =>
    rw [repeatPass]
    split
    · exact Pass.edits_ofEntries text
    · exact .trans (Pass.edits_ofEntries text) (ih _)

theorem visits_repeatPass_made (n : Nat) (text : Text) :
    ∀ visit ∈ (repeatPass (Pass.ofEntries position escapes entries) n text).visits,
      ∃ entry ∈ entries,
        entry.key ≠ [] ∧ visit = Visit.make position entry.key visit.before visit.after := by
  induction n generalizing text with
  | zero => simp [repeatPass]
  | succ n ih =>
    intro visit hv
    rw [repeatPass] at hv
    split at hv
    · exact Pass.visits_ofEntries_made text visit hv
    · rcases List.mem_append.mp hv with hv | hv
      · exact Pass.visits_ofEntries_made text visit hv
      · exact ih _ visit hv

theorem repeatPass_of_quiet {n : Nat} (hn : 0 < n) {text : Text}
    (hq : ∀ entry ∈ entries, entry.key ≠ [] → Quiet position escapes entry.key [] text) :
    (repeatPass (Pass.ofEntries position escapes entries) n text).text = text := by
  obtain ⟨n,rfl⟩ := Nat.exists_eq_succ_of_ne_zero (Nat.ne_of_gt hn)
  obtain ⟨htext,hcount⟩ := Pass.ofEntries_of_quiet hq
  simp [repeatPass,hcount,htext]

/-- Passes that leave nothing to change after the first are as good as one. -/
theorem repeatPass_of_pass_quiet {n : Nat} (hn : 0 < n) {text : Text}
    (hq : ∀ entry ∈ entries, entry.key ≠ [] → Quiet position escapes entry.key []
      (Pass.ofEntries position escapes entries text).text) :
    (repeatPass (Pass.ofEntries position escapes entries) n text).text =
      (Pass.ofEntries position escapes entries text).text := by
  obtain ⟨n,rfl⟩ := Nat.exists_eq_succ_of_ne_zero (Nat.ne_of_gt hn)
  rw [repeatPass]
  split
  · rfl
  · cases n with
    | zero => rfl
    | succ n => exact repeatPass_of_quiet n.succ_pos hq

end Expansion
end ShellAlias
