import Mathlib.Data.List.Forall2
import ShellAlias.Proofs.Expansion.Visit

namespace ShellAlias

/-- The entries have the same key, and the same value unless it is that of one key. -/
def Entry.AgreesBut (key : Text) (entry other : Entry) : Prop :=
  entry.key = other.key ∧ (entry.key ≠ key → entry.value = other.value)

namespace Visit

def Replaces (visit : Visit) (key : Text) : Prop := visit.key = key ∧ visit.occurrence = .valid

instance (visit : Visit) (key : Text) : Decidable (visit.Replaces key) :=
  inferInstanceAs (Decidable (_ ∧ _))

theorem leaves_of_not_valid {visit : Visit} (h : visit.occurrence ≠ .valid) (escapes : Escapes)
    (value other : Text) : visit.leaves escapes value = visit.leaves escapes other := by
  cases ho : visit.occurrence with
  | valid => exact absurd ho h
  | escaped => rw [leaves_escaped value ho,leaves_escaped other ho]
  | invalid => rw [leaves_invalid value ho,leaves_invalid other ho]

end Visit

variable {position : CommandPosition} {escapes : Escapes} {key : Text} {entries others : List Entry}

namespace Pass

/-- A value that is put nowhere may be any other. -/
theorem resume_congr_value {entry other : Entry} (agree : entry.AgreesBut key other)
    (done rest : Text)
    (h : ∀ visit ∈ (resume position escapes entry done rest).visits, ¬ visit.Replaces key) :
    resume position escapes other done rest = resume position escapes entry done rest := by
  obtain ⟨hkey,hvalue⟩ := agree
  revert h
  refine resume_induction (motive := fun done rest pass =>
    (∀ visit ∈ pass.visits, ¬ visit.Replaces key) →
      resume position escapes other done rest = pass) ?_ ?_ done rest
  · intro done rest habsent _
    exact resume_of_absent (hkey ▸ habsent)
  · intro done between after pass hc ih h
    obtain ⟨hfirst,hothers⟩ := List.forall_mem_cons.mp h
    have hleft :
        (Visit.make position entry.key (done ++ between) after).leaves escapes other.value =
          (Visit.make position entry.key (done ++ between) after).leaves escapes entry.value := by
      by_cases hk : entry.key = key
      · exact Visit.leaves_of_not_valid (fun ho => hfirst ⟨hk,ho⟩) escapes _ _
      · rw [hvalue hk]
    rw [hkey] at hc hleft ih ⊢
    rw [resume_of_cut hc,hleft,ih hothers]

theorem ofEntries_congr_value {text : Text}
    (agree : List.Forall₂ (Entry.AgreesBut key) entries others)
    (h : ∀ visit ∈ (ofEntries position escapes entries text).visits, ¬ visit.Replaces key) :
    ofEntries position escapes others text = ofEntries position escapes entries text := by
  induction agree generalizing text with
  | nil => rfl
  | @cons entry other _ _ first agree ih =>
    rw [ofEntries] at h
    obtain ⟨hfirst,hothers⟩ := List.forall_mem_append.mp h
    have hentry : ofEntry position escapes other text = ofEntry position escapes entry text :=
      resume_congr_value first [] text hfirst
    rw [ofEntries,ofEntries,hentry,ih hothers]

end Pass

namespace Expansion

theorem repeatPass_congr_value {n : Nat} {text : Text}
    (agree : List.Forall₂ (Entry.AgreesBut key) entries others)
    (h : ∀ visit ∈ (repeatPass (Pass.ofEntries position escapes entries) n text).visits,
      ¬ visit.Replaces key) :
    repeatPass (Pass.ofEntries position escapes others) n text =
      repeatPass (Pass.ofEntries position escapes entries) n text := by
  induction n generalizing text with
  | zero => rfl
  | succ n ih =>
    rw [repeatPass] at h
    have hfirst : ∀ visit ∈ (Pass.ofEntries position escapes entries text).visits,
        ¬ visit.Replaces key := by
      intro visit hm
      split at h
      · exact h visit hm
      · exact h visit (List.mem_append_left _ hm)
    rw [repeatPass,Pass.ofEntries_congr_value agree hfirst]
    conv => rhs; rw [repeatPass]
    split
    · rfl
    · rename_i hbusy
      rw [if_neg hbusy] at h
      rw [ih fun visit hm => h visit (List.mem_append_right _ hm)]

def visits (expansion : Expansion) : List Visit :=
  expansion.log.filterMap fun event =>
    match event with
    | .visited visit => some visit
    | _ => none

theorem mem_visits {expansion : Expansion} {visit : Visit} :
    visit ∈ expansion.visits ↔ .visited visit ∈ expansion.log := by
  rw [visits,List.mem_filterMap]
  constructor
  · rintro ⟨event,hm,he⟩
    cases event with
    | visited other => exact Option.some.inj he ▸ hm
    | _ => contradiction
  · intro hm
    exact ⟨_,hm,rfl⟩

def Replaces (expansion : Expansion) (key : Text) : Prop :=
  ∃ visit ∈ expansion.visits, visit.Replaces key

instance (expansion : Expansion) (key : Text) : Decidable (expansion.Replaces key) :=
  inferInstanceAs (Decidable (∃ visit ∈ expansion.visits, _))

theorem map_key_eq (agree : List.Forall₂ (Entry.AgreesBut key) entries others) :
    others.map Entry.key = entries.map Entry.key := by
  induction agree with
  | nil => rfl
  | cons first _ ih => rw [List.map_cons,List.map_cons,first.1,ih]

/-- An expansion that replaces no occurrence of a key does not depend on the key's
value. -/
theorem expand_congr_value {mode : ExpansionMode} {input : Text}
    (agree : List.Forall₂ (Entry.AgreesBut key) entries others)
    (h : ¬ (expand position mode entries input).Replaces key) :
    expand position mode others input = expand position mode entries input := by
  cases mode with
  | singlePass =>
    have hvisits : ∀ visit ∈ (Pass.ofEntries position .drop entries input).visits,
        ¬ visit.Replaces key := by
      intro visit hm hr
      refine h ⟨visit,mem_visits.mpr ?_,hr⟩
      exact List.mem_append_left _ (List.mem_map_of_mem hm)
    rw [expand,expand,Pass.ofEntries_congr_value agree hvisits]
  | fixedPoint maxPasses =>
    have hvisits : ∀ visit ∈ (repeatPass (Pass.ofEntries position .keep entries)
        (ExpansionMode.fixedPoint maxPasses).passes input).visits, ¬ visit.Replaces key := by
      intro visit hm hr
      refine h ⟨visit,mem_visits.mpr ?_,hr⟩
      exact List.mem_append_left _ (List.mem_append_left _ (List.mem_map_of_mem hm))
    rw [expand,expand,repeatPass_congr_value agree hvisits,map_key_eq agree]

end Expansion
end ShellAlias
