import Mathlib.Logic.Relation
import ShellAlias.Expansion.Basic
import ShellAlias.Proofs.Text.Backslash

namespace ShellAlias

namespace Visit

/-- An occurrence is judged by the text before it and by the key, and by the
rule only if those do not settle it. -/
theorem occurrence_make (position : CommandPosition) (key before after : Text) :
    (make position key before after).occurrence =
      if before.getLast? = some '\\' then .escaped
      else if key.head? = some '~' then .valid
      else if position key (before ++ key ++ after) (Text.size before) = true then .valid
      else .invalid := by
  have he := Occurrence.isEscaped_append before (key ++ after)
  rw [← List.append_assoc] at he
  have hs : Occurrence.isSentinelKey key = true ↔ key.head? = some '~' := decide_eq_true_iff
  simp only [make,Occurrence.judge_eq,he,hs,apply_ite Prod.fst]

section
variable {position : CommandPosition} {key before after : Text}

theorem escaped_iff :
    (make position key before after).occurrence = .escaped ↔ before.getLast? = some '\\' := by
  rw [occurrence_make]
  by_cases he : before.getLast? = some '\\' <;> by_cases hs : key.head? = some '~' <;>
    cases position key (before ++ key ++ after) (Text.size before) <;> simp [he,hs]

theorem valid_iff :
    (make position key before after).occurrence = .valid ↔ before.getLast? ≠ some '\\' ∧
      (key.head? = some '~' ∨
        position key (before ++ key ++ after) (Text.size before) = true) := by
  rw [occurrence_make]
  by_cases he : before.getLast? = some '\\' <;> by_cases hs : key.head? = some '~' <;>
    cases position key (before ++ key ++ after) (Text.size before) <;> simp [he,hs]

theorem invalid_iff :
    (make position key before after).occurrence = .invalid ↔ before.getLast? ≠ some '\\' ∧
      key.head? ≠ some '~' ∧
        position key (before ++ key ++ after) (Text.size before) = false := by
  rw [occurrence_make]
  by_cases he : before.getLast? = some '\\' <;> by_cases hs : key.head? = some '~' <;>
    cases position key (before ++ key ++ after) (Text.size before) <;> simp [he,hs]

end

theorem ne_escaped {position : CommandPosition} {key before after : Text}
    (hb : '\\' ∉ before) : (make position key before after).occurrence ≠ .escaped := by
  intro ho
  exact hb (List.mem_of_getLast? (escaped_iff.mp ho))

theorem leaves_escaped {escapes : Escapes} {visit : Visit} (value : Text)
    (h : visit.occurrence = .escaped) : visit.leaves escapes value =
      match escapes with
      | .drop => Text.dropEscape visit.before ++ visit.key
      | .keep => visit.before ++ visit.key := by
  cases escapes <;> simp [leaves,h]

theorem leaves_valid {escapes : Escapes} {visit : Visit} (value : Text)
    (h : visit.occurrence = .valid) : visit.leaves escapes value = visit.before ++ value := by
  simp [leaves,h]

theorem leaves_invalid {escapes : Escapes} {visit : Visit} (value : Text)
    (h : visit.occurrence = .invalid) :
    visit.leaves escapes value = visit.before ++ visit.key := by
  simp [leaves,h]

/-- A key that stands for itself loses its backslash and nothing else. -/
theorem leaves_drop_key (position : CommandPosition) (key before after : Text) :
    (make position key before after).leaves .drop key = Text.dropEscape before ++ key := by
  by_cases he : before.getLast? = some '\\'
  · exact leaves_escaped _ (escaped_iff.mpr he)
  · have hd : Text.dropEscape before = before := if_neg he
    rw [hd]
    cases ho : (make position key before after).occurrence with
    | escaped => exact absurd (escaped_iff.mp ho) he
    | valid => exact leaves_valid _ ho
    | invalid => exact leaves_invalid _ ho

end Visit

theorem walk_of_absent {α : Type} {key done rest : Text} {step : Text → Text → α × Text}
    (h : key = [] ∨ ¬ key <:+: rest) : walk key step done rest = ([], done ++ rest) := by
  have hc := Text.cutFirst?_eq_none_iff.mpr h
  rw [walk]
  split
  · rfl
  · rename_i hs
    rw [hc] at hs
    contradiction

theorem walk_of_cut {α : Type} {key done rest between after : Text}
    {step : Text → Text → α × Text} (hc : Text.cutFirst? key rest = some (between, after)) :
    walk key step done rest =
      ((step (done ++ between) after).1 :: (walk key step (step (done ++ between) after).2 after).1,
        (walk key step (step (done ++ between) after).2 after).2) := by
  rw [walk]
  split
  · rename_i hs
    rw [hc] at hs
    contradiction
  · rename_i hs
    rw [hc] at hs
    obtain ⟨rfl,rfl⟩ := Prod.mk.inj (Option.some.inj hs)
    rfl

@[elab_as_elim]
theorem walk_induction {α : Type} {key : Text} {step : Text → Text → α × Text}
    {motive : (done rest : Text) → List α × Text → Prop}
    (stop : ∀ done rest, key = [] ∨ ¬ key <:+: rest → motive done rest ([], done ++ rest))
    (visit : ∀ done between after result,
      Text.cutFirst? key (between ++ key ++ after) = some (between, after) →
      motive (step (done ++ between) after).2 after result →
      motive done (between ++ key ++ after)
        ((step (done ++ between) after).1 :: result.1, result.2))
    (done rest : Text) : motive done rest (walk key step done rest) := by
  fun_induction walk key step done rest with
  | case1 done rest hc => exact stop done rest (Text.cutFirst?_eq_none_iff.mp hc)
  | case2 done rest between after hc seen done' hs others text ho ih =>
    obtain ⟨_,rfl⟩ := Text.cutFirst?_eq_some hc
    have h := visit done between after (others, text) hc
    rw [hs] at h
    exact h (ho ▸ ih)

/-- What is told of an occurrence does not change what becomes of the text. -/
theorem walk_map {α β : Type} (tell : α → β) (key : Text) (step : Text → Text → α × Text)
    (done rest : Text) :
    walk key (fun before after => (tell (step before after).1, (step before after).2)) done rest =
      ((walk key step done rest).1.map tell, (walk key step done rest).2) := by
  refine walk_induction (motive := fun done rest result =>
    walk key (fun before after => (tell (step before after).1, (step before after).2)) done rest =
      (result.1.map tell, result.2)) ?_ ?_ done rest
  · intro done rest h
    exact walk_of_absent h
  · intro done between after result hc ih
    rw [walk_of_cut hc,ih,List.map_cons]

namespace Pass

variable {position : CommandPosition} {escapes : Escapes} {entry : Entry}

/-- What one alias makes of a text when it has come to `rest` and has left
`done` of what was before. -/
def resume (position : CommandPosition) (escapes : Escapes) (entry : Entry)
    (done rest : Text) : Pass :=
  let (visits, text) := walk entry.key (fun before after =>
    let visit := Visit.make position entry.key before after
    (visit, visit.leaves escapes entry.value)) done rest
  ⟨visits,text⟩

theorem ofEntry_eq_resume (text : Text) :
    ofEntry position escapes entry text = resume position escapes entry [] text := rfl

theorem resume_of_absent {done rest : Text} (h : entry.key = [] ∨ ¬ entry.key <:+: rest) :
    resume position escapes entry done rest = ⟨[],done ++ rest⟩ := by
  rw [resume,walk_of_absent h]

theorem resume_of_cut {done rest between after : Text}
    (hc : Text.cutFirst? entry.key rest = some (between, after)) :
    let visit := Visit.make position entry.key (done ++ between) after
    let others := resume position escapes entry (visit.leaves escapes entry.value) after
    resume position escapes entry done rest = ⟨visit :: others.visits,others.text⟩ := by
  rw [resume,walk_of_cut hc]
  rfl

@[elab_as_elim]
theorem resume_induction {motive : (done rest : Text) → Pass → Prop}
    (stop : ∀ done rest, entry.key = [] ∨ ¬ entry.key <:+: rest →
      motive done rest ⟨[],done ++ rest⟩)
    (visit : ∀ done between after (pass : Pass),
      Text.cutFirst? entry.key (between ++ entry.key ++ after) = some (between, after) →
      motive ((Visit.make position entry.key (done ++ between) after).leaves escapes entry.value)
        after pass →
      motive done (between ++ entry.key ++ after)
        ⟨Visit.make position entry.key (done ++ between) after :: pass.visits,pass.text⟩)
    (done rest : Text) : motive done rest (resume position escapes entry done rest) := by
  unfold resume
  induction done, rest using walk_induction with
  | stop done rest h => exact stop done rest h
  | visit done between after result hc ih => exact visit done between after _ hc ih

/-- Dropping the backslashes before a key is a pass in which the key stands for
itself. -/
theorem unescapeAll_eq_ofEntries (position : CommandPosition) (keys : List Text) (text : Text) :
    unescapeAll keys text =
      (ofEntries position .drop (keys.map fun key => ⟨key,key⟩) text).text := by
  have hwalk (key done rest : Text) :
      (walk key (fun before _ => ((), Text.dropEscape before ++ key)) done rest).2 =
        (resume position .drop ⟨key,key⟩ done rest).text := by
    induction done, rest using resume_induction with
    | stop done rest h => rw [walk_of_absent h]
    | visit done between after pass hc ih =>
      rw [walk_of_cut hc]
      rw [Visit.leaves_drop_key] at ih
      exact ih
  induction keys generalizing text with
  | nil => rfl
  | cons key keys ih =>
    rw [unescapeAll,List.foldl_cons,hwalk]
    exact ih _

end Pass
end ShellAlias
