import Mathlib.Data.List.Basic
import ShellAlias.Proofs.Expansion.PassCap
import ShellAlias.Proofs.Expansion.Rounds

namespace ShellAlias

/-- A question that makes sense to the rule: it is about an alias with a key that is
not replaced in any case, the key stands at the index, between characters and with no
backslash before it, and the answer is the rule's. -/
structure Query.IsWellPut (position : CommandPosition) (entry : Entry) (query : Query) :
    Prop where
  key_eq : query.key = entry.key
  nonempty : query.key ≠ []
  ordinary : query.key.head? ≠ some '~'
  boundary : Text.IsBoundary query.context query.index
  stands : Text.StandsAt query.key query.context query.index
  unescaped : 0 < query.index →
    (Text.bytes query.context)[query.index - 1]? ≠ some Occurrence.backslash
  answered : query.answer = position query.key query.context query.index

def Query.left (entry : Entry) (query : Query) : Text :=
  if query.answer then entry.value else entry.key

namespace Visit

variable {position : CommandPosition} {escapes : Escapes} {entry : Entry}

theorem query?_make (position : CommandPosition) (key before after : Text) :
    (make position key before after).query? =
      if before.getLast? = some '\\' ∨ key.head? = some '~' then none
      else some ⟨key,before ++ key ++ after,Text.size before,
        position key (before ++ key ++ after) (Text.size before)⟩ := by
  have he := Occurrence.isEscaped_append before (key ++ after)
  rw [← List.append_assoc] at he
  have hs : Occurrence.isSentinelKey key = true ↔ key.head? = some '~' := decide_eq_true_iff
  simp only [query?_eq_judge,Occurrence.judge_eq,he,hs]
  by_cases hb : before.getLast? = some '\\' <;> by_cases hk : key.head? = some '~' <;>
    cases position key (before ++ key ++ after) (Text.size before) <;> simp [hb,hk]

theorem query?_eq_some {key before after : Text} {query : Query}
    (h : (make position key before after).query? = some query) :
    before.getLast? ≠ some '\\' ∧ key.head? ≠ some '~' ∧
      query = ⟨key,before ++ key ++ after,Text.size before,
        position key (before ++ key ++ after) (Text.size before)⟩ := by
  rw [query?_make] at h
  split at h
  · contradiction
  · rename_i hasked
    exact ⟨fun he => hasked (Or.inl he),fun hk => hasked (Or.inr hk),(Option.some.inj h).symm⟩

theorem isWellPut {before after : Text} {query : Query} (hk : entry.key ≠ [])
    (h : (make position entry.key before after).query? = some query) :
    query.IsWellPut position entry := by
  obtain ⟨hescape,hsentinel,rfl⟩ := query?_eq_some h
  refine ⟨rfl,hk,hsentinel,?_,Text.standsAt_size before entry.key after,?_,rfl⟩
  · dsimp only
    rw [List.append_assoc]
    exact Text.isBoundary_size _ _
  · intro hindex hbyte
    apply hescape
    rw [← Occurrence.isEscaped_append before (entry.key ++ after),← List.append_assoc,
      Occurrence.isEscaped,decide_eq_true hindex,decide_eq_true hbyte]
    rfl

/-- Nothing that a visit does takes away from what was done before. -/
theorem size_le_leaves {before after : Text} (hk : entry.key ≠ []) :
    Text.size before ≤
      Text.size ((make position entry.key before after).leaves escapes entry.value) := by
  have hpos := Text.size_pos hk
  have hdrop : Text.size before ≤ Text.size (Text.dropEscape before) + 1 := by
    rw [Text.dropEscape]
    split
    · rename_i hlast
      obtain ⟨front,rfl⟩ := List.getLast?_eq_some_iff.mp hlast
      rw [List.dropLast_concat,Text.size_append]
      exact Nat.le_refl _
    · exact Nat.le_succ _
  cases ho : (make position entry.key before after).occurrence with
  | escaped =>
    rw [leaves_escaped _ ho]
    cases escapes <;> simp only [Text.size_append,make] <;> omega
  | valid =>
    rw [leaves_valid _ ho,Text.size_append]
    exact Nat.le_add_right _ _
  | invalid =>
    rw [leaves_invalid _ ho,Text.size_append]
    exact Nat.le_add_right _ _

/-- Where the rule is asked, the visit leaves what the answer says. -/
theorem size_leaves_of_query? {before after : Text} {query : Query}
    (h : (make position entry.key before after).query? = some query) :
    Text.size ((make position entry.key before after).leaves escapes entry.value) =
      query.index + Text.size (query.left entry) := by
  obtain ⟨hescape,hsentinel,rfl⟩ := query?_eq_some h
  cases ha : position entry.key (before ++ entry.key ++ after) (Text.size before) with
  | true =>
    rw [leaves_valid _ (valid_iff.mpr ⟨hescape,Or.inr ha⟩),Text.size_append]
    rfl
  | false =>
    rw [leaves_invalid _ (invalid_iff.mpr ⟨hescape,hsentinel,ha⟩),Text.size_append]
    rfl

theorem index_of_query? {key before after : Text} {query : Query}
    (h : (make position key before after).query? = some query) :
    query.index = (make position key before after).index := by
  obtain ⟨_,_,rfl⟩ := query?_eq_some h
  rfl

/-- A visit depends on the rule only through the question it puts. -/
theorem make_congr {other : CommandPosition} {key before after : Text}
    (h : ∀ query, (make position key before after).query? = some query →
      other query.key query.context query.index = query.answer) :
    make other key before after = make position key before after := by
  rw [query?_eq_judge] at h
  rw [make,Occurrence.judge_congr h,← make]

end Visit

namespace Pass

variable {position other : CommandPosition} {escapes : Escapes} {entry : Entry}
  {entries : List Entry}

def queries (pass : Pass) : List Query := pass.visits.filterMap Visit.query?

theorem isWellPut_of_mem_queries {buffer : Text} {query : Query}
    (hq : query ∈ (ofEntry position escapes entry buffer).queries) :
    query.IsWellPut position entry := by
  obtain ⟨visit,hm,hvisit⟩ := List.mem_filterMap.mp hq
  obtain ⟨hk,hmade⟩ := visits_resume_made [] buffer visit hm
  rw [hmade] at hvisit
  exact Visit.isWellPut hk hvisit

/-- A later visit starts behind all that an earlier one has left. -/
theorem visits_resume_apart (done rest : Text) :
    (∀ visit ∈ (resume position escapes entry done rest).visits,
      Text.size done ≤ visit.index) ∧
      (resume position escapes entry done rest).visits.Pairwise fun visit later =>
        ∀ query, visit.query? = some query →
          query.index + Text.size (query.left entry) ≤ later.index := by
  induction done, rest using resume_induction with
  | stop done rest h => simp
  | visit done between after pass hc ih =>
    obtain ⟨hbehind,hapart⟩ := ih
    have hk := (Text.cutFirst?_eq_some hc).1
    have hfirst : Text.size done ≤ Text.size (done ++ between) := by
      rw [Text.size_append]
      exact Nat.le_add_right _ _
    refine ⟨List.forall_mem_cons.mpr ⟨hfirst,?_⟩,List.pairwise_cons.mpr ⟨?_,hapart⟩⟩
    · intro visit hm
      exact Nat.le_trans hfirst (Nat.le_trans (Visit.size_le_leaves hk) (hbehind visit hm))
    · intro later hm query hquery
      rw [← Visit.size_leaves_of_query? hquery]
      exact hbehind later hm

theorem queries_apart (buffer : Text) :
    (ofEntry position escapes entry buffer).queries.Pairwise fun query later =>
      query.index + Text.size (query.left entry) ≤ later.index := by
  have hvisits : (ofEntry position escapes entry buffer).visits.Pairwise fun visit later =>
      ∀ query, visit.query? = some query →
        query.index + Text.size (query.left entry) ≤ later.index :=
    (visits_resume_apart [] buffer).2
  refine (hvisits.imp_of_mem ?_).filterMap Visit.query? fun _ _ h => h
  intro visit later _ hm h query hquery next hnext
  rw [(visits_resume_made [] buffer later hm).2] at hnext
  rw [Visit.index_of_query? hnext]
  exact h query hquery

theorem resume_congr (done rest : Text)
    (h : ∀ query ∈ (resume position escapes entry done rest).queries,
      other query.key query.context query.index = query.answer) :
    resume other escapes entry done rest = resume position escapes entry done rest := by
  revert h
  refine resume_induction (motive := fun done rest pass =>
    (∀ query ∈ pass.queries, other query.key query.context query.index = query.answer) →
      resume other escapes entry done rest = pass) ?_ ?_ done rest
  · intro done rest habsent _
    exact resume_of_absent habsent
  · intro done between after pass hc ih h
    have hvisit : Visit.make other entry.key (done ++ between) after =
        Visit.make position entry.key (done ++ between) after :=
      Visit.make_congr fun query hq =>
        h query (List.mem_filterMap.mpr ⟨_,List.mem_cons_self,hq⟩)
    have hrest := ih fun query hq => by
      obtain ⟨visit,hm,hq⟩ := List.mem_filterMap.mp hq
      exact h query (List.mem_filterMap.mpr ⟨visit,List.mem_cons_of_mem _ hm,hq⟩)
    rw [resume_of_cut hc,hvisit,hrest]

theorem ofEntries_congr {text : Text}
    (h : ∀ query ∈ (ofEntries position escapes entries text).queries,
      other query.key query.context query.index = query.answer) :
    ofEntries other escapes entries text = ofEntries position escapes entries text := by
  induction entries generalizing text with
  | nil => rfl
  | cons entry entries ih =>
    simp only [queries,ofEntries,List.filterMap_append,List.forall_mem_append] at h
    have hfirst : ofEntry other escapes entry text = ofEntry position escapes entry text :=
      resume_congr [] text h.1
    rw [ofEntries,ofEntries,hfirst,ih h.2]

/-- The scans of a pass: each alias with the buffer as it stands when its turn comes. -/
def scans (position : CommandPosition) (escapes : Escapes) :
    List Entry → Text → List (Entry × Text)
  | [], _ => []
  | entry :: entries, buffer =>
    (entry, buffer) ::
      scans position escapes entries (ofEntry position escapes entry buffer).text

theorem mem_of_mem_scans {text buffer : Text}
    (h : (entry, buffer) ∈ scans position escapes entries text) : entry ∈ entries := by
  induction entries generalizing text with
  | nil => contradiction
  | cons first entries ih =>
    rcases List.mem_cons.mp h with he | h
    · exact List.mem_cons.mpr (Or.inl (Prod.mk.inj he).1)
    · exact List.mem_cons_of_mem _ (ih h)

theorem queries_ofEntries (text : Text) :
    (ofEntries position escapes entries text).queries =
      (scans position escapes entries text).flatMap fun (entry, buffer) =>
        (ofEntry position escapes entry buffer).queries := by
  induction entries generalizing text with
  | nil => rfl
  | cons entry entries ih =>
    rw [scans,List.flatMap_cons,← ih,queries,ofEntries,List.filterMap_append]
    rfl

/-- An alias's questions are put in place: about what its scan finds, in the buffer of
that moment. -/
theorem exists_rounds_queries (buffer : Text) :
    ∃ found last, (Scan.replace position escapes entry).Rounds ⟨buffer,0⟩ found last ∧
      last.find? entry.key = none ∧
      last.buffer = (ofEntry position escapes entry buffer).text ∧
      (ofEntry position escapes entry buffer).queries = found.filterMap fun one =>
        (Occurrence.judge entry.key one.buffer one.index position).2 := by
  obtain ⟨front,back,htext,hrounds,hnone⟩ :=
    (Scan.replace position escapes entry).rounds_trace [] buffer
  rw [Scan.trace_replace] at htext hrounds
  refine ⟨_,_,hrounds,hnone,htext.symm,?_⟩
  rw [List.filterMap_map,queries]
  apply List.filterMap_congr
  intro visit hm
  obtain ⟨_,hmade⟩ := visits_resume_made [] buffer visit hm
  rw [hmade]
  exact Visit.query?_eq_judge position entry.key visit.before visit.after

end Pass

def ExpansionMode.escapes : ExpansionMode → Escapes
  | .singlePass => .drop
  | .fixedPoint _ => .keep

/-- Scans of which each begins with what the one before it has left. -/
inductive InTurn (position : CommandPosition) (escapes : Escapes) :
    Text → List (Entry × Text) → Text → Prop where
  | none (text : Text) : InTurn position escapes text [] text
  | scan (entry : Entry) (buffer : Text) {others : List (Entry × Text)} {last : Text}
      (rest : InTurn position escapes (Pass.ofEntry position escapes entry buffer).text
        others last) :
      InTurn position escapes buffer ((entry, buffer) :: others) last

namespace InTurn

variable {position : CommandPosition} {escapes : Escapes} {entries : List Entry}

theorem append {first middle last : Text} {scans others : List (Entry × Text)}
    (h : InTurn position escapes first scans middle)
    (rest : InTurn position escapes middle others last) :
    InTurn position escapes first (scans ++ others) last := by
  induction h with
  | none text => exact rest
  | scan entry buffer _ ih => exact .scan entry buffer (ih rest)

theorem pass (text : Text) : InTurn position escapes text
    (Pass.scans position escapes entries text)
    (Pass.ofEntries position escapes entries text).text := by
  induction entries generalizing text with
  | nil => exact .none text
  | cons entry entries ih => exact .scan entry text (ih _)

theorem passes (n : Nat) (text : Text) : InTurn position escapes text
    ((Expansion.passesMade (Pass.ofEntries position escapes entries) n text).flatMap fun made =>
      Pass.scans position escapes entries made.1)
    (Expansion.repeatPass (Pass.ofEntries position escapes entries) n text).text := by
  induction n generalizing text with
  | zero => exact .none text
  | succ n ih =>
    rw [Expansion.passesMade,Expansion.repeatPass,List.flatMap_cons]
    split
    · exact (pass text).append (.none _)
    · exact (pass text).append (ih _)

end InTurn

namespace Expansion

variable {position other : CommandPosition} {escapes : Escapes} {entries : List Entry}

theorem repeatPass_congr {n : Nat} {text : Text}
    (h : ∀ query ∈ (repeatPass (Pass.ofEntries position escapes entries) n text).visits.filterMap
      Visit.query?, other query.key query.context query.index = query.answer) :
    repeatPass (Pass.ofEntries other escapes entries) n text =
      repeatPass (Pass.ofEntries position escapes entries) n text := by
  induction n generalizing text with
  | zero => rfl
  | succ n ih =>
    rw [repeatPass] at h ⊢
    have hfirst : Pass.ofEntries other escapes entries text =
        Pass.ofEntries position escapes entries text := by
      apply Pass.ofEntries_congr
      intro query hq
      apply h query
      split
      · exact hq
      · rw [List.filterMap_append]
        exact List.mem_append_left _ hq
    rw [hfirst]
    conv => rhs; rw [repeatPass]
    split
    · rfl
    · rename_i hbusy
      rw [if_neg hbusy,List.filterMap_append] at h
      rw [ih fun query hq => h query (List.mem_append_right _ hq)]

/-- The scans of an expansion: the aliases of each pass in order, and the passes one
after the other. -/
def scans (position : CommandPosition) (mode : ExpansionMode) (entries : List Entry)
    (input : Text) : List (Entry × Text) :=
  match mode with
  | .singlePass => Pass.scans position .drop entries input
  | .fixedPoint _ =>
    (passesMade (Pass.ofEntries position .keep entries) mode.passes input).flatMap fun made =>
      Pass.scans position .keep entries made.1

theorem mem_of_mem_scans {mode : ExpansionMode} {input buffer : Text} {entry : Entry}
    (h : (entry, buffer) ∈ scans position mode entries input) : entry ∈ entries := by
  cases mode with
  | singlePass => exact Pass.mem_of_mem_scans h
  | fixedPoint maxPasses =>
    obtain ⟨made,_,h⟩ := List.mem_flatMap.mp h
    exact Pass.mem_of_mem_scans h

def queries (expansion : Expansion) : List Query := expansion.log.filterMap Event.query?

/-- Only visits put questions, so the log tells of those of the passes and no more. -/
theorem queries_expand (position : CommandPosition) (mode : ExpansionMode) (entries : List Entry)
    (input : Text) :
    (expand position mode entries input).queries =
      match mode with
      | .singlePass => (Pass.ofEntries position .drop entries input).queries
      | .fixedPoint _ => (repeatPass (Pass.ofEntries position .keep entries) mode.passes
          input).visits.filterMap Visit.query? := by
  have hvisited (visits : List Visit) :
      (visits.map Event.visited).filterMap Event.query? = visits.filterMap Visit.query? := by
    rw [List.filterMap_map]
    rfl
  cases mode with
  | singlePass =>
    rw [queries,expand,List.filterMap_append,hvisited]
    exact List.append_nil _
  | fixedPoint maxPasses =>
    rw [queries,expand]
    dsimp only
    rw [List.filterMap_append,List.filterMap_append,hvisited]
    split <;> simp [Event.query?]

theorem queries_eq_flatMap_scans (position : CommandPosition) (mode : ExpansionMode)
    (entries : List Entry) (input : Text) :
    (expand position mode entries input).queries =
      (scans position mode entries input).flatMap fun (entry, buffer) =>
        (Pass.ofEntry position mode.escapes entry buffer).queries := by
  rw [queries_expand]
  cases mode with
  | singlePass => exact Pass.queries_ofEntries input
  | fixedPoint maxPasses =>
    dsimp only
    rw [visits_repeatPass,List.filterMap_flatMap,scans,List.flatMap_assoc]
    apply List.flatMap_congr
    intro made hm
    rw [passesMade_made hm]
    exact Pass.queries_ofEntries made.1

/-- An expansion depends on the rule only through the answers to its questions. -/
theorem expand_congr {mode : ExpansionMode} {input : Text}
    (h : ∀ query ∈ (expand position mode entries input).queries,
      other query.key query.context query.index = query.answer) :
    expand other mode entries input = expand position mode entries input := by
  rw [queries_expand] at h
  cases mode with
  | singlePass => rw [expand,expand,Pass.ofEntries_congr h]
  | fixedPoint maxPasses => rw [expand,expand,repeatPass_congr h]

/-- The questions that an expansion puts to the rule. They are those of its scans,
each of which begins with what the one before it left, and the expansion knows no
more of the rule than their answers. A scan goes through its buffer in place for an
alias that is stored, its questions are about what it finds at that moment, all of
them are well put, and a later one is behind all that an earlier one left. -/
theorem queries_wellPut (position : CommandPosition) (mode : ExpansionMode)
    (entries : List Entry) (input : Text) :
    let expansion := expand position mode entries input
    let asked := fun entry buffer => (Pass.ofEntry position mode.escapes entry buffer).queries
    expansion.queries =
        (scans position mode entries input).flatMap (fun (entry, buffer) => asked entry buffer) ∧
      (∀ other : CommandPosition,
        (∀ query ∈ expansion.queries,
          other query.key query.context query.index = query.answer) →
        expand other mode entries input = expansion) ∧
      (∃ settled, InTurn position mode.escapes input (scans position mode entries input) settled ∧
        expansion.text =
          match mode with
          | .singlePass => settled
          | .fixedPoint _ => unescapeAll (entries.map Entry.key) settled) ∧
      ∀ entry buffer, (entry, buffer) ∈ scans position mode entries input →
        entry ∈ entries ∧
        (∃ found last,
          (Scan.replace position mode.escapes entry).Rounds ⟨buffer,0⟩ found last ∧
          last.find? entry.key = none ∧
          last.buffer = (Pass.ofEntry position mode.escapes entry buffer).text ∧
          asked entry buffer = found.filterMap fun one =>
            (Occurrence.judge entry.key one.buffer one.index position).2) ∧
        (∀ query ∈ asked entry buffer, query.IsWellPut position entry) ∧
        (asked entry buffer).Pairwise fun query later =>
          query.index + Text.size (if query.answer then entry.value else entry.key) ≤
            later.index := by
  intro expansion asked
  refine ⟨queries_eq_flatMap_scans position mode entries input,fun _ h => expand_congr h,?_,?_⟩
  · cases mode with
    | singlePass => exact ⟨_,.pass input,rfl⟩
    | fixedPoint maxPasses => exact ⟨_,.passes _ input,rfl⟩
  · intro entry buffer hm
    exact ⟨mem_of_mem_scans hm,Pass.exists_rounds_queries buffer,
      fun query hq => Pass.isWellPut_of_mem_queries hq,Pass.queries_apart buffer⟩

/-- The value ends in a backslash, so the rule is not asked about the next occurrence,
and the one after it has moved back by a byte when it is asked about. -/
theorem queries_wellPut_shifted :
    let position : CommandPosition := fun _ _ index => index = 0
    let other : CommandPosition := fun _ _ index => index < 2
    let entry : Entry := ⟨['é'],['é','\\']⟩
    let input : Text := ['é','é','é']
    let first : Query := ⟨['é'],input,0,true⟩
    let second : Query := ⟨['é'],['é','é','é'],4,false⟩
    let expansion := expand position .singlePass [entry] input
    expansion.queries = [first,second] ∧ expand other .singlePass [entry] input = expansion ∧
      (entry, input) ∈ scans position .singlePass [entry] input ∧
      first.IsWellPut position entry ∧ second.IsWellPut position entry ∧
      first.index + Text.size entry.value ≤ second.index := by
  intro position other entry input first second expansion
  have hqueries : expansion.queries = [first,second] := by decide +kernel
  have answers : ∀ query ∈ expansion.queries,
      other query.key query.context query.index = query.answer := by
    rw [hqueries]
    decide
  have hscan : (entry, input) ∈ scans position .singlePass [entry] input := List.mem_cons_self
  obtain ⟨hall,hother,_,hscans⟩ := queries_wellPut position .singlePass [entry] input
  obtain ⟨_,_,hput,hapart⟩ := hscans entry input hscan
  have hasked : (Pass.ofEntry position .drop entry input).queries = [first,second] := by
    decide +kernel
  simp only [ExpansionMode.escapes,hasked] at hput hapart
  exact ⟨hqueries,hother other answers,hscan,hput first (by simp),hput second (by simp),
    (List.pairwise_cons.mp hapart).1 second List.mem_cons_self⟩

end Expansion
end ShellAlias
