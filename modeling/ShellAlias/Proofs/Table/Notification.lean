import Mathlib.Data.List.DropRight
import ShellAlias.KeyCache
import ShellAlias.Proofs.Table.History

namespace ShellAlias

namespace Table

/-- What makes changes puts the flag up, and what makes none leaves the table as
it is. -/
def Notifies (table : Table) (changes : List Change) (after : Table) : Prop :=
  changes ≠ [] ∧ after.changed = true ∨ changes = [] ∧ after = table

theorem changed_put (table : Table) (entry : Entry) : (table.put entry).changed = true := rfl

theorem notifies_restore (table : Table) (key value : Text) (change : Change) :
    table.Notifies (changesIf (table.restore key value).result change)
      (table.restore key value).state := by
  rcases restore_cases table key value with ⟨_,_,_,hr,hs⟩ | ⟨⟨error,hr⟩,hs⟩
  · rw [hr,hs]
    exact Or.inl ⟨List.cons_ne_nil _ _,changed_put table _⟩
  · rw [hr,hs]
    exact Or.inr ⟨rfl,rfl⟩

theorem notifies_remove (table : Table) (key : Text) (change : Change) :
    table.Notifies (changesIf (table.remove key).result change) (table.remove key).state := by
  rcases remove_cases table key with ⟨others,he,hr,hs⟩ | ⟨_,hr,hs⟩
  · obtain ⟨_,_,rfl⟩ := erase?_eq_some he
    rw [hr,hs]
    exact Or.inl ⟨List.cons_ne_nil _ _,rfl⟩
  · rw [hr,hs]
    exact Or.inr ⟨rfl,rfl⟩

/-- A replay tells of what it restored, wherever it stops. -/
theorem notifies_replayLines (table : Table) (lines : List Text) :
    table.Notifies (table.changesOfLines lines) (table.replayLines lines).state := by
  cases lines with
  | nil => exact Or.inr ⟨rfl,rfl⟩
  | cons line lines =>
    rw [replayLines,changesOfLines]
    cases Listing.parse line with
    | error error => exact Or.inr ⟨rfl,rfl⟩
    | ok entry =>
      dsimp only
      rcases restore_cases table entry.key entry.value with ⟨_,_,_,hr,hs⟩ | ⟨⟨error,hr⟩,hs⟩
      · rw [hr,hs]
        refine Or.inl ⟨List.cons_ne_nil _ _,?_⟩
        -- the lines that follow do not take the flag down
        refine replayLines_induction (motive := fun table => table.changed = true) ?_
          (changed_put table _)
        intro table _ _ entry _ hchanged
        rcases restore_cases table entry.key entry.value with ⟨_,_,_,_,hs⟩ | ⟨_,hs⟩
        · rw [hs,changed_put]
        · rwa [hs]
      · rw [hr]
        exact Or.inr ⟨rfl,hs⟩

/-- All that a snapshot can do. -/
theorem snapshot_cases (table : Table) (onlyIfChanged : Bool) :
    (onlyIfChanged = true → table.changed = true) ∧
        table.snapshot onlyIfChanged = (some table.keys, { table with changed := false }) ∨
      onlyIfChanged = true ∧ table.changed = false ∧
        table.snapshot onlyIfChanged = (none, table) := by
  cases onlyIfChanged <;> cases hc : table.changed <;> simp [snapshot,hc]

end Table

/-- All that a refresh can do. -/
theorem KeyCache.refresh_cases (cache : KeyCache) (table : Table) :
    table.changed = true ∧ cache.refresh table =
        ⟨true,⟨table.keys,cache.refreshes + 1⟩,{ table with changed := false },
          [.cacheRefreshed table.keys.length]⟩ ∨
      table.changed = false ∧ cache.refresh table = ⟨false,cache,table,[]⟩ := by
  rcases table.snapshot_cases true with ⟨hc,hs⟩ | ⟨_,hc,hs⟩
  · exact Or.inl ⟨hc rfl,by rw [refresh,hs]⟩
  · exact Or.inr ⟨hc,by rw [refresh,hs]⟩

structure Watch where
  table : Table
  cache : KeyCache := {}

namespace Watch

def new (settings : Settings) : Watch := { table := { settings } }

inductive Step where
  | operate (operation : Table.Operation)
  | refresh

namespace Step

def isRefresh : Step → Bool
  | .operate _ => false
  | .refresh => true

def operation : Step → Table.Operation
  | .operate operation => operation
  | .refresh => .snapshot true

def apply (watch : Watch) : Step → Watch
  | .operate operation => { watch with table := operation.apply watch.table }
  | .refresh =>
    let refresh := watch.cache.refresh watch.table
    { table := refresh.table, cache := refresh.cache }

/-- The keys that a step gives out, if it does. A refresh gives them to the cache. -/
def answer? (watch : Watch) : Step → Option (List Text)
  | .operate (.snapshot onlyIfChanged) => (watch.table.snapshot onlyIfChanged).1
  | .operate _ => none
  | .refresh =>
    let refresh := watch.cache.refresh watch.table
    if refresh.refreshed then some refresh.cache.keys else none

def changes (watch : Watch) : Step → List Change
  | .operate operation => operation.changes watch.table
  | .refresh => []

end Step

structure Moment where
  step : Step
  answer? : Option (List Text)
  changes : List Change

def run (watch : Watch) (steps : List Step) : Watch := steps.foldl Step.apply watch

def moments (watch : Watch) : List Step → List Moment
  | [] => []
  | step :: others =>
    ⟨step,step.answer? watch,step.changes watch⟩ :: moments (step.apply watch) others

def untold (moments : List Moment) : List Change :=
  (moments.rtakeWhile fun moment => moment.answer?.isNone).flatMap Moment.changes

def cached (moments : List Moment) : List (List Text) :=
  moments.filterMap fun moment => if moment.step.isRefresh then moment.answer? else none

def lastAnswer? (moments : List Moment) : Option Moment :=
  (moments.filter fun moment => moment.answer?.isSome).getLast?

/-- Keys were last given out to another than the cache, and nothing was changed
since. -/
def Overlooked (moments : List Moment) : Prop :=
  untold moments = [] ∧ ∃ last, lastAnswer? moments = some last ∧ last.step.isRefresh = false

variable {watch : Watch} {step : Step}

theorem table_run (watch : Watch) (steps : List Step) :
    (watch.run steps).table = watch.table.run (steps.map Step.operation) := by
  induction steps generalizing watch with
  | nil => rfl
  | cons step steps ih =>
    have hstep : (step.apply watch).table = step.operation.apply watch.table := by
      cases step with
      | operate operation => rfl
      | refresh =>
        rcases watch.table.snapshot_cases true with ⟨_,hs⟩ | ⟨_,_,hs⟩ <;>
          simp [Step.apply,Step.operation,KeyCache.refresh,Table.Operation.apply,hs]
    have hrest := ih (step.apply watch)
    rw [hstep] at hrest
    exact hrest

theorem run_concat (watch : Watch) (steps : List Step) (step : Step) :
    watch.run (steps ++ [step]) = step.apply (watch.run steps) := by
  simp [run]

theorem moments_concat (watch : Watch) (steps : List Step) (step : Step) :
    watch.moments (steps ++ [step]) = watch.moments steps ++
      [⟨step,step.answer? (watch.run steps),step.changes (watch.run steps)⟩] := by
  induction steps generalizing watch with
  | nil => rfl
  | cons first steps ih => exact congrArg (List.cons _) (ih (first.apply watch))

theorem mem_moments {steps : List Step} {moment : Moment} (hm : moment ∈ watch.moments steps) :
    moment.step ∈ steps ∧ ∃ before, moment.answer? = moment.step.answer? before := by
  induction steps generalizing watch with
  | nil => simp [moments] at hm
  | cons step steps ih =>
    rcases List.mem_cons.mp hm with rfl | hm
    · exact ⟨List.mem_cons_self,watch,rfl⟩
    · obtain ⟨hs,ha⟩ := ih hm
      exact ⟨List.mem_cons_of_mem _ hs,ha⟩

section concat
variable (moments : List Moment) {moment : Moment}

theorem untold_concat_of_answer (h : moment.answer?.isSome = true) :
    untold (moments ++ [moment]) = [] := by
  rw [untold,List.rtakeWhile_concat_neg]
  · rfl
  · simpa [Option.isSome_iff_ne_none] using h

theorem untold_concat_of_none (h : moment.answer? = none) :
    untold (moments ++ [moment]) = untold moments ++ moment.changes := by
  rw [untold,List.rtakeWhile_concat_pos _ _ _ (by rw [h]; rfl)]
  simp [untold]

theorem lastAnswer?_concat_of_answer (h : moment.answer?.isSome = true) :
    lastAnswer? (moments ++ [moment]) = some moment := by
  simp [lastAnswer?,List.filter_append,h]

theorem lastAnswer?_concat_of_none (h : moment.answer? = none) :
    lastAnswer? (moments ++ [moment]) = lastAnswer? moments := by
  simp [lastAnswer?,List.filter_append,h]

theorem overlooked_concat_iff (h : moment.answer? = none) (hc : moment.changes = []) :
    Overlooked (moments ++ [moment]) ↔ Overlooked moments := by
  rw [Overlooked,Overlooked,untold_concat_of_none moments h,hc,List.append_nil,
    lastAnswer?_concat_of_none moments h]

end concat

/-- All that a step can do to the table: it gives out the keys, or makes changes
and tells so, or does nothing. -/
theorem Step.cases (watch : Watch) (step : Step) :
    step.answer? watch = some watch.table.keys ∧ step.changes watch = [] ∧
        (step.apply watch).table = { watch.table with changed := false } ∨
      step.answer? watch = none ∧
        watch.table.Notifies (step.changes watch) (step.apply watch).table := by
  cases step with
  | refresh =>
    rcases watch.cache.refresh_cases watch.table with ⟨_,hr⟩ | ⟨_,hr⟩
    · exact Or.inl (by simp [answer?,changes,apply,hr])
    · exact Or.inr ⟨by simp [answer?,hr],Or.inr (by simp [changes,apply,hr])⟩
  | operate operation =>
    cases operation with
    | define position key raw => exact Or.inr ⟨rfl,Table.notifies_restore watch.table key _ _⟩
    | restore key value => exact Or.inr ⟨rfl,Table.notifies_restore watch.table key value _⟩
    | remove key => exact Or.inr ⟨rfl,Table.notifies_remove watch.table key _⟩
    | replay listing => exact Or.inr ⟨rfl,Table.notifies_replayLines watch.table _⟩
    | snapshot onlyIfChanged =>
      rcases watch.table.snapshot_cases onlyIfChanged with ⟨_,hs⟩ | ⟨_,_,hs⟩
      · exact Or.inl ⟨congrArg Prod.fst hs,rfl,congrArg Prod.snd hs⟩
      · exact Or.inr ⟨congrArg Prod.fst hs,Or.inr ⟨rfl,congrArg Prod.snd hs⟩⟩

theorem Step.cache_apply (watch : Watch) (step : Step) :
    (step.apply watch).cache =
      match if step.isRefresh then step.answer? watch else none with
      | some keys => ⟨keys,watch.cache.refreshes + 1⟩
      | none => watch.cache := by
  cases step with
  | operate operation => rfl
  | refresh =>
    rcases watch.cache.refresh_cases watch.table with ⟨_,hr⟩ | ⟨_,hr⟩ <;>
      simp [isRefresh,answer?,apply,hr]

/-- Steps that answer only to a change answer just if the flag is up. -/
theorem isSome_answer?_iff (h : step = .operate (.snapshot true) ∨ step = .refresh) :
    (step.answer? watch).isSome = true ↔ watch.table.changed = true := by
  rcases h with rfl | rfl
  · rcases watch.table.snapshot_cases true with ⟨hc,hs⟩ | ⟨_,hc,hs⟩
    · simp [Step.answer?,hs,hc rfl]
    · simp [Step.answer?,hs,hc]
  · rcases watch.cache.refresh_cases watch.table with ⟨hc,hr⟩ | ⟨hc,hr⟩ <;>
      simp [Step.answer?,hr,hc]

section run
variable (settings : Settings) (steps : List Step)

/-- The flag is up just if something is untold. -/
theorem changed_run : ((new settings).run steps).table.changed = true ↔
    untold ((new settings).moments steps) ≠ [] := by
  induction steps using List.reverseRecOn with
  | nil => simp [new,run,moments,untold]
  | append_singleton steps step ih =>
    rw [run_concat,moments_concat]
    rcases Step.cases ((new settings).run steps) step with ⟨ha,_,ht⟩ | ⟨ha,⟨hc,ht⟩ | ⟨hc,ht⟩⟩
    · rw [untold_concat_of_answer _ (by rw [ha]; rfl),ht]
      simp
    · rw [untold_concat_of_none _ ha,ht]
      simp [hc]
    · rw [untold_concat_of_none _ ha,ht,hc,List.append_nil]
      exact ih

/-- The cache holds what it was given last, and counts how often it was given keys. -/
theorem cache_run : ((new settings).run steps).cache =
    ⟨(cached ((new settings).moments steps)).getLast?.getD [],
      (cached ((new settings).moments steps)).length⟩ := by
  induction steps using List.reverseRecOn with
  | nil => rfl
  | append_singleton steps step ih =>
    rw [run_concat,moments_concat,Step.cache_apply,ih]
    cases ha : if step.isRefresh then step.answer? ((new settings).run steps) else none with
    | none => simp [cached,List.filterMap_append,ha]
    | some keys => simp [cached,List.filterMap_append,ha]

/-- Where the flag is down, the cache is up to date unless it was overlooked. -/
theorem keys_cache_run : ((new settings).run steps).table.changed = true ∨
    Overlooked ((new settings).moments steps) ∨
      ((new settings).run steps).cache.keys = ((new settings).run steps).table.keys := by
  induction steps using List.reverseRecOn with
  | nil => exact Or.inr (Or.inr rfl)
  | append_singleton steps step ih =>
    rw [run_concat,moments_concat,Step.cache_apply]
    rcases Step.cases ((new settings).run steps) step with ⟨ha,_,ht⟩ | ⟨ha,⟨_,ht⟩ | ⟨hc,ht⟩⟩
    · right
      cases hr : step.isRefresh with
      | true =>
        right
        rw [ht,ha]
        rfl
      | false =>
        left
        have hanswer : (step.answer? ((new settings).run steps)).isSome = true := by rw [ha]; rfl
        exact ⟨untold_concat_of_answer _ hanswer,_,lastAnswer?_concat_of_answer _ hanswer,hr⟩
    · exact Or.inl ht
    · rw [ht,overlooked_concat_iff _ ha hc,ha,ite_self]
      exact ih

variable {settings steps}

/-- A refresh brings the cache up to date unless it was overlooked. -/
theorem keys_refresh_of_not_overlooked (h : ¬ Overlooked ((new settings).moments steps)) :
    let watch := (new settings).run steps
    (watch.cache.refresh watch.table).cache.keys = watch.table.keys := by
  intro watch
  rcases watch.cache.refresh_cases watch.table with ⟨_,hr⟩ | ⟨hc,hr⟩
  · rw [hr]
  · rw [hr]
    rcases keys_cache_run settings steps with hchanged | hover | hkeys
    · exact absurd hchanged (by rw [hc]; decide)
    · exact absurd hover h
    · exact hkeys

/-- To a cache that was overlooked a refresh does nothing. -/
theorem keys_refresh_of_overlooked (h : Overlooked ((new settings).moments steps)) :
    let watch := (new settings).run steps
    (watch.cache.refresh watch.table).cache.keys =
      (cached ((new settings).moments steps)).getLast?.getD [] := by
  intro watch
  rcases watch.cache.refresh_cases watch.table with ⟨hc,_⟩ | ⟨_,hr⟩
  · exact absurd h.1 ((changed_run settings steps).mp hc)
  · rw [hr]
    exact congrArg KeyCache.keys (cache_run settings steps)

end run

/-- A run in which only the cache asks for keys never overlooks it. -/
theorem not_overlooked {steps : List Step}
    (honly : ∀ step ∈ steps, ∀ onlyIfChanged, step ≠ .operate (.snapshot onlyIfChanged)) :
    ¬ Overlooked (watch.moments steps) := by
  rintro ⟨_,last,hlast,hr⟩
  obtain ⟨hm,hanswer⟩ := List.mem_filter.mp (List.mem_of_getLast? hlast)
  obtain ⟨hstep,before,ha⟩ := mem_moments hm
  rw [ha] at hanswer
  cases hs : last.step with
  | refresh => simp [hs,Step.isRefresh] at hr
  | operate operation =>
    rw [hs] at hanswer hstep
    cases operation with
    | snapshot onlyIfChanged => exact honly _ hstep onlyIfChanged rfl
    | _ => simp [Step.answer?] at hanswer

/-- Who asks for the keys only if they changed is given them just if something was
stored or taken away since keys were last given out, and whatever is given out
is the keys in their order. A cache that alone asks is up to date after every
refresh. -/
theorem notification_exact (settings : Settings) (steps : List Step) :
    let watch := (new settings).run steps
    let moments := (new settings).moments steps
    (∀ call : Step, call = .operate (.snapshot true) ∨ call = .refresh →
      ((call.answer? watch).isSome = true ↔ untold moments ≠ [])) ∧
    Step.answer? watch (.operate (.snapshot false)) = some watch.table.keys ∧
    (∀ call keys, Step.answer? watch call = some keys → keys = watch.table.keys) ∧
    watch.cache.refreshes =
      moments.countP (fun moment => moment.step.isRefresh && moment.answer?.isSome) ∧
    ((∀ step ∈ steps, ∀ onlyIfChanged, step ≠ .operate (.snapshot onlyIfChanged)) →
      (Step.refresh.apply watch).cache.keys = (Step.refresh.apply watch).table.keys) := by
  intro watch moments
  refine ⟨?_,rfl,?_,?_,?_⟩
  · intro call hcall
    rw [isSome_answer?_iff hcall]
    exact changed_run settings steps
  · intro call keys hkeys
    rcases Step.cases watch call with ⟨ha,_⟩ | ⟨ha,_⟩
    · exact Option.some.inj (hkeys.symm.trans ha)
    · rw [ha] at hkeys
      contradiction
  · have hcount : watch.cache.refreshes = (cached moments).length :=
      congrArg KeyCache.refreshes (cache_run settings steps)
    rw [hcount,cached,List.length_filterMap_eq_countP]
    congr 1
    funext moment
    cases moment.step.isRefresh <;> rfl
  · intro honly
    refine (keys_refresh_of_not_overlooked (not_overlooked honly)).trans ?_
    rcases watch.cache.refresh_cases watch.table with ⟨_,hr⟩ | ⟨_,hr⟩ <;>
      simp [Step.apply,hr,Table.keys,watch]

/-- A refresh, then a failed removal, a key stored over again, and a replay that
stops at its second line. -/
theorem notification_exact_failed_replay :
    let steps : List Step :=
      [.operate (.restore ['a'] ['1']),.operate (.restore ['b'] ['2']),.refresh,
        .operate (.remove ['z']),.operate (.restore ['a'] ['3']),
        .operate (.replay "alias c = 'x'\nalias d".toList)]
    let watch := (new {}).run steps
    untold ((new {}).moments steps) = [.stored ⟨['a'],['3']⟩,.stored ⟨['c'],['x']⟩] ∧
      (Step.refresh.answer? watch).isSome = true ∧
      watch.cache.keys = [['a'],['b']] ∧ watch.cache.refreshes = 1 ∧
      (Step.refresh.apply watch).cache.keys = [['b'],['a'],['c']] := by
  intro steps watch
  have huntold : untold ((new {}).moments steps) =
      [.stored ⟨['a'],['3']⟩,.stored ⟨['c'],['x']⟩] := by decide +kernel
  have hcached : watch.cache.keys = [['a'],['b']] := by decide +kernel
  have hstored : (Step.refresh.apply watch).table.keys = [['b'],['a'],['c']] := by decide +kernel
  have hanswered : ((new {}).moments steps).countP
      (fun moment => moment.step.isRefresh && moment.answer?.isSome) = 1 := by decide +kernel
  have honly : ∀ step ∈ steps, ∀ onlyIfChanged, step ≠ .operate (.snapshot onlyIfChanged) := by
    simp [steps]
  obtain ⟨htold,_,_,hcount,hkeys⟩ := notification_exact {} steps
  have hsome : untold ((new {}).moments steps) ≠ [] := by
    rw [huntold]
    exact List.cons_ne_nil _ _
  refine ⟨huntold,(htold .refresh (Or.inr rfl)).mpr hsome,hcached,hcount.trans hanswered,?_⟩
  rw [hkeys honly]
  exact hstored

end Watch
end ShellAlias
