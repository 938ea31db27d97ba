import ShellAlias.Proofs.Session.Operations

namespace ShellAlias

namespace Session

inductive Operation where
  | define (key raw : Text)
  | remove (key : Text)
  | runLine (line : Text)
  | snapshot (onlyIfChanged : Bool)
  | listing
  | expand (input : Text)

def Operation.apply (split : Text → Option (List Text)) (session : Session) : Operation → Session
  | .define key raw => (session.define key raw).state
  | .remove key => (session.remove key).state
  | .runLine line => (session.runLineWith split line).session
  | .snapshot onlyIfChanged => (session.snapshot onlyIfChanged).2
  | .listing => session
  | .expand _ => session

def run (split : Text → Option (List Text)) (session : Session) (operations : List Operation) :
    Session :=
  operations.foldl (Operation.apply split) session

def Operation.steps (split : Text → Option (List Text)) (position : CommandPosition) :
    Operation → List Watch.Step
  | .define key raw => [.operate (.define position key raw)]
  | .remove key => [.operate (.remove key)]
  | .runLine line => stepsOfLine split position line
  | .snapshot onlyIfChanged => [.operate (.snapshot onlyIfChanged)]
  | .listing => []
  | .expand _ => []

def stepsOfStart (settings : Settings) (home : Option Text) : List Watch.Step :=
  if settings.homeAlias then
    home.toList.map fun directory => .operate (.restore homeKey directory)
  else []

variable {split : Text → Option (List Text)}

/-- An operation does to table and cache what its steps do, and nothing else. -/
theorem Operation.apply_eq_advance (session : Session) (operation : Operation) :
    operation.apply split session =
      session.advance (operation.steps split session.position) := by
  cases operation with
  | runLine line => exact runLineWith_eq_advance session line
  | _ => rfl

theorem run_eq_advance (session : Session) (operations : List Operation) :
    session.run split operations =
      session.advance (operations.flatMap (Operation.steps split session.position)) := by
  induction operations generalizing session with
  | nil => rfl
  | cons operation operations ih =>
    rw [List.flatMap_cons,advance_append,← operation.apply_eq_advance]
    have hposition : (operation.apply split session).position = session.position := by
      rw [operation.apply_eq_advance]
      rfl
    rw [← hposition]
    exact ih (operation.apply split session)

theorem watch_start (settings : Settings) (position : CommandPosition) (home : Option Text) :
    (start settings position home).1.watch =
      (Watch.new settings).run (stepsOfStart settings home) := by
  unfold start stepsOfStart
  cases settings.homeAlias with
  | false => rfl
  | true => cases home <;> rfl

/-- Only who asks a session for its keys takes a snapshot of the table. -/
theorem Operation.steps_ne_snapshot {position : CommandPosition} {operation : Operation}
    (hother : ∀ onlyIfChanged, operation ≠ .snapshot onlyIfChanged) :
    ∀ step ∈ operation.steps split position, ∀ onlyIfChanged,
      step ≠ .operate (.snapshot onlyIfChanged) := by
  cases operation with
  | snapshot onlyIfChanged => exact absurd rfl (hother onlyIfChanged)
  | runLine line =>
    rw [steps,stepsOfLine]
    split
    · rename_i builtin words _ _
      cases builtin with
      | «alias» =>
        rw [Builtin.steps]
        cases AliasRequest.ofArguments words.tail <;> simp [AliasRequest.steps]
      | unalias =>
        intro step hm onlyIfChanged
        obtain ⟨name,_,rfl⟩ := List.mem_map.mp hm
        simp
      | complete => simp [Builtin.steps]
    · simp
  | _ => simp [steps]

def history (split : Text → Option (List Text)) (settings : Settings) (position : CommandPosition)
    (home : Option Text) (operations : List Operation) : List Watch.Moment :=
  (Watch.new settings).moments
    (stepsOfStart settings home ++ operations.flatMap (Operation.steps split position))

theorem watch_run (settings : Settings) (position : CommandPosition) (home : Option Text)
    (operations : List Operation) :
    ((start settings position home).1.run split operations).watch =
      (Watch.new settings).run
        (stepsOfStart settings home ++ operations.flatMap (Operation.steps split position)) := by
  have hposition : (start settings position home).1.position = position := by
    unfold start
    cases settings.homeAlias with
    | false => rfl
    | true => cases home <;> rfl
  rw [run_eq_advance,hposition,Watch.run,List.foldl_append]
  change (start settings position home).1.watch.run _ = _
  rw [watch_start]
  rfl

/-- The answer to a `complete` line: the cached keys, brought up to date before. -/
theorem reply_complete {session : Session} {line : Text} {words : List Text}
    (hname : Builtin.ofName? (Text.firstWord (Text.trim line)) = some .complete)
    (hwords : split (Text.trim line) = some words) :
    (session.runLineWith split line).reply =
      { out := ((session.cache.refresh session.table).cache.complete
          (words.tail.headD [])).flatMap Text.line } := by
  simp only [runLineWith_of_name hname,hwords,runBuiltin,runComplete]

/-- A `complete` line prints the keys that start with its first argument, in their
order. They are the keys that the table has then, unless they were last given
out to who asks the session for them and nothing was changed since. In that case
they are the keys that the cache was given last, if any. -/
theorem complete_prints (split : Text → Option (List Text)) (settings : Settings)
    (position : CommandPosition) (home : Option Text) (operations : List Operation)
    {line : Text} {words : List Text}
    (complete : Builtin.ofName? (Text.firstWord (Text.trim line)) = some .complete)
    (arguments : split (Text.trim line) = some words) :
    let session := (start settings position home).1.run split operations
    let moments := history split settings position home operations
    let offer := fun keys : List Text =>
      (keys.filter fun key => (words.tail.headD []).isPrefixOf key).flatMap Text.line
    let reply := (session.runLineWith split line).reply
    reply.ok = true ∧ reply.err = [] ∧
      (¬ Watch.Overlooked moments → reply.out = offer session.table.keys) ∧
      (Watch.Overlooked moments → reply.out = offer ((Watch.cached moments).getLast?.getD [])) ∧
      ((∀ operation ∈ operations, ∀ onlyIfChanged, operation ≠ .snapshot onlyIfChanged) →
        reply.out = offer session.table.keys) := by
  intro session moments offer reply
  have hreply : reply = { out := offer (session.cache.refresh session.table).cache.keys } :=
    reply_complete complete arguments
  have hwatch : session.watch = _ := watch_run settings position home operations
  have htable := congrArg Watch.table hwatch
  have hcache := congrArg Watch.cache hwatch
  change session.table = _ at htable
  change session.cache = _ at hcache
  have hfresh : ¬ Watch.Overlooked moments → reply.out = offer session.table.keys := by
    intro h
    rw [hreply,htable,hcache,Watch.keys_refresh_of_not_overlooked h]
  refine ⟨by rw [hreply],by rw [hreply],hfresh,?_,?_⟩
  · intro h
    rw [hreply,htable,hcache,Watch.keys_refresh_of_overlooked h]
    rfl
  · intro hother
    apply hfresh
    apply Watch.not_overlooked
    intro step hm
    rcases List.mem_append.mp hm with hm | hm
    · rw [stepsOfStart] at hm
      split at hm
      · obtain ⟨directory,_,rfl⟩ := List.mem_map.mp hm
        simp
      · contradiction
    · obtain ⟨operation,ho,hm⟩ := List.mem_flatMap.mp hm
      exact Operation.steps_ne_snapshot (hother operation ho) step hm

/-- Keys are asked for after a refresh, and then an alias is defined and another is
not found. -/
theorem complete_prints_after_change :
    let operations : List Operation := [.runLine "alias gs='git status'".toList,
      .runLine "complete".toList,.snapshot false,.runLine "alias gd=gs".toList,
      .runLine "unalias ll".toList]
    let session := (start { homeAlias := false } CommandPosition.shell none).1.run Words.split
      operations
    let line := "complete g".toList
    Builtin.ofName? (Text.firstWord (Text.trim line)) = some .complete ∧
      Words.split (Text.trim line) = some ["complete".toList,['g']] ∧
      ¬ Watch.Overlooked
        (history Words.split { homeAlias := false } CommandPosition.shell none operations) ∧
      session.cache.keys = [['g','s']] ∧ session.table.keys = [['g','s'],['g','d']] ∧
      (session.runLine line).reply.out = "gs\ngd\n".toList := by
  intro operations session line
  have complete : Builtin.ofName? (Text.firstWord (Text.trim line)) = some .complete := by decide
  have arguments : Words.split (Text.trim line) = some ["complete".toList,['g']] := by decide
  have huntold : Watch.untold (history Words.split { homeAlias := false } CommandPosition.shell none
      operations) ≠ [] := by decide +kernel
  have hcached : session.cache.keys = [['g','s']] := by decide +kernel
  have hkeys : session.table.keys = [['g','s'],['g','d']] := by decide +kernel
  obtain ⟨_,_,hfresh,_⟩ := complete_prints Words.split { homeAlias := false }
    CommandPosition.shell none operations complete arguments
  have hout := hfresh fun h => huntold h.1
  refine ⟨complete,arguments,fun h => huntold h.1,hcached,hkeys,?_⟩
  refine hout.trans ?_
  change (session.table.keys.filter fun key => ['g'].isPrefixOf key).flatMap Text.line = _
  rw [hkeys]
  decide

/-- Keys that were given out to who asked the session for them are missing from
what completion prints. -/
theorem complete_overlooks_snapshot :
    let session := (start { homeAlias := false } CommandPosition.shell none).1.run Words.split
      [.define ['l','l'] ['l','s'],.snapshot false]
    session.table.keys = [['l','l']] ∧
      (session.runLine "complete l".toList).reply = { ok := true, out := [], err := [] } ∧
      (session.table.keys.filter fun key => ['l'].isPrefixOf key).flatMap Text.line =
        "ll\n".toList := by
  decide +kernel

end Session
end ShellAlias
