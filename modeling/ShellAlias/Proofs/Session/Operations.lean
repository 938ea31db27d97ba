import ShellAlias.Session
import ShellAlias.Proofs.Table.Notification
import ShellAlias.Proofs.Text.Search

namespace ShellAlias

theorem Text.trim_prefix (text : Text) : Text.trim text <+: text.dropWhile isBlank := by
  rw [Text.trim,Text.trimEnd,← List.reverse_suffix,List.reverse_reverse]
  exact List.dropWhile_suffix isBlank

theorem Text.trim_infix (text : Text) : Text.trim text <:+: text :=
  (Text.trim_prefix text).isInfix.trans (List.dropWhile_suffix isBlank).isInfix

namespace AliasRequest

theorem mem_spaced {words : List Text} {c : Char} (hc : c ∈ spaced words) :
    c = ' ' ∨ ∃ word ∈ words, c ∈ word := by
  induction words with
  | nil => simp [spaced] at hc
  | cons word words ih =>
    cases words with
    | nil => exact Or.inr ⟨word,List.mem_cons_self,by simpa [spaced] using hc⟩
    | cons second others =>
      have hs : spaced (word :: second :: others) = word ++ ' ' :: spaced (second :: others) := by
        simp [spaced,List.intercalate]
      rw [hs] at hc
      rcases List.mem_append.mp hc with hc | hc
      · exact Or.inr ⟨word,List.mem_cons_self,hc⟩
      · rcases List.mem_cons.mp hc with hc | hc
        · exact Or.inl hc
        · obtain hc | ⟨one,hm,hc⟩ := ih hc
          · exact Or.inl hc
          · exact Or.inr ⟨one,List.mem_cons_of_mem _ hm,hc⟩

/-- A definition's key ends before the first equals sign. Key and value are made
of the arguments. -/
theorem ofArguments_eq_define {args : List Text} {key value : Text}
    (h : ofArguments args = .define key value) :
    '=' ∉ key ∧ (∀ c ∈ key, ∃ arg ∈ args, c ∈ arg) ∧
      ∀ c ∈ value, c = ' ' ∨ ∃ arg ∈ args, c ∈ arg := by
  cases args with
  | nil => simp [ofArguments] at h
  | cons first rest =>
    have inFirst {c : Char} (hc : c ∈ first) : ∃ arg ∈ first :: rest, c ∈ arg :=
      ⟨first,List.mem_cons_self,hc⟩
    have inRest {words : List Text} (hsub : words ⊆ rest) {c : Char} (hc : c ∈ spaced words) :
        c = ' ' ∨ ∃ arg ∈ first :: rest, c ∈ arg := by
      obtain hc | ⟨one,hm,hc⟩ := mem_spaced hc
      · exact Or.inl hc
      · exact Or.inr ⟨one,List.mem_cons_of_mem _ (hsub hm),hc⟩
    cases hcut : Text.cutFirst? ['='] first with
    | some cut =>
      obtain ⟨before,head⟩ := cut
      simp only [ofArguments,hcut,define.injEq] at h
      obtain ⟨rfl,rfl⟩ := h
      obtain ⟨_,hfirst⟩ := Text.cutFirst?_eq_some hcut
      refine ⟨Text.not_mem_of_cutFirst? hcut,fun c hc => inFirst (by simp [hfirst,hc]),?_⟩
      intro c hc
      obtain hc | ⟨one,hm,hone⟩ := mem_spaced hc
      · exact Or.inl hc
      · rcases List.mem_cons.mp hm with rfl | hm
        · exact Or.inr (inFirst (by simp [hfirst,hone]))
        · exact Or.inr ⟨one,List.mem_cons_of_mem _ hm,hone⟩
    | none =>
      have hkey := Text.not_mem_of_cutFirst?_eq_none hcut
      cases rest with
      | nil => simp [ofArguments,hcut] at h
      | cons second others =>
        simp only [ofArguments,hcut] at h
        split at h
        · obtain ⟨rfl,rfl⟩ := define.inj h
          exact ⟨hkey,fun c hc => inFirst hc,
            fun c hc => inRest (List.subset_cons_self second others) hc⟩
        · obtain ⟨rfl,rfl⟩ := define.inj h
          exact ⟨hkey,fun c hc => inFirst hc,fun c hc => inRest (List.Subset.refl _) hc⟩

end AliasRequest

def AliasRequest.steps (position : CommandPosition) : AliasRequest → List Watch.Step
  | .list => []
  | .show _ => []
  | .define key raw => [.operate (.define position key raw)]

def Builtin.steps (position : CommandPosition) (args : List Text) : Builtin → List Watch.Step
  | .alias => (AliasRequest.ofArguments args).steps position
  | .unalias => args.map fun name => .operate (.remove name)
  | .complete => [.refresh]

namespace Session

inductive Requests (args : List Text) : Table.Operation → Prop where
  | define (position : CommandPosition) (key raw : Text)
      (request : AliasRequest.ofArguments args = .define key raw) :
      Requests args (.define position key raw)
  | remove (name : Text) (mem : name ∈ args) : Requests args (.remove name)
  | snapshot : Requests args (.snapshot true)

variable {split : Text → Option (List Text)}

def watch (session : Session) : Watch := ⟨session.table,session.cache⟩

def advance (session : Session) (steps : List Watch.Step) : Session :=
  { session with
    table := (session.watch.run steps).table
    cache := (session.watch.run steps).cache }

def stepsOfLine (split : Text → Option (List Text)) (position : CommandPosition) (line : Text) :
    List Watch.Step :=
  match Builtin.ofName? (Text.firstWord (Text.trim line)), split (Text.trim line) with
  | some builtin, some words => builtin.steps position words.tail
  | _, _ => []

/-- A line that starts with the name of a builtin is run by it, if the line's words are
found. -/
theorem runLineWith_of_name {line : Text} {builtin : Builtin}
    (h : Builtin.ofName? (Text.firstWord (Text.trim line)) = some builtin) (session : Session) :
    session.runLineWith split line =
      match split (Text.trim line) with
      | none =>
        { reply := { ok := false, err := builtin.complain Words.openQuoteMessage }, session }
      | some words => session.runBuiltin words.tail builtin := by
  have hne : Text.trim line ≠ [] := by
    intro hblank
    rw [hblank] at h
    contradiction
  rw [runLineWith]
  simp only [h]
  exact if_neg hne

theorem advance_append (session : Session) (first second : List Watch.Step) :
    session.advance (first ++ second) = (session.advance first).advance second := by
  have hrun : session.watch.run (first ++ second) =
      (session.advance first).watch.run second := List.foldl_append
  simp only [advance,hrun]

theorem removeAll_eq_advance (session : Session) (names : List Text) :
    (session.removeAll names).session =
      session.advance (names.map fun name => .operate (.remove name)) := by
  induction names generalizing session with
  | nil => rfl
  | cons name names ih =>
    refine Eq.trans ?_ (ih (session.remove name).state)
    rw [removeAll]
    dsimp only
    split <;> rfl

theorem runBuiltin_eq_advance (session : Session) (args : List Text) (builtin : Builtin) :
    (session.runBuiltin args builtin).session =
      session.advance (builtin.steps session.position args) := by
  cases builtin with
  | «alias» =>
    rw [runBuiltin,runAlias,Builtin.steps]
    cases AliasRequest.ofArguments args with
    | list => rfl
    | «show» name =>
      dsimp only
      split <;> rfl
    | define key raw => rfl
  | unalias =>
    cases args with
    | nil => rfl
    | cons name names => exact removeAll_eq_advance session (name :: names)
  | complete => rfl

theorem runLineWith_eq_advance (session : Session) (line : Text) :
    (session.runLineWith split line).session =
      session.advance (stepsOfLine split session.position line) := by
  rw [runLineWith,stepsOfLine]
  dsimp only
  split
  · rename_i hblank
    rw [hblank]
    rfl
  · cases Builtin.ofName? (Text.firstWord (Text.trim line)) with
    | none => rfl
    | some builtin =>
      cases split (Text.trim line) with
      | none => rfl
      | some words => exact runBuiltin_eq_advance session words.tail builtin

theorem requests_of_mem_steps {position : CommandPosition} {args : List Text} {builtin : Builtin}
    {step : Watch.Step} (hm : step ∈ builtin.steps position args) :
    Requests args step.operation := by
  cases builtin with
  | «alias» =>
    cases hr : AliasRequest.ofArguments args with
    | define key raw =>
      simp only [Builtin.steps,AliasRequest.steps,hr,List.mem_singleton] at hm
      rw [hm]
      exact .define position key raw hr
    | _ => simp [Builtin.steps,AliasRequest.steps,hr] at hm
  | unalias =>
    obtain ⟨name,hname,rfl⟩ := List.mem_map.mp hm
    exact .remove name hname
  | complete =>
    rw [List.mem_singleton.mp hm]
    exact .snapshot

/-- A line changes the table by operations that the arguments of a builtin ask
for. -/
theorem table_runLineWith (split : Text → Option (List Text)) (session : Session) (line : Text) :
    ∃ operations, (session.runLineWith split line).session.table = session.table.run operations ∧
      ∀ operation ∈ operations, ∃ words, split (Text.trim line) = some words ∧
        Requests words.tail operation := by
  refine ⟨(stepsOfLine split session.position line).map Watch.Step.operation,?_,?_⟩
  · rw [runLineWith_eq_advance]
    exact Watch.table_run session.watch _
  · intro operation hm
    obtain ⟨step,hstep,rfl⟩ := List.mem_map.mp hm
    rw [stepsOfLine] at hstep
    split at hstep
    · rename_i builtin words _ hwords
      exact ⟨words,hwords,requests_of_mem_steps hstep⟩
    · contradiction

/-- A new session's table is empty or holds the home directory. -/
theorem table_start (settings : Settings) (position : CommandPosition) (home : Option Text) :
    (start settings position home).1.table = { settings } ∨
      ∃ directory, settings.homeAlias = true ∧ home = some directory ∧
        (start settings position home).1.table =
          Table.Operation.apply { settings } (.restore homeKey directory) := by
  unfold start
  cases hseed : settings.homeAlias with
  | false => exact Or.inl rfl
  | true =>
    cases home with
    | none => exact Or.inl rfl
    | some directory => exact Or.inr ⟨directory,rfl,rfl,rfl⟩

end Session
end ShellAlias
