import ShellAlias.Proofs.Session.Completion
import ShellAlias.Proofs.Table.Refusals
import ShellAlias.Proofs.Table.Removals

namespace ShellAlias

theorem Builtin.complain_ne_nil (builtin : Builtin) (message : Text) :
    builtin.complain message ≠ [] := by
  simp [complain,Text.line]

def Reply.IsFaithful (reply : Reply) : Prop := reply.ok = true ↔ reply.err = []

theorem Text.trim_of_isBlankText {text : Text} (h : isBlankText text = true) : trim text = [] := by
  have hall : text.dropWhile isBlank = [] :=
    List.dropWhile_eq_nil_iff.mpr (List.all_eq_true.mp h)
  rw [trim,hall]
  rfl

namespace Session

variable {split : Text → Option (List Text)} {session : Session}

theorem isFaithful_complaint (builtin : Builtin) (message : Text) :
    Reply.IsFaithful { ok := false, err := builtin.complain message } := by
  simp [Reply.IsFaithful,builtin.complain_ne_nil]

/-- What the arguments of `alias` ask for is done, or it is complained of and nothing
else happens. -/
theorem runAlias_cases (session : Session) (args : List Text) :
    ((session.runAlias args).reply.ok = true ∧ (session.runAlias args).reply.err = []) ∨
      ∃ message, (session.runAlias args).session = session ∧ (session.runAlias args).reply =
        { ok := false, err := Builtin.complain .alias message } := by
  cases hrequest : AliasRequest.ofArguments args with
  | list => exact Or.inl (by simp only [runAlias,hrequest,and_self])
  | «show» name =>
    cases he : session.table.entry? name with
    | some entry => exact Or.inl (by simp only [runAlias,hrequest,he,and_self])
    | none =>
      exact Or.inr ⟨name ++ ": not found".toList,by simp only [runAlias,hrequest,he],
        by simp only [runAlias,hrequest,he]⟩
  | define key value =>
    cases hr : (session.define key value).result with
    | ok => exact Or.inl (by simp only [runAlias,hrequest,hr,and_self])
    | error error =>
      have htable : (session.table.define session.position key value).state = session.table :=
        Table.state_of_restore_error hr
      have hkept : (session.define key value).state = session := by
        simp only [Session.define,afterTable,htable]
      exact Or.inr ⟨error.message,by simp only [runAlias,hrequest,hkept],
        by simp only [runAlias,hrequest,hr]⟩

theorem isFaithful_runAlias (session : Session) (args : List Text) :
    (session.runAlias args).reply.IsFaithful := by
  rcases runAlias_cases session args with ⟨hok,herr⟩ | ⟨message,_,hreply⟩
  · simp only [Reply.IsFaithful,hok,herr]
  · rw [hreply]
    exact isFaithful_complaint .alias message

theorem runAlias_failed {args : List Text} (h : (session.runAlias args).reply.ok = false) :
    (session.runAlias args).session = session ∧ (session.runAlias args).reply.out = [] := by
  rcases runAlias_cases session args with ⟨hok,_⟩ | ⟨message,hkept,hreply⟩
  · rw [hok] at h
    contradiction
  · exact ⟨hkept,by rw [hreply]⟩

theorem isFaithful_removeAll (session : Session) (names : List Text) :
    (session.removeAll names).reply.IsFaithful := by
  induction names generalizing session with
  | nil => simp [removeAll,Reply.IsFaithful]
  | cons name names ih =>
    rw [removeAll]
    cases hr : (session.remove name).result with
    | ok => simpa [hr] using ih _
    | error error => simp [Reply.IsFaithful,Builtin.complain_ne_nil]

theorem isFaithful_runBuiltin (session : Session) (args : List Text) (builtin : Builtin) :
    (session.runBuiltin args builtin).reply.IsFaithful := by
  cases builtin with
  | «alias» => exact isFaithful_runAlias session args
  | unalias =>
    cases args with
    | nil => exact isFaithful_complaint .unalias _
    | cons name names => exact isFaithful_removeAll session (name :: names)
  | complete => simp [runBuiltin,runComplete,Reply.IsFaithful]

theorem isFaithful_runLineWith (session : Session) (line : Text) :
    (session.runLineWith split line).reply.IsFaithful := by
  rw [runLineWith]
  dsimp only
  split
  · simp [Reply.IsFaithful]
  · cases Builtin.ofName? (Text.firstWord (Text.trim line)) with
    | none => simp [Reply.IsFaithful]
    | some builtin =>
      cases split (Text.trim line) with
      | none => exact isFaithful_complaint builtin _
      | some words => exact isFaithful_runBuiltin session words.tail builtin

theorem table_removeAll (session : Session) (names : List Text) :
    (session.removeAll names).session.table = session.table.without names := by
  rw [removeAll_eq_advance,Table.without]
  have hrun := Watch.table_run session.watch (names.map fun name => .operate (.remove name))
  rw [List.map_map] at hrun
  exact hrun

theorem out_removeAll (session : Session) (names : List Text) :
    (session.removeAll names).reply.out = [] := by
  induction names generalizing session with
  | nil => rfl
  | cons name names ih =>
    rw [removeAll]
    cases hr : (session.remove name).result with
    | ok => simpa [hr] using ih _
    | error error => simpa [hr] using ih _

def complaint (result : Except AliasError Unit) : Text :=
  match result with
  | .ok () => []
  | .error error => Builtin.complain .unalias error.message

theorem err_removeAll_cons (session : Session) (name : Text) (names : List Text) :
    (session.removeAll (name :: names)).reply.err =
      complaint (session.remove name).result ++
        ((session.remove name).state.removeAll names).reply.err := by
  rw [removeAll]
  cases (session.remove name).result with
  | ok => rfl
  | error error => rfl

theorem err_removeAll_concat (session : Session) (names : List Text) (name : Text) :
    (session.removeAll (names ++ [name])).reply.err = (session.removeAll names).reply.err ++
      complaint ((session.table.without names).remove name).result := by
  induction names generalizing session with
  | nil => exact (err_removeAll_cons session name []).trans (List.append_nil _)
  | cons first names ih =>
    rw [List.cons_append,err_removeAll_cons,ih,err_removeAll_cons,List.append_assoc]
    rfl

theorem err_removeAll (hn : session.table.keys.Nodup) (names : List Text) :
    (session.removeAll names).reply.err = (session.table.notFound names).flatMap fun name =>
      Builtin.complain .unalias (AliasError.notFound name).message := by
  induction names using List.reverseRecOn with
  | nil => rfl
  | append_singleton names name ih =>
    rw [err_removeAll_concat,Table.notFound_concat,Table.result_remove_without hn,ih,
      List.flatMap_append]
    by_cases hgone : session.table.IsGone names name
    · simp [hgone,complaint]
    · simp [hgone,complaint]

theorem runUnalias_eq (hn : session.table.keys.Nodup) (names : List Text) :
    ((session.runUnalias names).session.table.entries = session.table.entries.filter fun entry =>
      entry.key ∉ names.map session.table.storedKey) ∧
      (session.runUnalias names).reply.out = [] ∧
      (session.runUnalias names).reply.err =
        if names = [] then "unalias: missing alias name\n".toList
        else (session.table.notFound names).flatMap fun name =>
          "unalias: no such alias key: ".toList ++ name ++ "\n".toList := by
  cases names with
  | nil => exact ⟨by simp [runUnalias],rfl,rfl⟩
  | cons name names =>
    refine ⟨?_,out_removeAll session (name :: names),?_⟩
    · rw [← Table.entries_without hn,← table_removeAll]
      rfl
    · rw [if_neg (List.cons_ne_nil name names)]
      exact err_removeAll hn (name :: names)

theorem session_of_other (session : Session) {line : Text}
    (h : Builtin.ofName? (Text.firstWord (Text.trim line)) = none) :
    (session.runLineWith split line).session = session := by
  rw [runLineWith_eq_advance,stepsOfLine,h]
  rfl

/-- Whatever a new session was asked before, its table came about by operations. -/
theorem reachable_run (settings : Settings) (position : CommandPosition) (home : Option Text)
    (operations : List Operation) :
    Table.Reachable settings ((start settings position home).1.run split operations).table := by
  have hwatch : ((start settings position home).1.run split operations).watch = _ :=
    watch_run settings position home operations
  have htable := congrArg Watch.table hwatch
  rw [Watch.table_run] at htable
  change ((start settings position home).1.run split operations).table = _ at htable
  rw [htable]
  exact Table.Reachable.run .new _

/-- A line succeeds just if it complains of nothing. A line that is blank or whose first
word is no builtin leaves the session as it was. So does an `alias` line that fails, and
a builtin line of which the words cannot be found, and both print nothing. An `unalias`
line takes away what is stored under any of its names, goes on where a name is not
found, and complains of each of these in turn. -/
theorem failures_reported (split : Text → Option (List Text)) (session : Session) (line : Text) :
    let turn := session.runLineWith split line
    let builtin := Builtin.ofName? (Text.firstWord (Text.trim line))
    let arguments := (split (Text.trim line)).map List.tail
    (turn.reply.ok = true ↔ turn.reply.err = []) ∧
      (Text.isBlankText line = true ∨ builtin = none → turn.session = session) ∧
      (builtin = some .alias → turn.reply.ok = false →
        turn.session = session ∧ turn.reply.out = []) ∧
      (builtin ≠ none → arguments = none →
        turn.reply.ok = false ∧ turn.session = session ∧ turn.reply.out = []) ∧
      ∀ settings names, Table.Reachable settings session.table →
        builtin = some .unalias → arguments = some names →
        (turn.session.table.entries = session.table.entries.filter fun entry =>
          entry.key ∉ names.map session.table.storedKey) ∧
        turn.reply.out = [] ∧
        turn.reply.err =
          if names = [] then "unalias: missing alias name\n".toList
          else (session.table.notFound names).flatMap fun name =>
            "unalias: no such alias key: ".toList ++ name ++ "\n".toList := by
  intro turn builtin arguments
  have hrun {builtin : Builtin}
      (h : Builtin.ofName? (Text.firstWord (Text.trim line)) = some builtin) :
      turn = _ := runLineWith_of_name h session
  refine ⟨isFaithful_runLineWith session line,?_,?_,?_,?_⟩
  · rintro (hblank | hother)
    · simp only [turn,runLineWith,Text.trim_of_isBlankText hblank,↓reduceIte]
    · exact session_of_other session hother
  · intro hname hfailed
    rw [hrun hname] at hfailed ⊢
    cases hwords : split (Text.trim line) with
    | none => exact ⟨rfl,rfl⟩
    | some words =>
      simp only [hwords] at hfailed ⊢
      exact runAlias_failed hfailed
  · intro hname hsplit
    obtain ⟨builtin,hname⟩ := Option.ne_none_iff_exists'.mp hname
    have hwords : split (Text.trim line) = none := Option.map_eq_none_iff.mp hsplit
    rw [hrun hname,hwords]
    exact ⟨rfl,rfl,rfl⟩
  · intro settings names reachable hname hsplit
    obtain ⟨words,hwords,rfl⟩ := Option.map_eq_some_iff.mp hsplit
    rw [hrun hname,hwords]
    exact runUnalias_eq reachable.keys_nodup words.tail

/-- Two names that are cut to one key and a name that is no key, an alias that is not
there, a quote that is left open, and a line that only looks like a builtin. -/
theorem failures_reported_cut_names :
    let session :=
      (start { maxKeyLength := 2, homeAlias := false } CommandPosition.shell none).1.run
        Words.split [.runLine "alias abc=1".toList,.runLine "alias z=3".toList]
    let removal := session.runLine " unalias abc q abd".toList
    let unknown := session.runLine "alias q".toList
    let broken := session.runLine "complete 'a".toList
    let other := session.runLine "unalias\\ abc".toList
    removal.session.table.entries = [⟨['z'],['3']⟩] ∧ removal.reply.ok = false ∧
      removal.reply.err =
        "unalias: no such alias key: q\nunalias: no such alias key: abd\n".toList ∧
      unknown.reply.ok = false ∧ unknown.session = session ∧
      broken.session = session ∧ broken.reply.out = [] ∧ other.session = session := by
  intro session removal unknown broken other
  have reachable : Table.Reachable { maxKeyLength := 2, homeAlias := false } session.table :=
    reachable_run _ _ _ _
  have hentries : session.table.entries = [⟨['a','b'],['1']⟩,⟨['z'],['3']⟩] := by decide +kernel
  obtain ⟨hfaithful,_,_,_,hremoval⟩ :=
    failures_reported Words.split session " unalias abc q abd".toList
  obtain ⟨hkept,_,herr⟩ := hremoval _ ["abc".toList,['q'],"abd".toList] reachable rfl (by decide)
  obtain ⟨_,_,hunknown,_,_⟩ := failures_reported Words.split session "alias q".toList
  obtain ⟨_,_,_,hbroken,_⟩ := failures_reported Words.split session "complete 'a".toList
  obtain ⟨_,hother,_,_,_⟩ := failures_reported Words.split session "unalias\\ abc".toList
  have hfiltered : (session.table.entries.filter fun entry =>
      entry.key ∉ ["abc".toList,['q'],"abd".toList].map session.table.storedKey) =
      [⟨['z'],['3']⟩] := by
    rw [hentries]
    decide +kernel
  have hmissing : session.table.notFound ["abc".toList,['q'],"abd".toList] =
      [['q'],"abd".toList] := by decide +kernel
  rw [hmissing] at herr
  have hfailed : removal.reply.ok = false := by
    rw [Bool.eq_false_iff]
    intro hok
    have hnone := hfaithful.mp hok
    rw [herr] at hnone
    contradiction
  have hshown : unknown.reply.ok = false := by decide +kernel
  obtain ⟨_,hbroken,hout⟩ := hbroken (by decide) (by decide)
  exact ⟨hkept.trans hfiltered,hfailed,herr,hshown,(hunknown rfl hshown).1,hbroken,hout,
    hother (Or.inr (by decide))⟩

end Session
end ShellAlias
