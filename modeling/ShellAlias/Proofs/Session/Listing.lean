import ShellAlias.Proofs.Expansion.Characters
import ShellAlias.Proofs.Session.Operations
import ShellAlias.Proofs.Table.RoundTrip
import ShellAlias.Proofs.Words

namespace ShellAlias

/-- What a line of input can leave behind: a key that is some text without an
equals sign, and no line feed anywhere. -/
def Entry.IsTyped (entry : Entry) : Prop :=
  entry.key ≠ [] ∧ '=' ∉ entry.key ∧ '\n' ∉ entry.key ∧ '\n' ∉ entry.value

theorem Entry.IsTyped.isPrintable {entry : Entry} (h : entry.IsTyped) : entry.IsPrintable := by
  obtain ⟨hne,hsign,hkey,hvalue⟩ := h
  have hseparator : '=' ∈ Listing.separator := by decide
  exact ⟨hne,hkey,hvalue,fun hs => hsign (hs.mem hseparator)⟩

namespace Table

variable {settings : Settings} {table : Table}

theorem typed_restore (hlimit : 0 < table.settings.maxKeyLength)
    (h : ∀ entry ∈ table.entries, entry.IsTyped) {key value : Text} (hsign : '=' ∉ key)
    (hkey : '\n' ∉ key) (hvalue : '\n' ∉ value) :
    ∀ entry ∈ (table.restore key value).state.entries, entry.IsTyped := by
  intro entry hm
  rcases mem_entries_restore hm with hm | ⟨hne,_,_,rfl⟩
  · exact h entry hm
  · have hcutKey := Settings.cut_prefix table.settings .key key
    have hcutValue := Settings.cut_prefix table.settings .value value
    exact ⟨Settings.cut_ne_nil hlimit hne,fun hm => hsign (hcutKey.mem hm),
      fun hm => hkey (hcutKey.mem hm),fun hm => hvalue (hcutValue.mem hm)⟩

end Table

namespace Session

variable {settings : Settings} {split : Text → Option (List Text)}

/-- What the arguments of an unbroken line ask for keeps the entries such as
lines can leave. -/
theorem Requests.typed {args : List Text} (hargs : ∀ arg ∈ args, '\n' ∉ arg) {table : Table}
    (hlimit : 0 < table.settings.maxKeyLength) (h : ∀ entry ∈ table.entries, entry.IsTyped)
    {operation : Table.Operation} (request : Requests args operation) :
    ∀ entry ∈ (operation.apply table).entries, entry.IsTyped := by
  cases request with
  | define position key raw request =>
    obtain ⟨hsign,hkey,hraw⟩ := AliasRequest.ofArguments_eq_define request
    apply Table.typed_restore hlimit h hsign
    · intro hm
      obtain ⟨arg,harg,hc⟩ := hkey _ hm
      exact hargs arg harg hc
    · intro hm
      rcases Expansion.mem_of_mem_expand hm with hm | ⟨entry,he,hm⟩
      · obtain hc | ⟨arg,harg,hc⟩ := hraw _ hm
        · contradiction
        · exact hargs arg harg hc
      · exact (h entry he).2.2.2 hm
  | remove name _ =>
    intro entry hm
    exact h entry (Table.mem_entries_remove hm)
  | snapshot =>
    intro entry hm
    exact h entry (by rwa [← Table.entries_snapshot table true])

theorem typed_run {table : Table} (reachable : Table.Reachable settings table)
    (hlimit : 0 < settings.maxKeyLength) (h : ∀ entry ∈ table.entries, entry.IsTyped)
    {operations : List Table.Operation} (requests : ∀ operation ∈ operations,
      ∃ args, (∀ arg ∈ args, '\n' ∉ arg) ∧ Requests args operation) :
    ∀ entry ∈ (table.run operations).entries, entry.IsTyped := by
  induction operations generalizing table with
  | nil => exact h
  | cons operation others ih =>
    obtain ⟨⟨args,hargs,hfirst⟩,hothers⟩ := List.forall_mem_cons.mp requests
    have hstored := hfirst.typed hargs (by rwa [reachable.settings_eq]) h
    exact ih (.step operation reachable) hstored hothers

/-- Unbroken lines lead from one table to another of the kind. -/
theorem typed_runLineWith
    (made : ∀ line words, split line = some words → ∀ word ∈ words, ∀ c ∈ word, c ∈ line)
    (hlimit : 0 < settings.maxKeyLength) {session : Session}
    (reachable : Table.Reachable settings session.table)
    (h : ∀ entry ∈ session.table.entries, entry.IsTyped) {line : Text} (hline : '\n' ∉ line) :
    Table.Reachable settings (session.runLineWith split line).session.table ∧
      ∀ entry ∈ (session.runLineWith split line).session.table.entries, entry.IsTyped := by
  obtain ⟨operations,htable,hrequests⟩ := table_runLineWith split session line
  rw [htable]
  refine ⟨reachable.run operations,typed_run reachable hlimit h fun operation hm => ?_⟩
  obtain ⟨words,hwords,request⟩ := hrequests operation hm
  refine ⟨words.tail,fun word hword hc => ?_,request⟩
  have htrimmed := made _ _ hwords word (List.mem_of_mem_tail hword) _ hc
  exact hline ((Text.trim_infix line).mem htrimmed)

theorem typed_runLines
    (made : ∀ line words, split line = some words → ∀ word ∈ words, ∀ c ∈ word, c ∈ line)
    (hlimit : 0 < settings.maxKeyLength) {lines : List Text} (hlines : ∀ line ∈ lines, '\n' ∉ line)
    {session : Session} (reachable : Table.Reachable settings session.table)
    (h : ∀ entry ∈ session.table.entries, entry.IsTyped) :
    let later := lines.foldl (fun session line => (session.runLineWith split line).session) session
    Table.Reachable settings later.table ∧ ∀ entry ∈ later.table.entries, entry.IsTyped := by
  induction lines generalizing session with
  | nil => exact ⟨reachable,h⟩
  | cons line lines ih =>
    obtain ⟨hfirst,hlines⟩ := List.forall_mem_cons.mp hlines
    obtain ⟨reachable,h⟩ := typed_runLineWith made hlimit reachable h hfirst
    exact ih hlines reachable h

theorem typed_start (hlimit : 0 < settings.maxKeyLength) (position : CommandPosition)
    {home : Option Text} (hhome : settings.homeAlias = true →
      ∀ directory, home = some directory → '\n' ∉ directory) :
    Table.Reachable settings (start settings position home).1.table ∧
      ∀ entry ∈ (start settings position home).1.table.entries, entry.IsTyped := by
  rcases table_start settings position home with ht | ⟨directory,hseed,hset,ht⟩
  · rw [ht]
    exact ⟨.new,by simp⟩
  · rw [ht]
    refine ⟨.step (.restore homeKey directory) .new,?_⟩
    exact Table.typed_restore hlimit (by simp) (by decide) (by decide)
      (hhome hseed directory hset)

theorem out_runLineWith_alias (h : Words.FindsBare split "alias".toList) (session : Session) :
    (session.runLineWith split "alias".toList).reply.out = session.table.listing := by
  obtain ⟨words,hwords,htail⟩ := Option.map_eq_some_iff.mp h
  have htrim : Text.trim "alias".toList = "alias".toList := rfl
  have hname : Builtin.ofName? (Text.firstWord "alias".toList) = some .alias := rfl
  have hne : "alias".toList ≠ [] := by decide
  simp only [runLineWith,htrim,hne,↓reduceIte,hname,hwords,runBuiltin,htail]
  rfl

/-- Whatever unbroken lines were typed into a new session, and whatever words of
their own characters they were split into, what `alias` prints then can be
replayed into a new table and gives the session's entries. -/
theorem alias_listing_replays (settings : Settings)
    (made : ∀ line words, split line = some words → ∀ word ∈ words, ∀ c ∈ word, c ∈ line)
    (bare : Words.FindsBare split "alias".toList) (keyLength : 1 ≤ settings.maxKeyLength)
    (position : CommandPosition) (home : Option Text)
    (homeUnbroken : settings.homeAlias = true →
      ∀ directory, home = some directory → '\n' ∉ directory)
    {lines : List Text} (unbroken : ∀ line ∈ lines, '\n' ∉ line) :
    let session := lines.foldl (fun session line => (session.runLineWith split line).session)
      (start settings position home).1
    let printed := (session.runLineWith split "alias".toList).reply.out
    let replayed := ({ settings } : Table).replay printed
    replayed.result = .ok session.table.entries.length ∧
      replayed.state.entries = session.table.entries := by
  intro session printed replayed
  obtain ⟨hnew,htyped⟩ := typed_start keyLength position homeUnbroken
  obtain ⟨reachable,htyped⟩ := typed_runLines made keyLength unbroken hnew htyped
  change Table.Reachable settings session.table at reachable
  have hprinted : printed = session.table.listing := out_runLineWith_alias bare session
  have hreplayed : replayed = ({ settings } : Table).replay session.table.listing := by
    rw [← hprinted]
  rw [hreplayed]
  exact Table.replay_printable { settings } (fun entry hm => (htyped entry hm).isPrintable)
    reachable.measured reachable.keys_nodup reachable.settings_eq.symm List.nodup_nil

/-- The rules of shell words meet the condition. A value is expanded before it is
stored, a home directory is there from the start, and a name is taken away. -/
theorem alias_listing_replays_quoted :
    let lines := ["alias ll='ls  = -l'".toList,"alias q = ll \"'a'\"".toList,
      "alias x".toList,"unalias ll".toList]
    let session := lines.foldl (fun session line => (session.runLineWith Words.split line).session)
      (start {} CommandPosition.shell (some "/h".toList)).1
    let replayed := ({ settings := {} } : Table).replay (session.runLine "alias".toList).reply.out
    Words.FindsBare Words.split "alias".toList ∧ (∀ line ∈ lines, '\n' ∉ line) ∧
      replayed.result = .ok 2 ∧ replayed.state.entries =
        [⟨['~'],"/h".toList⟩,⟨['q'],"ls  = -l 'a'".toList⟩] := by
  intro lines session replayed
  have unbroken : ∀ line ∈ lines, '\n' ∉ line := by decide
  have hentries : session.table.entries =
      [⟨['~'],"/h".toList⟩,⟨['q'],"ls  = -l 'a'".toList⟩] := by decide +kernel
  have bare : Words.FindsBare Words.split "alias".toList := rfl
  obtain ⟨hresult,hsame⟩ := alias_listing_replays {} (fun _ _ => Words.mem_of_mem_split) bare
    (by decide) CommandPosition.shell (some "/h".toList) (by decide) unbroken
  rw [← hentries]
  exact ⟨bare,unbroken,hresult.trans (congrArg Except.ok (congrArg List.length hentries)),hsame⟩

end Session
end ShellAlias
