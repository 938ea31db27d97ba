import ShellAlias.Proofs.Table.Reachable

namespace ShellAlias

/-- What a success changes in a table. A key stands in the form in which it is
stored. -/
inductive Change where
  | stored (entry : Entry)
  | erased (key : Text)
  deriving DecidableEq, Repr

namespace Change

def key : Change → Text
  | .stored entry => entry.key
  | .erased key => key

/-- The stored entries whose key no later change is about, in the order in which
they were stored. -/
def lasting : List Change → List Entry
  | [] => []
  | .stored entry :: later =>
    if entry.key ∈ later.map key then lasting later else entry :: lasting later
  | .erased _ :: later => lasting later

def on (entries : List Entry) : Change → List Entry
  | .stored entry => (entries.filter fun other => other.key ≠ entry.key) ++ [entry]
  | .erased key => entries.filter fun other => other.key ≠ key

def untouched (changes : List Change) (entries : List Entry) : List Entry :=
  entries.filter fun entry => entry.key ∉ changes.map key

theorem untouched_append (changes : List Change) (a b : List Entry) :
    untouched changes (a ++ b) = untouched changes a ++ untouched changes b :=
  List.filter_append _ _

theorem untouched_cons (change : Change) (later : List Change) (entries : List Entry) :
    untouched later (entries.filter fun entry => entry.key ≠ change.key) =
      untouched (change :: later) entries := by
  simp only [untouched,List.filter_filter]
  apply List.filter_congr
  intro entry _
  rw [List.map_cons,← Bool.decide_and,decide_eq_decide,List.mem_cons,not_or,and_comm]

/-- Changes in turn leave the entries that none of them is about, and then those
that last. -/
theorem foldl_on (changes : List Change) (entries : List Entry) :
    changes.foldl on entries = untouched changes entries ++ lasting changes := by
  induction changes generalizing entries with
  | nil => simp [untouched,lasting]
  | cons change later ih =>
    rw [List.foldl_cons,ih,← untouched_cons]
    cases change with
    | stored entry =>
      rw [on,untouched_append,List.append_assoc]
      congr 1
      by_cases hk : entry.key ∈ later.map key
      · simp only [untouched,List.filter_cons,lasting,hk,not_true_eq_false,decide_false,
          Bool.false_eq_true,↓reduceIte,List.filter_nil,List.nil_append]
      · simp only [untouched,List.filter_cons,lasting,hk,not_false_eq_true,decide_true,
          ↓reduceIte,List.filter_nil,List.singleton_append]
    | erased k => rfl

end Change

namespace Table

def changesIf (result : Except AliasError Unit) (change : Change) : List Change :=
  match result with
  | .ok () => [change]
  | .error _ => []

def changesOfLines (table : Table) : List Text → List Change
  | [] => []
  | line :: lines =>
    match Listing.parse line with
    | .error _ => []
    | .ok entry =>
      let first := table.restore entry.key entry.value
      match first.result with
      | .error _ => []
      | .ok () =>
        .stored (table.settings.stored entry.key entry.value) :: changesOfLines first.state lines

/-- The changes that an operation makes on a table. What a definition stores is
found in the table as it is before. -/
def Operation.changes (table : Table) : Operation → List Change
  | .define position key raw =>
    changesIf (table.define position key raw).result
      (.stored (table.settings.stored key (table.expand position raw).text))
  | .restore key value =>
    changesIf (table.restore key value).result (.stored (table.settings.stored key value))
  | .remove key => changesIf (table.remove key).result (.erased (table.settings.cut .key key))
  | .replay listing =>
    table.changesOfLines ((Text.lines listing).filter fun line => !Text.isBlankText line)
  | .snapshot _ => []

def history (table : Table) : List Operation → List Change
  | [] => []
  | operation :: others => operation.changes table ++ history (operation.apply table) others

variable {table : Table}

theorem entries_restore (hn : table.keys.Nodup) (key value : Text) :
    (table.restore key value).state.entries =
      (changesIf (table.restore key value).result
        (.stored (table.settings.stored key value))).foldl Change.on table.entries := by
  rcases restore_cases table key value with ⟨_,_,_,hr,hs⟩ | ⟨⟨error,hr⟩,hs⟩
  · rw [hr,hs,entries_put hn,storedKey_stored]
    rfl
  · rw [hr,hs]
    rfl

/-- What a definition leaves: the other entries in their order, and behind them what the
raw value means under the table as it was. -/
theorem entries_define {settings : Settings} (reachable : Reachable settings table)
    {position : CommandPosition} {key raw : Text}
    (defined : (table.define position key raw).result = .ok ()) :
    (table.define position key raw).state.entries =
      (table.entries.filter fun entry => entry.key ≠ settings.cut .key key) ++
        [settings.stored key (table.expand position raw).text] := by
  have hentries := entries_restore reachable.keys_nodup key (table.expand position raw).text
  have hstored : (table.restore key (table.expand position raw).text).result = .ok () := defined
  rw [hstored,reachable.settings_eq] at hentries
  exact hentries

theorem entries_remove (hn : table.keys.Nodup) (key : Text) :
    (table.remove key).state.entries =
      (changesIf (table.remove key).result
        (.erased (table.settings.cut .key key))).foldl Change.on table.entries := by
  rcases remove_cases table key with ⟨others,he,hr,hs⟩ | ⟨_,hr,hs⟩
  · rw [hr,hs]
    exact entries_erase? hn he
  · rw [hr,hs]
    rfl

theorem entries_replayLines (hn : table.keys.Nodup) (lines : List Text) :
    (table.replayLines lines).state.entries =
      (table.changesOfLines lines).foldl Change.on table.entries := by
  induction lines generalizing table with
  | nil => rfl
  | cons line lines ih =>
    rw [replayLines,changesOfLines]
    cases Listing.parse line with
    | error error => rfl
    | ok entry =>
      have hfirst := entries_restore hn entry.key entry.value
      dsimp only
      cases hr : (table.restore entry.key entry.value).result with
      | error error =>
        rw [hr] at hfirst
        exact hfirst
      | ok _ =>
        rw [hr] at hfirst
        rw [List.foldl_cons]
        exact (ih (keys_nodup_restore hn entry.key entry.value)).trans
          (congrArg (fun entries => List.foldl Change.on entries _) hfirst)

/-- An operation changes the entries by its changes and in no other way. -/
theorem Operation.entries_apply (hn : table.keys.Nodup) (operation : Operation) :
    (operation.apply table).entries = (operation.changes table).foldl Change.on table.entries := by
  cases operation with
  | define position key raw => exact entries_restore hn key _
  | restore key value => exact entries_restore hn key value
  | remove key => exact entries_remove hn key
  | replay listing => exact entries_replayLines hn _
  | snapshot onlyIfChanged => exact entries_snapshot table onlyIfChanged

theorem entries_run (table : Table) (hn : table.keys.Nodup) (operations : List Operation) :
    (table.run operations).entries =
      (history table operations).foldl Change.on table.entries := by
  induction operations generalizing table with
  | nil => rfl
  | cons operation others ih =>
    rw [history,List.foldl_append,← operation.entries_apply hn]
    exact ih (operation.apply table) (operation.keys_nodup hn)

/-- A table holds what was stored with success and not stored again or taken
away under the same key since, in the order of storing. Names are looked up
there as they are stored, and what is found can be removed. -/
theorem entries_eq_lasting (settings : Settings) (operations : List Operation) :
    let table := ({ settings } : Table).run operations
    let entries := Change.lasting (history { settings } operations)
    table.entries = entries ∧ ∀ name,
      (∀ entry, table.entry? name = some entry ↔
        entry ∈ entries ∧ entry.key = settings.cut .key name) ∧
      (∀ value, table.get? name = some value ↔ ⟨settings.cut .key name,value⟩ ∈ entries) ∧
      (table.contains name = true ↔ ∃ entry ∈ entries, entry.key = settings.cut .key name) ∧
      ((table.remove name).result = .ok () ↔ table.contains name = true) := by
  intro table entries
  have reachable : Reachable settings table := Reachable.new.run operations
  have hentries : table.entries = entries := by
    have h := entries_run { settings } List.nodup_nil operations
    rwa [Change.foldl_on] at h
  have hkey (name : Text) : table.storedKey name = settings.cut .key name := by
    rw [storedKey_eq_cut,reachable.settings_eq]
  have hfound (name : Text) (entry : Entry) : table.entry? name = some entry ↔
      entry ∈ entries ∧ entry.key = settings.cut .key name := by
    rw [entry?_eq_some_iff reachable.keys_nodup,hentries,hkey]
  refine ⟨hentries,fun name => ⟨hfound name,?_,?_,remove_ok_iff⟩⟩
  · intro value
    rw [get?,Option.map_eq_some_iff]
    constructor
    · intro h
      obtain ⟨entry,he,rfl⟩ := h
      obtain ⟨hm,hk⟩ := (hfound name entry).mp he
      rw [← hk]
      exact hm
    · intro h
      exact ⟨_,(hfound name _).mpr ⟨h,rfl⟩,rfl⟩
  · rw [contains_iff,keys,hentries,hkey,List.mem_map]

/-- Names that are cut to the same key. All four calls succeed, and the definition is
stored in place of the entry by which its value was expanded. -/
theorem entries_eq_lasting_cut :
    let settings : Settings := { maxKeyLength := 2 }
    let operations : List Operation := [.restore "abc".toList ['x'],.restore ['c'] ['z'],
      .define CommandPosition.shell "abd".toList "ab q".toList,.remove ['c']]
    let table := ({ settings } : Table).run operations
    history { settings } operations = [.stored ⟨['a','b'],['x']⟩,.stored ⟨['c'],['z']⟩,
        .stored ⟨['a','b'],"x q".toList⟩,.erased ['c']] ∧
      table.entries = [⟨['a','b'],"x q".toList⟩] ∧
      table.get? "abe".toList = some "x q".toList ∧
      (table.remove "abe".toList).result = .ok () := by
  intro settings operations table
  have hhistory : history { settings } operations = [.stored ⟨['a','b'],['x']⟩,
      .stored ⟨['c'],['z']⟩,.stored ⟨['a','b'],"x q".toList⟩,.erased ['c']] := by
    decide +kernel
  obtain ⟨hentries,hname⟩ := entries_eq_lasting settings operations
  rw [hhistory] at hentries hname
  obtain ⟨_,hget,hcontains,hremove⟩ := hname "abe".toList
  refine ⟨hhistory,hentries,(hget _).mpr (by decide),?_⟩
  exact hremove.mpr (hcontains.mpr (by decide))

end Table
end ShellAlias
