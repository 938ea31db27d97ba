import ShellAlias.Proofs.Table.Entries

namespace ShellAlias

namespace Table

inductive Operation where
  | define (position : CommandPosition) (key raw : Text)
  | restore (key value : Text)
  | remove (key : Text)
  | replay (listing : Text)
  | snapshot (onlyIfChanged : Bool)

def Operation.apply (table : Table) : Operation → Table
  | .define position key raw => (table.define position key raw).state
  | .restore key value => (table.restore key value).state
  | .remove key => (table.remove key).state
  | .replay listing => (table.replay listing).state
  | .snapshot onlyIfChanged => (table.snapshot onlyIfChanged).2

inductive Reachable (settings : Settings) : Table → Prop where
  | new : Reachable settings { settings }
  | step {table : Table} (operation : Operation) (reachable : Reachable settings table) :
      Reachable settings (operation.apply table)

def run (table : Table) (operations : List Operation) : Table :=
  operations.foldl Operation.apply table

theorem Reachable.run {settings : Settings} {table : Table} (h : Reachable settings table)
    (operations : List Operation) : Reachable settings (table.run operations) := by
  induction operations generalizing table with
  | nil => exact h
  | cons operation others ih => exact ih (.step operation h)

/-- What every line of a replay keeps, the replay keeps, wherever it stops. -/
theorem replayLines_induction {motive : Table → Prop} {lines : List Text}
    (restore : ∀ table, ∀ line ∈ lines, ∀ entry, Listing.entryOfLine? line = some entry →
      motive table → motive (table.restore entry.key entry.value).state)
    {table : Table} (h : motive table) : motive (table.replayLines lines).state := by
  induction lines generalizing table with
  | nil => exact h
  | cons line lines ih =>
    rw [replayLines,Listing.parse]
    cases hl : Listing.entryOfLine? line with
    | none => exact h
    | some entry =>
      have hr := restore table line List.mem_cons_self entry hl h
      dsimp only
      split
      · exact hr
      · exact ih (fun table line hm => restore table line (List.mem_cons_of_mem _ hm)) hr

/-- What every restore and every removal keeps, every operation keeps. -/
theorem Operation.apply_induction {motive : Table → Prop}
    (restore : ∀ table key value, motive table → motive (table.restore key value).state)
    (remove : ∀ table key, motive table → motive (table.remove key).state)
    (told : ∀ table, motive table → motive { table with changed := false })
    {table : Table} (h : motive table) (operation : Operation) :
    motive (operation.apply table) := by
  cases operation with
  | define position key raw => exact restore table key _ h
  | restore key value => exact restore table key value h
  | remove key => exact remove table key h
  | replay listing =>
    exact replayLines_induction (fun table _ _ entry _ => restore table entry.key entry.value) h
  | snapshot onlyIfChanged =>
    change motive (table.snapshot onlyIfChanged).2
    rw [Table.snapshot]
    split
    · exact h
    · exact told table h

theorem Operation.keys_nodup {table : Table} (hn : table.keys.Nodup) (operation : Operation) :
    (operation.apply table).keys.Nodup := by
  refine operation.apply_induction (motive := fun table => table.keys.Nodup) ?_ ?_ ?_ hn
  · intro table key value hn
    exact keys_nodup_restore hn key value
  · intro table key hn
    exact keys_nodup_remove hn key
  · intro table hn
    exact hn

theorem Reachable.keys_nodup {settings : Settings} {table : Table}
    (h : Reachable settings table) : table.keys.Nodup := by
  induction h with
  | new => exact List.nodup_nil
  | step operation reachable ih => exact operation.keys_nodup ih

theorem Reachable.settings_eq {settings : Settings} {table : Table}
    (h : Reachable settings table) : table.settings = settings := by
  induction h with
  | new => rfl
  | step operation reachable ih =>
    refine operation.apply_induction (motive := fun table => table.settings = settings) ?_ ?_ ?_ ih
    · intro table key value hs
      exact (settings_restore table key value).trans hs
    · intro table key hs
      exact (settings_remove table key).trans hs
    · intro table hs
      exact hs

end Table
end ShellAlias
