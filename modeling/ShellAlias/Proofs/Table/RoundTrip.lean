import ShellAlias.Proofs.Table.History
import ShellAlias.Proofs.Table.Invariants
import ShellAlias.Proofs.Table.ListingLine
import ShellAlias.Proofs.Table.Replay

namespace ShellAlias

def Entry.IsPrintable (entry : Entry) : Prop :=
  entry.key ≠ [] ∧ '\n' ∉ entry.key ∧ '\n' ∉ entry.value ∧ ¬ Listing.separator <:+: entry.key

instance : DecidablePred Entry.IsPrintable := fun entry =>
  inferInstanceAs (Decidable (entry.key ≠ [] ∧ _))

namespace Table

variable {settings : Settings} {table : Table}

def IsPrintable (table : Table) : Prop := ∀ entry ∈ table.entries, entry.IsPrintable

instance : Decidable table.IsPrintable :=
  inferInstanceAs (Decidable (∀ entry ∈ table.entries, entry.IsPrintable))

theorem lines_listing (hk : ∀ entry ∈ table.entries, '\n' ∉ entry.key)
    (hv : ∀ entry ∈ table.entries, '\n' ∉ entry.value) :
    ((Text.lines table.listing).filter fun line => !Text.isBlankText line) =
      table.entries.map Listing.line := by
  have hprinted : table.listing = (table.entries.map Listing.line).flatMap Text.line := by
    rw [listing,List.flatMap_map]
  rw [hprinted,Text.lines_flatMap_line]
  · apply List.filter_eq_self.mpr
    intro line hm
    obtain ⟨entry,_,rfl⟩ := List.mem_map.mp hm
    rw [Listing.isBlankText_line]
    rfl
  · intro line hm
    obtain ⟨entry,he,rfl⟩ := List.mem_map.mp hm
    rw [Listing.feed_mem_line_iff,not_or]
    exact ⟨hk entry he,hv entry he⟩
  · intro line hm
    obtain ⟨entry,_,rfl⟩ := List.mem_map.mp hm
    rw [Listing.getLast?_line]
    decide

/-- Lines of entries that read back and keep the limits are all restored. -/
theorem replayLines_printed {entries : List Entry}
    (printable : ∀ entry ∈ entries, entry.IsPrintable)
    (key_le : ∀ entry ∈ entries, entry.key.length ≤ settings.maxKeyLength)
    (value_le : ∀ entry ∈ entries, entry.value.length ≤ settings.maxValueLength)
    (hs : table.settings = settings) :
    (table.replayLines (entries.map Listing.line)).result = .ok entries.length ∧
      table.changesOfLines (entries.map Listing.line) = entries.map .stored := by
  induction entries generalizing table with
  | nil => exact ⟨rfl,rfl⟩
  | cons entry entries ih =>
    obtain ⟨⟨hne,_,_,hinside⟩,printable⟩ := List.forall_mem_cons.mp printable
    obtain ⟨hk,key_le⟩ := List.forall_mem_cons.mp key_le
    obtain ⟨hv,value_le⟩ := List.forall_mem_cons.mp value_le
    subst hs
    have hstored : table.settings.stored entry.key entry.value = entry := by
      rw [Settings.stored,Settings.cut_of_length_le .key hk,
        Settings.cut_of_length_le .value hv]
    obtain ⟨hr,_⟩ := restore_of_admits hne (Settings.admits_of_length_le .key hk)
      (Settings.admits_of_length_le .value hv)
    obtain ⟨hresult,hchanges⟩ := ih printable key_le value_le (settings_restore table _ _)
    rw [List.map_cons,replayLines,changesOfLines,Listing.parse_line hne hinside]
    dsimp only
    simp only [hr]
    rw [hresult,hchanges,hstored]
    exact ⟨rfl,rfl⟩

theorem lasting_map_stored {entries : List Entry} (hn : (entries.map Entry.key).Nodup) :
    Change.lasting (entries.map .stored) = entries := by
  induction entries with
  | nil => rfl
  | cons entry entries ih =>
    rw [List.map_cons,List.nodup_cons] at hn
    have hkeys : (entries.map Change.stored).map Change.key = entries.map Entry.key := by
      rw [List.map_map]
      rfl
    rw [List.map_cons,Change.lasting,hkeys,if_neg hn.1,ih hn.2]

/-- A printable listing is restored over what a table holds. -/
theorem replay_printable (other : Table) (printable : table.IsPrintable)
    (measured : table.Measured) (hn : table.keys.Nodup) (hs : other.settings = table.settings)
    (ho : other.keys.Nodup) :
    (other.replay table.listing).result = .ok table.entries.length ∧
      (other.replay table.listing).state.entries =
        (other.entries.filter fun entry => entry.key ∉ table.keys) ++ table.entries := by
  have hlines := lines_listing (fun entry hm => (printable entry hm).2.1)
    (fun entry hm => (printable entry hm).2.2.1)
  obtain ⟨hresult,hchanges⟩ := replayLines_printed printable measured.key_le measured.value_le hs
  rw [replay,hlines]
  refine ⟨hresult,?_⟩
  have hkeys : (table.entries.map Change.stored).map Change.key = table.keys := by
    rw [List.map_map]
    rfl
  rw [entries_replayLines ho,hchanges,Change.foldl_on,lasting_map_stored hn,Change.untouched,hkeys]

/-- What a replay stores comes from single lines, and its keys end before the
first separator. -/
theorem mem_entries_replay (settings : Settings) (text : Text) :
    ∀ entry ∈ (({ settings } : Table).replay text).state.entries,
      '\n' ∉ entry.key ∧ '\n' ∉ entry.value ∧ ¬ Listing.separator <:+: entry.key := by
  refine replayLines_induction (motive := fun table => ∀ entry ∈ table.entries,
    '\n' ∉ entry.key ∧ '\n' ∉ entry.value ∧ ¬ Listing.separator <:+: entry.key) ?_ (by simp)
  intro table line hline entry hparsed hold other hm
  rcases mem_entries_restore hm with hm | ⟨_,_,_,rfl⟩
  · exact hold other hm
  · obtain ⟨rfl,_,hinside⟩ := Listing.entryOfLine?_eq_some_iff.mp hparsed
    have hfeed := Text.not_mem_of_mem_lines (List.mem_of_mem_filter hline)
    rw [Listing.feed_mem_line_iff,not_or] at hfeed
    have hkey := Settings.cut_prefix table.settings .key entry.key
    have hvalue := Settings.cut_prefix table.settings .value entry.value
    exact ⟨fun hm => hfeed.1 (hkey.mem hm),fun hm => hfeed.2 (hvalue.mem hm),
      fun hs => hinside (hs.trans hkey.isInfix)⟩

theorem replayLines_error (table : Table) {line : Text} {lines : List Text} (hm : line ∈ lines)
    (hparse : Listing.entryOfLine? line = none) :
    ∃ error, (table.replayLines lines).result = .error error := by
  obtain ⟨before,after,rfl⟩ := List.append_of_mem hm
  rw [replayLines_append]
  cases hbefore : (table.replayLines before).result with
  | error error => exact ⟨error,Outcome.andThen_error_iff.mpr (Or.inl hbefore)⟩
  | ok n =>
    obtain ⟨hstopped,_⟩ := replayLines_of_stopsAt (.malformed hparse) after
    exact ⟨_,Outcome.andThen_error_iff.mpr (Or.inr ⟨n,hbefore,hstopped⟩)⟩

/-- A printable listing puts the table's entries behind the other entries of any
table of the same settings. A listing that is not printable does not give the
table back. -/
theorem listing_round_trip (reachable : Reachable settings table) :
    (table.IsPrintable → ∀ other, Reachable settings other →
      let replayed := other.replay table.listing
      replayed.result = .ok table.entries.length ∧
        replayed.state.entries =
          (other.entries.filter fun entry => entry.key ∉ table.keys) ++ table.entries ∧
        (other.entries = [] ∨ other = table → replayed.state.entries = table.entries)) ∧
      (¬ table.IsPrintable →
        let replayed := ({ settings } : Table).replay table.listing
        (∃ error, replayed.result = .error error) ∨ replayed.state.entries ≠ table.entries) := by
  constructor
  · intro printable other hother replayed
    have hs : other.settings = table.settings := hother.settings_eq.trans reachable.settings_eq.symm
    obtain ⟨hresult,hentries⟩ := replay_printable other printable reachable.measured
      reachable.keys_nodup hs hother.keys_nodup
    refine ⟨hresult,hentries,fun hsame => ?_⟩
    have hnone : (other.entries.filter fun entry => entry.key ∉ table.keys) = [] := by
      apply List.filter_eq_nil_iff.mpr
      intro entry hm
      rcases hsame with hempty | rfl
      · rw [hempty] at hm
        contradiction
      · have hkey : entry.key ∈ other.keys := List.mem_map_of_mem hm
        simpa using hkey
    exact hentries.trans (by rw [hnone,List.nil_append])
  · intro hprintable replayed
    rw [IsPrintable,not_forall] at hprintable
    obtain ⟨entry,hprintable⟩ := hprintable
    obtain ⟨hm,hprintable⟩ := Classical.not_imp.mp hprintable
    by_cases hsame : replayed.state.entries = table.entries
    · have hread := mem_entries_replay settings table.listing
      change ∀ entry ∈ replayed.state.entries, _ at hread
      rw [hsame] at hread
      -- only an empty key is left, and its line does not read back
      have hempty : entry.key = [] := by
        by_contra hne
        exact hprintable ⟨hne,hread entry hm⟩
      left
      have hlines := lines_listing (fun entry hm => (hread entry hm).1)
        (fun entry hm => (hread entry hm).2.1)
      obtain ⟨error,he⟩ := replayLines_error { settings } (List.mem_map_of_mem hm)
        (Listing.entryOfLine?_of_empty_key hempty)
      exact ⟨error,by rw [← he,← hlines]; rfl⟩
    · exact Or.inr hsame

/-- A value with quotes, the separator and a return comes through, and a newer
entry takes the place of the one of its key. A key with the separator in it does
not come through. -/
theorem listing_round_trip_quotes :
    let first := ({ settings := {} } : Table).restore ['q'] "a' = 'b\r".toList
    let table := (first.state.restore ['l','s'] []).state
    let older := ({ settings := {} } : Table).restore ['q'] ['1']
    let other := (older.state.restore ['x'] ['2']).state
    let broken := (({ settings := {} } : Table).restore "a = 'b".toList ['c']).state
    Reachable {} table ∧ table.IsPrintable ∧ Reachable {} other ∧
      (other.replay table.listing).result = .ok 2 ∧
      (other.replay table.listing).state.entries =
        [⟨['x'],['2']⟩,⟨['q'],"a' = 'b\r".toList⟩,⟨['l','s'],[]⟩] ∧
      Reachable {} broken ∧ ¬ broken.IsPrintable ∧
      (({ settings := {} } : Table).replay broken.listing).result = .ok 1 ∧
      (({ settings := {} } : Table).replay broken.listing).state.entries ≠ broken.entries := by
  intro first table older other broken
  have reachable : Reachable {} table :=
    .step (.restore ['l','s'] []) (.step (.restore ['q'] "a' = 'b\r".toList) .new)
  have hother : Reachable {} other :=
    .step (.restore ['x'] ['2']) (.step (.restore ['q'] ['1']) .new)
  have printable : table.IsPrintable := by decide
  obtain ⟨hresult,hentries,_⟩ := (listing_round_trip reachable).1 printable other hother
  have hbroken : Reachable {} broken := .step (.restore "a = 'b".toList ['c']) .new
  have hread : (({ settings := {} } : Table).replay broken.listing).result = .ok 1 := rfl
  have unprintable : ¬ broken.IsPrintable := by decide
  refine ⟨reachable,printable,hother,hresult,hentries.trans (by decide),hbroken,unprintable,
    hread,?_⟩
  rcases (listing_round_trip hbroken).2 unprintable with ⟨error,he⟩ | hne
  · rw [hread] at he
    contradiction
  · exact hne

end Table
end ShellAlias
