import Mathlib.Algebra.GroupWithZero.Nat
import ShellAlias.Proofs.Table.Reachable

namespace ShellAlias

def valueBytes (entries : List Entry) : Nat :=
  (entries.map fun entry => Text.size entry.value).sum

/-- What is taken out and what stays make up the whole. -/
theorem valueBytes_eraseP {p : Entry → Bool} {entries : List Entry} {entry : Entry}
    (h : entries.find? p = some entry) :
    Text.size entry.value + valueBytes (entries.eraseP p) = valueBytes entries := by
  induction entries with
  | nil => simp at h
  | cons other others ih =>
    cases hp : p other with
    | true =>
      simp only [List.find?_cons,hp,Option.some.injEq] at h
      subst h
      simp [valueBytes,hp]
    | false =>
      simp only [List.find?_cons,hp] at h
      have hrest := ih h
      simp only [valueBytes,List.eraseP_cons,hp,cond_false,List.map_cons,List.sum_cons] at hrest ⊢
      omega

namespace Table

variable {table others : Table} {key : Text}

/-- The limits hold of what is stored, and the total is the sum that it stands for. -/
structure Measured (table : Table) : Prop where
  key_le : ∀ entry ∈ table.entries, entry.key.length ≤ table.settings.maxKeyLength
  value_le : ∀ entry ∈ table.entries, entry.value.length ≤ table.settings.maxValueLength
  total_eq : table.totalValueSize = valueBytes table.entries

theorem total_erase? (ht : table.totalValueSize = valueBytes table.entries)
    (h : table.erase? key = some others) :
    others.totalValueSize = valueBytes others.entries := by
  obtain ⟨entry,he,rfl⟩ := erase?_eq_some h
  have hsum := valueBytes_eraseP he
  dsimp only
  rw [ht]
  omega

theorem total_put (ht : table.totalValueSize = valueBytes table.entries) (entry : Entry) :
    (table.put entry).totalValueSize = valueBytes (table.put entry).entries := by
  have hothers : ((table.erase? entry.key).getD table).totalValueSize =
      valueBytes ((table.erase? entry.key).getD table).entries := by
    cases he : table.erase? entry.key with
    | none => exact ht
    | some others => exact total_erase? ht he
  change _ + Text.size entry.value = _
  rw [hothers,put_entries]
  simp [valueBytes]

theorem Measured.restore (h : table.Measured) (key value : Text) :
    (table.restore key value).state.Measured := by
  constructor
  · intro entry hm
    rw [settings_restore]
    rcases mem_entries_restore hm with hm | ⟨_,hk,_,rfl⟩
    · exact h.key_le entry hm
    · exact Settings.length_cut hk
  · intro entry hm
    rw [settings_restore]
    rcases mem_entries_restore hm with hm | ⟨_,_,hv,rfl⟩
    · exact h.value_le entry hm
    · exact Settings.length_cut hv
  · rcases restore_cases table key value with ⟨_,_,_,_,hs⟩ | ⟨_,hs⟩
    · rw [hs]
      exact total_put h.total_eq _
    · rw [hs]
      exact h.total_eq

theorem Measured.remove (h : table.Measured) (key : Text) :
    (table.remove key).state.Measured := by
  constructor
  · intro entry hm
    rw [settings_remove]
    exact h.key_le entry (mem_entries_remove hm)
  · intro entry hm
    rw [settings_remove]
    exact h.value_le entry (mem_entries_remove hm)
  · rcases remove_cases table key with ⟨others,he,_,hs⟩ | ⟨_,_,hs⟩
    · rw [hs]
      exact total_erase? h.total_eq he
    · rw [hs]
      exact h.total_eq

theorem Reachable.measured {settings : Settings} (h : Reachable settings table) :
    table.Measured := by
  induction h with
  | new => exact ⟨by simp,by simp,rfl⟩
  | step operation reachable ih =>
    refine operation.apply_induction ?_ ?_ ?_ ih
    · intro table key value h
      exact h.restore key value
    · intro table key h
      exact h.remove key
    · intro table h
      exact ⟨h.key_le,h.value_le,h.total_eq⟩

/-- However a table came about, its keys are distinct, keys and values keep
their limits, and the total is the number of bytes of all values, so that no
removal takes more from it than it holds. -/
theorem Reachable.consistent {settings : Settings} (reachable : Reachable settings table) :
    table.keys.Nodup ∧
      (∀ entry ∈ table.entries, entry.key.length ≤ settings.maxKeyLength ∧
        entry.value.length ≤ settings.maxValueLength) ∧
      table.totalValueSize = (table.entries.map fun entry => (Text.bytes entry.value).length).sum ∧
      ∀ key entry, table.entry? key = some entry →
        Text.size entry.value ≤ table.totalValueSize := by
  have measured := reachable.measured
  have hsettings := reachable.settings_eq
  refine ⟨reachable.keys_nodup,?_,?_,?_⟩
  · intro entry hm
    rw [← hsettings]
    exact ⟨measured.key_le entry hm,measured.value_le entry hm⟩
  · rw [measured.total_eq]
    simp only [valueBytes,Text.length_bytes]
  · intro key entry he
    rw [measured.total_eq,← valueBytes_eraseP he]
    exact Nat.le_add_right _ _

/-- Two keys that are cut to one, a value of wide characters that is cut, a
replay that stops at its second line, and a removal. -/
theorem consistent_after_failed_replay :
    let settings : Settings := { maxKeyLength := 2, maxValueLength := 3 }
    let first := ({ settings } : Table).restore ['a','b','c'] ['x']
    let second := first.state.restore ['a','b','d'] ['é','€','x','y']
    let third := second.state.replay "alias c = 'z'\nalias d\nalias e = 'w'".toList
    let fourth := third.state.remove ['c']
    Reachable settings fourth.state ∧ third.result = .error (.malformedListing "alias d".toList) ∧
      third.state.entries = [⟨['a','b'],['é','€','x']⟩,⟨['c'],['z']⟩] ∧
      fourth.state.totalValueSize = 6 ∧
      fourth.state.totalValueSize =
        (fourth.state.entries.map fun entry => (Text.bytes entry.value).length).sum := by
  intro settings first second third fourth
  have reachable : Reachable settings fourth.state :=
    .step (.remove ['c']) (.step (.replay "alias c = 'z'\nalias d\nalias e = 'w'".toList)
      (.step (.restore ['a','b','d'] ['é','€','x','y'])
        (.step (.restore ['a','b','c'] ['x']) .new)))
  exact ⟨reachable,rfl,by decide,by decide,reachable.consistent.2.2.1⟩

/-- A stored key is what the length policy leaves of a name that is not empty. -/
theorem Reachable.exists_name {settings : Settings} (h : Reachable settings table) {entry : Entry}
    (hm : entry ∈ table.entries) : ∃ name, name ≠ [] ∧ entry.key = settings.cut .key name := by
  rw [← h.settings_eq]
  induction h generalizing entry with
  | new => contradiction
  | step operation reachable ih =>
    revert entry
    refine operation.apply_induction (motive := fun table => ∀ {entry}, entry ∈ table.entries →
      ∃ name, name ≠ [] ∧ entry.key = table.settings.cut .key name) ?_ ?_ ?_ ih
    · intro table key value h entry hm
      rw [settings_restore]
      rcases mem_entries_restore hm with hm | ⟨hne,_,_,rfl⟩
      · exact h hm
      · exact ⟨key,hne,rfl⟩
    · intro table key h entry hm
      rw [settings_remove]
      exact h (mem_entries_remove hm)
    · intro table h entry hm
      exact h hm

theorem Reachable.key_eq_nil_iff {settings : Settings} (h : Reachable settings table)
    (hm : key ∈ table.keys) :
    key = [] ↔ settings.truncation = .truncate ∧ settings.maxKeyLength = 0 := by
  obtain ⟨entry,he,rfl⟩ := List.mem_map.mp hm
  obtain ⟨name,hne,hk⟩ := h.exists_name he
  rw [hk]
  exact Settings.cut_eq_nil_iff hne

/-- No alias is ever stored under the empty key unless keys are cut, and to nothing.
Under such settings every alias is stored under it, whatever its name. -/
theorem empty_key_stored_iff (settings : Settings) :
    ((∃ table, Reachable settings table ∧ [] ∈ table.keys) ↔
      settings.truncation = .truncate ∧ settings.maxKeyLength = 0) ∧
      ∀ table, Reachable settings table → ∀ key ∈ table.keys,
        (key = [] ↔ settings.truncation = .truncate ∧ settings.maxKeyLength = 0) := by
  refine ⟨⟨?_,?_⟩,fun table reachable key hm => reachable.key_eq_nil_iff hm⟩
  · rintro ⟨table,reachable,hm⟩
    exact (reachable.key_eq_nil_iff hm).mp rfl
  · intro hcut
    let table : Table := { settings }
    have hkey : table.settings.cut .key ['a'] = [] :=
      (Settings.cut_eq_nil_iff (List.cons_ne_nil _ _)).mpr hcut
    have admitted : table.settings.Admits .key ['a'] := by
      intro hreject
      rw [hcut.1] at hreject
      contradiction
    have fits : table.settings.Admits .value [] :=
      Settings.admits_of_length_le .value (Nat.zero_le _)
    obtain ⟨_,hstate⟩ := restore_of_admits (List.cons_ne_nil 'a' []) admitted fits
    refine ⟨(table.restore ['a'] []).state,.step (.restore ['a'] []) .new,?_⟩
    rw [hstate,keys,put_entries,List.map_append,Settings.stored,hkey]
    exact List.mem_append_right _ List.mem_cons_self

/-- The key that is refused where it is given is stored for another one, and the
listing then shows an alias that cannot be read back. -/
theorem empty_key_stored :
    let settings : Settings := { maxKeyLength := 0 }
    let first := ({ settings } : Table).restore ['a'] ['x']
    Reachable settings first.state ∧ first.result = .ok () ∧ [] ∈ first.state.keys ∧
      (first.state.restore [] ['x']).result = .error .emptyKey ∧
      (first.state.replay first.state.listing).result =
        .error (.malformedListing "alias  = 'x'".toList) := by
  intro settings first
  have reachable : Reachable settings first.state := .step (.restore ['a'] ['x']) .new
  exact ⟨reachable,rfl,by decide,rfl,by rfl⟩

end Table
end ShellAlias
