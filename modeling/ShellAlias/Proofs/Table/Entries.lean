import Mathlib.Data.List.Nodup
import ShellAlias.Proofs.Table.Limits

namespace ShellAlias

/-- Where keys are distinct, the first entry of a key is the only one. -/
theorem eraseP_eq_filter {entries : List Entry} (hn : (entries.map Entry.key).Nodup) (key : Text) :
    entries.eraseP (fun entry => entry.key = key) =
      entries.filter fun entry => entry.key ≠ key := by
  induction entries with
  | nil => rfl
  | cons entry entries ih =>
    rw [List.map_cons,List.nodup_cons] at hn
    by_cases hk : entry.key = key
    · have hrest : entries.filter (fun other => other.key ≠ key) = entries := by
        apply List.filter_eq_self.mpr
        intro other hm
        have hne : other.key ≠ key := by
          intro he
          exact hn.1 (List.mem_map.mpr ⟨other,hm,he.trans hk.symm⟩)
        simpa using hne
      simp only [List.eraseP_cons,List.filter_cons,hk,decide_true,cond_true,ne_eq,not_true_eq_false,
        decide_false,Bool.false_eq_true,↓reduceIte]
      exact hrest.symm
    · simp only [List.eraseP_cons,List.filter_cons,hk,decide_false,cond_false,ne_eq,
        not_false_eq_true,decide_true,↓reduceIte,List.cons.injEq,true_and]
      exact ih hn.2

namespace Table

variable {table others : Table} {key : Text} {entry : Entry}

theorem entry?_eq_none_iff : table.entry? key = none ↔ table.storedKey key ∉ table.keys := by
  unfold entry? keys
  simp

theorem contains_iff : table.contains key = true ↔ table.storedKey key ∈ table.keys := by
  rw [contains,Option.isSome_iff_ne_none,ne_eq,entry?_eq_none_iff,not_not]

theorem key_of_entry? (h : table.entry? key = some entry) : entry.key = table.storedKey key := by
  simpa using List.find?_some h

theorem entry?_eq_some_iff (hn : table.keys.Nodup) :
    table.entry? key = some entry ↔ entry ∈ table.entries ∧ entry.key = table.storedKey key := by
  constructor
  · intro h
    have hk := key_of_entry? h
    exact ⟨List.mem_of_find?_eq_some h,hk⟩
  · intro h
    obtain ⟨hm,hk⟩ := h
    cases he : table.entry? key with
    | none =>
      have hmem : entry.key ∈ table.keys := List.mem_map_of_mem hm
      exact absurd (hk ▸ hmem) (entry?_eq_none_iff.mp he)
    | some other =>
      have hother := key_of_entry? he
      exact congrArg some (List.inj_on_of_nodup_map hn (List.mem_of_find?_eq_some he) hm
        (hother.trans hk.symm))

/-- All that the removal of an entry does. -/
theorem erase?_eq_some (h : table.erase? key = some others) :
    ∃ entry, table.entry? key = some entry ∧ others = { table with
      entries := table.entries.eraseP fun other => other.key = table.storedKey key
      totalValueSize := table.totalValueSize - Text.size entry.value
      changed := true } := by
  obtain ⟨entry,he,rfl⟩ := Option.map_eq_some_iff.mp h
  have hk := key_of_entry? he
  exact ⟨entry,he,by simp only [hk]⟩

theorem entries_erase? (hn : table.keys.Nodup) (h : table.erase? key = some others) :
    others.entries = table.entries.filter fun other => other.key ≠ table.storedKey key := by
  obtain ⟨_,_,rfl⟩ := erase?_eq_some h
  exact eraseP_eq_filter hn _

theorem filter_of_absent (h : table.storedKey key ∉ table.keys) :
    (table.entries.filter fun other => other.key ≠ table.storedKey key) = table.entries := by
  apply List.filter_eq_self.mpr
  intro other hm
  have hne : other.key ≠ table.storedKey key := by
    intro hk
    exact h (hk ▸ List.mem_map_of_mem hm)
  simpa using hne

/-- All that a removal of a key can do. -/
theorem remove_cases (table : Table) (key : Text) :
    (∃ others, table.erase? key = some others ∧
      (table.remove key).result = .ok () ∧ (table.remove key).state = others) ∨
      table.entry? key = none ∧ (table.remove key).result = .error (.notFound key) ∧
        (table.remove key).state = table := by
  cases he : table.erase? key with
  | some others => exact Or.inl ⟨others,rfl,by rw [remove,he],by rw [remove,he]⟩
  | none =>
    exact Or.inr ⟨Option.map_eq_none_iff.mp he,by rw [remove,he],by rw [remove,he]⟩

theorem put_entries (table : Table) (entry : Entry) :
    (table.put entry).entries =
      ((table.erase? entry.key).getD table).entries ++ [entry] := rfl

theorem entries_put (hn : table.keys.Nodup) (entry : Entry) :
    (table.put entry).entries =
      (table.entries.filter fun other => other.key ≠ table.storedKey entry.key) ++ [entry] := by
  rw [put_entries]
  congr 1
  cases he : table.erase? entry.key with
  | some others => exact entries_erase? hn he
  | none =>
    exact (filter_of_absent (entry?_eq_none_iff.mp (Option.map_eq_none_iff.mp he))).symm

theorem storedKey_stored (table : Table) (key value : Text) :
    table.storedKey (table.settings.stored key value).key = table.settings.cut .key key :=
  Settings.cut_cut table.settings .key key

theorem keys_nodup_restore (hn : table.keys.Nodup) (key value : Text) :
    (table.restore key value).state.keys.Nodup := by
  rcases restore_cases table key value with ⟨_,_,_,_,hs⟩ | ⟨_,hs⟩
  · rw [hs,keys,entries_put hn,storedKey_stored,List.map_append]
    refine List.nodup_append.mpr ⟨hn.sublist (List.filter_sublist.map _),by simp,?_⟩
    intro k hk stored hstored
    obtain ⟨other,hm,rfl⟩ := List.mem_map.mp hk
    obtain rfl := List.mem_singleton.mp hstored
    have hne : other.key ≠ table.settings.cut .key key := by
      simpa using (List.mem_filter.mp hm).2
    exact hne
  · rw [hs]
    exact hn

theorem keys_nodup_remove (hn : table.keys.Nodup) (key : Text) :
    (table.remove key).state.keys.Nodup := by
  rcases remove_cases table key with ⟨others,he,_,hs⟩ | ⟨_,_,hs⟩
  · obtain ⟨_,_,rfl⟩ := erase?_eq_some he
    rw [hs]
    exact hn.sublist (List.eraseP_sublist.map _)
  · rw [hs]
    exact hn

theorem remove_ok_iff : (table.remove key).result = .ok () ↔ table.contains key = true := by
  rw [remove,erase?,contains]
  cases table.entry? key <;> simp

theorem put_settings (table : Table) (entry : Entry) :
    (table.put entry).settings = table.settings := by
  change ((table.erase? entry.key).getD table).settings = table.settings
  cases h : table.erase? entry.key with
  | none => rfl
  | some others =>
    obtain ⟨_,_,rfl⟩ := erase?_eq_some h
    rfl

theorem settings_restore (table : Table) (key value : Text) :
    (table.restore key value).state.settings = table.settings := by
  rcases restore_cases table key value with ⟨_,_,_,_,hs⟩ | ⟨_,hs⟩
  · rw [hs,put_settings]
  · rw [hs]

theorem settings_remove (table : Table) (key : Text) :
    (table.remove key).state.settings = table.settings := by
  rcases remove_cases table key with ⟨others,he,_,hs⟩ | ⟨_,_,hs⟩
  · obtain ⟨_,_,rfl⟩ := erase?_eq_some he
    rw [hs]
  · rw [hs]

theorem entries_snapshot (table : Table) (onlyIfChanged : Bool) :
    (table.snapshot onlyIfChanged).2.entries = table.entries := by
  rw [snapshot]
  split <;> rfl

theorem mem_entries_erase? (h : table.erase? key = some others) (hm : entry ∈ others.entries) :
    entry ∈ table.entries := by
  obtain ⟨_,_,rfl⟩ := erase?_eq_some h
  exact List.mem_of_mem_eraseP hm

theorem mem_entries_put {new : Entry} (hm : entry ∈ (table.put new).entries) :
    entry ∈ table.entries ∨ entry = new := by
  rw [put_entries] at hm
  rcases List.mem_append.mp hm with hm | hm
  · left
    cases he : table.erase? new.key with
    | none => simpa [he] using hm
    | some others => exact mem_entries_erase? he (by simpa [he] using hm)
  · exact Or.inr (List.mem_singleton.mp hm)

theorem mem_entries_remove (hm : entry ∈ (table.remove key).state.entries) :
    entry ∈ table.entries := by
  rcases remove_cases table key with ⟨others,he,_,hs⟩ | ⟨_,_,hs⟩
  · rw [hs] at hm
    exact mem_entries_erase? he hm
  · rw [hs] at hm
    exact hm

/-- An entry that is there after a restore was there before or was stored by it. -/
theorem mem_entries_restore {value : Text} (hm : entry ∈ (table.restore key value).state.entries) :
    entry ∈ table.entries ∨ key ≠ [] ∧ table.settings.Admits .key key ∧
      table.settings.Admits .value value ∧ entry = table.settings.stored key value := by
  rcases restore_cases table key value with ⟨hne,hk,hv,_,hs⟩ | ⟨_,hs⟩
  · rw [hs] at hm
    rcases mem_entries_put hm with hm | he
    · exact Or.inl hm
    · exact Or.inr ⟨hne,hk,hv,he⟩
  · rw [hs] at hm
    exact Or.inl hm

end Table
end ShellAlias
