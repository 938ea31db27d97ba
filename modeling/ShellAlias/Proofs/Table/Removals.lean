import Mathlib.Data.List.Induction
import ShellAlias.Proofs.Table.Reachable

namespace ShellAlias.Table

/-- No alias is left under a name when the names before it were removed: there was
none at the start, or one of those names is stored as the same key. -/
def IsGone (table : Table) (earlier : List Text) (name : Text) : Prop :=
  table.storedKey name ∉ table.keys ∨ table.storedKey name ∈ earlier.map table.storedKey

instance (table : Table) (earlier : List Text) (name : Text) :
    Decidable (table.IsGone earlier name) :=
  inferInstanceAs (Decidable (_ ∨ _))

def notFound (table : Table) (names : List Text) : List Text :=
  (names.zipIdx.filter fun one => table.IsGone (names.take one.2) one.1).map Prod.fst

variable {table : Table}

theorem notFound_concat (names : List Text) (name : Text) :
    table.notFound (names ++ [name]) =
      table.notFound names ++ if table.IsGone names name then [name] else [] := by
  have hearlier : ∀ one ∈ names.zipIdx, (names ++ [name]).take one.2 = names.take one.2 := by
    intro one hm
    exact List.take_append_of_le_length (Nat.le_of_lt (List.snd_lt_of_mem_zipIdx hm))
  have hfront : names.zipIdx.filter
      (fun one => table.IsGone ((names ++ [name]).take one.2) one.1) =
      names.zipIdx.filter fun one => table.IsGone (names.take one.2) one.1 := by
    refine List.filter_congr fun one hm => ?_
    rw [hearlier one hm]
  rw [notFound,List.zipIdx_append,List.filter_append,List.map_append,hfront]
  by_cases hgone : table.IsGone names name
  · simp [notFound,hgone]
  · simp [notFound,hgone]

theorem run_concat (operations : List Operation) (operation : Operation) :
    table.run (operations ++ [operation]) = operation.apply (table.run operations) := by
  simp [run]

def without (table : Table) (names : List Text) : Table := table.run (names.map Operation.remove)

theorem without_concat (names : List Text) (name : Text) :
    table.without (names ++ [name]) = ((table.without names).remove name).state := by
  rw [without,List.map_append]
  exact run_concat _ _

theorem settings_without (names : List Text) :
    (table.without names).settings = table.settings := by
  induction names using List.reverseRecOn with
  | nil => rfl
  | append_singleton names name ih => rw [without_concat,settings_remove,ih]

theorem storedKey_without (names : List Text) (key : Text) :
    (table.without names).storedKey key = table.storedKey key := by
  rw [storedKey_eq_cut,settings_without,storedKey_eq_cut]

theorem entries_remove_eq_filter (hn : table.keys.Nodup) (key : Text) :
    (table.remove key).state.entries =
      table.entries.filter fun entry => entry.key ≠ table.storedKey key := by
  rcases remove_cases table key with ⟨others,he,_,hs⟩ | ⟨hnone,_,hs⟩
  · rw [hs]
    exact entries_erase? hn he
  · rw [hs]
    exact (filter_of_absent (entry?_eq_none_iff.mp hnone)).symm

theorem entries_without (hn : table.keys.Nodup) (names : List Text) :
    (table.without names).entries =
      table.entries.filter fun entry => entry.key ∉ names.map table.storedKey := by
  induction names using List.reverseRecOn with
  | nil => simp [without,run]
  | append_singleton names name ih =>
    have hkeys : (table.without names).keys.Nodup := by
      rw [keys,ih]
      exact hn.sublist (List.filter_sublist.map _)
    rw [without_concat,entries_remove_eq_filter hkeys,storedKey_without,ih,List.filter_filter]
    refine List.filter_congr fun entry _ => ?_
    simp [and_comm]

theorem mem_keys_without_iff (hn : table.keys.Nodup) (names : List Text) (name : Text) :
    table.storedKey name ∈ (table.without names).keys ↔ ¬ table.IsGone names name := by
  rw [keys,entries_without hn,IsGone,keys,not_or,not_not]
  constructor
  · intro h
    obtain ⟨entry,hm,hk⟩ := List.mem_map.mp h
    obtain ⟨hm,hkept⟩ := List.mem_filter.mp hm
    rw [← hk]
    exact ⟨List.mem_map_of_mem hm,by simpa using hkept⟩
  · rintro ⟨h,hkept⟩
    obtain ⟨entry,hm,hk⟩ := List.mem_map.mp h
    rw [← hk] at hkept ⊢
    exact List.mem_map_of_mem (List.mem_filter.mpr ⟨hm,by simpa using hkept⟩)

theorem result_remove_without (hn : table.keys.Nodup) (names : List Text) (name : Text) :
    ((table.without names).remove name).result =
      if table.IsGone names name then .error (.notFound name) else .ok () := by
  have hkey := mem_keys_without_iff hn names name
  rw [← storedKey_without names] at hkey
  split
  · rename_i hgone
    have hnone := entry?_eq_none_iff.mpr fun hm => hkey.mp hm hgone
    rw [remove,erase?,hnone]
    rfl
  · rename_i hkept
    exact remove_ok_iff.mpr (contains_iff.mpr (hkey.mpr hkept))

end ShellAlias.Table
