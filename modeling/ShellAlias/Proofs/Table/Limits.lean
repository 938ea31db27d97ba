import ShellAlias.Table.Listing

namespace ShellAlias

namespace Settings

variable {settings : Settings} {part : Part} {text : Text}

/-- What is kept of a text that is stored. The reject policy keeps it whole or
not at all. -/
def cut (settings : Settings) (part : Part) (text : Text) : Text :=
  match settings.truncation with
  | .truncate => text.take (settings.limit part)
  | .reject => text

def Admits (settings : Settings) (part : Part) (text : Text) : Prop :=
  settings.truncation = .reject → text.length ≤ settings.limit part

def stored (settings : Settings) (key value : Text) : Entry :=
  ⟨settings.cut .key key,settings.cut .value value⟩

theorem cut_prefix (settings : Settings) (part : Part) (text : Text) :
    settings.cut part text <+: text := by
  rw [cut]
  split
  · exact List.take_prefix _ _
  · exact List.prefix_refl _

theorem cut_of_length_le (part : Part) (h : text.length ≤ settings.limit part) :
    settings.cut part text = text := by
  rw [cut]
  split
  · exact List.take_of_length_le h
  · rfl

theorem admits_of_length_le (part : Part) (h : text.length ≤ settings.limit part) :
    settings.Admits part text := fun _ => h

theorem length_cut (h : settings.Admits part text) :
    (settings.cut part text).length ≤ settings.limit part := by
  rw [cut]
  cases ht : settings.truncation with
  | truncate => exact List.length_take_le _ _
  | reject => exact h ht

theorem cut_cut (settings : Settings) (part : Part) (text : Text) :
    settings.cut part (settings.cut part text) = settings.cut part text := by
  simp only [cut]
  split
  · simp [List.take_take]
  · rfl

theorem cut_ne_nil (hl : 0 < settings.limit part) (ht : text ≠ []) :
    settings.cut part text ≠ [] := by
  rw [cut]
  split
  · intro h
    rcases List.take_eq_nil_iff.mp h with h | h
    · omega
    · exact ht h
  · exact ht

/-- A text is cut to nothing only by a limit of nothing. -/
theorem cut_eq_nil_iff (ht : text ≠ []) :
    settings.cut part text = [] ↔ settings.truncation = .truncate ∧ settings.limit part = 0 := by
  unfold cut
  cases settings.truncation with
  | truncate => simp [ht]
  | reject => simp [ht]

end Settings

namespace Table

theorem storedKey_eq_cut (table : Table) (key : Text) :
    table.storedKey key = table.settings.cut .key key := rfl

theorem fit_of_admits {table : Table} {part : Part} {text : Text}
    (h : table.settings.Admits part text) :
    ∃ log, table.fit part text = .ok (table.settings.cut part text, log) := by
  rw [fit]
  by_cases hl : text.length ≤ table.settings.limit part
  · exact ⟨[],by simp only [hl,↓reduceIte,Settings.cut_of_length_le part hl]⟩
  · cases ht : table.settings.truncation with
    | truncate => simp [hl,Settings.cut,ht]
    | reject => exact absurd (h ht) hl

theorem fit_of_not_admits {table : Table} {part : Part} {text : Text}
    (h : ¬ table.settings.Admits part text) :
    table.fit part text =
      .error (.tooLong part text.length (table.settings.limit part)) := by
  obtain ⟨ht,hl⟩ := Classical.not_imp.mp h
  simp [fit,hl,ht]

/-- A restore that the limits let through stores one entry under the cut key. -/
theorem restore_of_admits {table : Table} {key value : Text} (hne : key ≠ [])
    (hk : table.settings.Admits .key key) (hv : table.settings.Admits .value value) :
    (table.restore key value).result = .ok () ∧
      (table.restore key value).state = table.put (table.settings.stored key value) := by
  obtain ⟨keyLog,hkey⟩ := fit_of_admits hk
  obtain ⟨valueLog,hvalue⟩ := fit_of_admits hv
  simp [restore,hne,hkey,hvalue,Settings.stored]

/-- All that a restore can do. -/
theorem restore_cases (table : Table) (key value : Text) :
    (key ≠ [] ∧ table.settings.Admits .key key ∧ table.settings.Admits .value value ∧
      (table.restore key value).result = .ok () ∧
      (table.restore key value).state = table.put (table.settings.stored key value)) ∨
      (∃ error, (table.restore key value).result = .error error) ∧
        (table.restore key value).state = table := by
  by_cases hne : key = []
  · exact Or.inr (by simp [restore,hne])
  · by_cases hk : table.settings.Admits .key key
    · by_cases hv : table.settings.Admits .value value
      · exact Or.inl ⟨hne,hk,hv,restore_of_admits hne hk hv⟩
      · obtain ⟨keyLog,hkey⟩ := fit_of_admits hk
        exact Or.inr (by simp [restore,hne,hkey,fit_of_not_admits hv])
    · exact Or.inr (by simp [restore,hne,fit_of_not_admits hk])

end Table
end ShellAlias
