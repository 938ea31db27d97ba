import ShellAlias.Proofs.Table.Reachable

namespace ShellAlias

/-- Why a key and a value are not stored. A later reason counts only where no
earlier one does. -/
inductive Refused (settings : Settings) (key value : Text) : AliasError → Prop where
  | emptyKey (empty : key = []) : Refused settings key value .emptyKey
  | longKey (nonempty : key ≠ []) (reject : settings.truncation = .reject)
      (long : settings.maxKeyLength < key.length) :
      Refused settings key value (.tooLong .key key.length settings.maxKeyLength)
  | longValue (nonempty : key ≠ []) (reject : settings.truncation = .reject)
      (short : key.length ≤ settings.maxKeyLength)
      (long : settings.maxValueLength < value.length) :
      Refused settings key value (.tooLong .value value.length settings.maxValueLength)

variable {settings : Settings} {key value : Text} {error : AliasError}

theorem Settings.not_admits_iff {part : Part} {text : Text} :
    ¬ settings.Admits part text ↔
      settings.truncation = .reject ∧ settings.limit part < text.length := by
  rw [Admits,Classical.not_imp,Nat.not_le]

/-- What is not stored is refused for a reason. -/
theorem admitted_or_refused (settings : Settings) (key value : Text) :
    (key ≠ [] ∧ settings.Admits .key key ∧ settings.Admits .value value) ∨
      ∃ error, Refused settings key value error := by
  by_cases hne : key = []
  · exact Or.inr ⟨_,.emptyKey hne⟩
  · by_cases hk : settings.Admits .key key
    · by_cases hv : settings.Admits .value value
      · exact Or.inl ⟨hne,hk,hv⟩
      · obtain ⟨hreject,hlong⟩ := Settings.not_admits_iff.mp hv
        exact Or.inr ⟨_,.longValue hne hreject (hk hreject) hlong⟩
    · obtain ⟨hreject,hlong⟩ := Settings.not_admits_iff.mp hk
      exact Or.inr ⟨_,.longKey hne hreject hlong⟩

theorem Refused.ne_notFound (h : Refused settings key value error) (name : Text) :
    error ≠ .notFound name := by
  cases h <;> simp

namespace Table

variable {table : Table}

/-- Puts an entry in place of the one of its key in two steps. A refusal of the
first, which takes the old entry out, would be passed on. -/
def exchange (table : Table) (entry : Entry) : Outcome Table Unit :=
  let cleared : Outcome Table Unit :=
    if table.contains entry.key then table.remove entry.key
    else { result := .ok (), state := table }
  match cleared.result with
  | .error error => { cleared with result := .error error }
  | .ok () => { cleared with state := { cleared.state with
      entries := cleared.state.entries ++ [entry]
      totalValueSize := cleared.state.totalValueSize + Text.size entry.value
      changed := true } }

/-- No refusal comes between the two steps. -/
theorem exchange_eq_put (table : Table) (entry : Entry) :
    table.exchange entry = { result := .ok (), state := table.put entry } := by
  rw [exchange,put,remove]
  cases he : table.erase? entry.key with
  | none =>
    have habsent : table.contains entry.key = false := by
      rw [contains,Option.map_eq_none_iff.mp he]
      rfl
    simp [habsent]
  | some others =>
    obtain ⟨found,hfound,_⟩ := erase?_eq_some he
    have hpresent : table.contains entry.key = true := by
      rw [contains,hfound]
      rfl
    simp [hpresent]

theorem restore_of_refused (h : Refused table.settings key value error) :
    (table.restore key value).result = .error error := by
  cases h with
  | emptyKey empty => simp [restore,empty]
  | longKey nonempty reject long =>
    have hlong : ¬ table.settings.Admits .key key := Settings.not_admits_iff.mpr ⟨reject,long⟩
    have hfit := fit_of_not_admits hlong
    simp [restore,nonempty,hfit,Settings.limit]
  | longValue nonempty reject short long =>
    obtain ⟨keyLog,hkey⟩ := fit_of_admits (Settings.admits_of_length_le .key short)
    have hlong : ¬ table.settings.Admits .value value := Settings.not_admits_iff.mpr ⟨reject,long⟩
    have hfit := fit_of_not_admits hlong
    simp [restore,nonempty,hkey,hfit,Settings.limit]

theorem restore_error_iff :
    (table.restore key value).result = .error error ↔ Refused table.settings key value error := by
  refine ⟨fun h => ?_,restore_of_refused⟩
  rcases admitted_or_refused table.settings key value with ⟨hne,hk,hv⟩ | ⟨other,hother⟩
  · rw [(restore_of_admits hne hk hv).1] at h
    contradiction
  · rw [restore_of_refused hother] at h
    exact Except.error.inj h ▸ hother

theorem remove_error_iff :
    (table.remove key).result = .error error ↔
      error = .notFound key ∧ ∀ entry ∈ table.entries, entry.key ≠ table.settings.cut .key key := by
  have habsent : (∀ entry ∈ table.entries, entry.key ≠ table.settings.cut .key key) ↔
      table.entry? key = none := by
    rw [entry?_eq_none_iff,storedKey_eq_cut,keys]
    simp
  rw [habsent]
  rcases remove_cases table key with ⟨others,he,hr,_⟩ | ⟨hnone,hr,_⟩
  · obtain ⟨found,hfound,_⟩ := erase?_eq_some he
    simp [hr,hfound]
  · simp [hr,hnone,eq_comm]

theorem state_of_restore_error (h : (table.restore key value).result = .error error) :
    (table.restore key value).state = table := by
  rcases restore_cases table key value with ⟨_,_,_,hr,_⟩ | ⟨_,hs⟩
  · rw [hr] at h
    contradiction
  · exact hs

theorem state_of_remove_error (h : (table.remove key).result = .error error) :
    (table.remove key).state = table := by
  rcases remove_cases table key with ⟨_,_,hr,_⟩ | ⟨_,_,hs⟩
  · rw [hr] at h
    contradiction
  · exact hs

/-- A key and a value are stored unless there is a reason against it, and the
first one is told. A removal fails just if its key is not stored, and tells the
key as it was given. What is there under the key goes out in a step that cannot
fail any more, and a failure leaves the whole table as it was. -/
theorem refusals_exact (table : Table) (position : CommandPosition) (key value : Text) :
    (∀ error, (table.restore key value).result = .error error ↔
      Refused table.settings key value error) ∧
    (∀ error, (table.define position key value).result = .error error ↔
      Refused table.settings key (table.expand position value).text error) ∧
    (∀ name, (table.restore key value).result ≠ .error (.notFound name) ∧
      (table.define position key value).result ≠ .error (.notFound name)) ∧
    ((table.restore key value).result = .ok () →
      table.exchange (table.settings.stored key value) =
        { result := .ok (), state := (table.restore key value).state }) ∧
    (∀ error, (table.remove key).result = .error error ↔
      error = .notFound key ∧ ∀ entry ∈ table.entries, entry.key ≠ table.settings.cut .key key) ∧
    (∀ error, (table.restore key value).result = .error error →
      (table.restore key value).state = table) ∧
    (∀ error, (table.define position key value).result = .error error →
      (table.define position key value).state = table) ∧
    (∀ error, (table.remove key).result = .error error → (table.remove key).state = table) := by
  have hdefine (error : AliasError) : (table.define position key value).result = .error error ↔
      Refused table.settings key (table.expand position value).text error := restore_error_iff
  refine ⟨fun _ => restore_error_iff,hdefine,fun name => ⟨?_,?_⟩,?_,fun _ => remove_error_iff,
    fun _ => state_of_restore_error,fun _ => state_of_restore_error,
    fun _ => state_of_remove_error⟩
  · intro h
    exact (restore_error_iff.mp h).ne_notFound name rfl
  · intro h
    exact ((hdefine _).mp h).ne_notFound name rfl
  · intro h
    rcases restore_cases table key value with ⟨_,_,_,_,hs⟩ | ⟨⟨error,hr⟩,_⟩
    · rw [exchange_eq_put,hs]
    · rw [hr] at h
      contradiction

/-- A value that is too long only when it is expanded, a new value that is too long
for a key that is there, a key that is too long as well, and a name that is not
cut. -/
theorem refusals_exact_overlong :
    let settings : Settings := { maxKeyLength := 2, maxValueLength := 3, truncation := .reject }
    let table := (({ settings } : Table).restore ['a'] ['b','c','d']).state
    let define := table.define CommandPosition.shell ['x'] ['a',';']
    Reachable settings table ∧
      define.result = .error (.tooLong .value 4 3) ∧ define.state = table ∧
      (table.restore ['a'] ['w','x','y','z']).result = .error (.tooLong .value 4 3) ∧
      (table.restore ['a'] ['w','x','y','z']).state = table ∧
      (table.restore ['a','b','c'] ['w','x','y','z']).result = .error (.tooLong .key 3 2) ∧
      (table.remove ['a','b','c']).result = .error (.notFound ['a','b','c']) ∧
      (table.remove ['a','b','c']).state = table := by
  intro settings table define
  have hexpanded : (table.expand CommandPosition.shell ['a',';']).text = ['b','c','d',';'] := by
    decide +kernel
  obtain ⟨_,hdefine,_,_,_,_,hkept,_⟩ :=
    refusals_exact table CommandPosition.shell ['x'] ['a',';']
  obtain ⟨hvalue,_,_,_,_,hsame,_,_⟩ :=
    refusals_exact table CommandPosition.shell ['a'] ['w','x','y','z']
  obtain ⟨hkey,_,_,_,hremove,_,_,hleft⟩ :=
    refusals_exact table CommandPosition.shell ['a','b','c'] ['w','x','y','z']
  rw [hexpanded] at hdefine
  have hlong := (hdefine _).mpr (.longValue (by decide) rfl (by decide) (by decide))
  have hover := (hvalue _).mpr (.longValue (by decide) rfl (by decide) (by decide))
  have hname := (hremove _).mpr ⟨rfl,by decide⟩
  exact ⟨.step (.restore ['a'] ['b','c','d']) .new,hlong,hkept _ hlong,hover,hsame _ hover,
    (hkey _).mpr (.longKey (by decide) rfl (by decide)),hname,hleft _ hname⟩

end Table
end ShellAlias
