import ShellAlias.Proofs.Expansion.UnusedValue
import ShellAlias.Proofs.Table.History

namespace ShellAlias

/-- What is not under a key is the same. -/
theorem filter_key_ne_eq {key : Text} {entries others : List Entry}
    (agree : List.Forall₂ (Entry.AgreesBut key) entries others) :
    (others.filter fun entry => entry.key ≠ key) = entries.filter fun entry => entry.key ≠ key := by
  induction agree with
  | nil => rfl
  | @cons entry other _ _ first _ ih =>
    obtain ⟨hkey,hvalue⟩ := first
    rw [List.filter_cons,List.filter_cons,ih]
    by_cases hk : entry.key = key
    · have hother : other.key = key := hkey.symm.trans hk
      simp [hk,hother]
    · have hsame : other = entry := by
        cases entry
        cases other
        simp_all
      rw [hsame]

namespace Table

variable {settings : Settings} {first second : Table}

/-- A redefinition leaves nothing of what was stored under the key but what the expansion
of the raw value has made of it. Two tables that differ in the key's old value alone are
left with the same entries just if the raw value means the same under both, up to the
limit, and so whenever its expansion replaces no occurrence of the key. -/
theorem redefinition_same_iff (reachableFirst : Reachable settings first)
    (reachableSecond : Reachable settings second) (position : CommandPosition) (key raw : Text)
    (agree : List.Forall₂ (Entry.AgreesBut (settings.cut .key key)) first.entries second.entries)
    (definedFirst : (first.define position key raw).result = .ok ())
    (definedSecond : (second.define position key raw).result = .ok ()) :
    let others := first.entries.filter fun entry => entry.key ≠ settings.cut .key key
    let meaning := fun table : Table => settings.cut .value (table.expand position raw).text
    let after := fun table : Table => (table.define position key raw).state.entries
    after first = others ++ [⟨settings.cut .key key,meaning first⟩] ∧
      after second = others ++ [⟨settings.cut .key key,meaning second⟩] ∧
      (after first = after second ↔ meaning first = meaning second) ∧
      (¬ (first.expand position raw).Replaces (settings.cut .key key) →
        after first = after second) := by
  intro others meaning after
  have hfirst : after first = others ++ [⟨settings.cut .key key,meaning first⟩] :=
    entries_define reachableFirst definedFirst
  have hothers : (second.entries.filter fun entry => entry.key ≠ settings.cut .key key) = others :=
    filter_key_ne_eq agree
  have hsecond : after second = others ++ [⟨settings.cut .key key,meaning second⟩] := by
    rw [← hothers]
    exact entries_define reachableSecond definedSecond
  have hiff : after first = after second ↔ meaning first = meaning second := by
    rw [hfirst,hsecond]
    simp
  refine ⟨hfirst,hsecond,hiff,fun hunused => hiff.mpr ?_⟩
  have hexpand : second.expand position raw = first.expand position raw := by
    have hsettings : second.settings = first.settings :=
      reachableSecond.settings_eq.trans reachableFirst.settings_eq.symm
    rw [expand,expand,hsettings]
    exact Expansion.expand_congr_value agree hunused
  simp only [meaning,hexpand]

/-- A name that is an argument and then kept back by a backslash. -/
theorem redefinition_same_iff_unused :
    let first := ({ settings := {} } : Table).run [.restore ['a'] ['x'],.restore ['b'] ['y']]
    let second := ({ settings := {} } : Table).run [.restore ['a'] ['z'],.restore ['b'] ['y']]
    let after := fun table : Table =>
      (table.define CommandPosition.shell ['a'] ['b',' ','a',' ','\\','a']).state.entries
    after first = [⟨['b'],['y']⟩,⟨['a'],['y',' ','a',' ','a']⟩] ∧ after second = after first := by
  intro first second after
  let raw : Text := ['b',' ','a',' ','\\','a']
  have reachableFirst : Reachable {} first := Reachable.new.run _
  have reachableSecond : Reachable {} second := Reachable.new.run _
  have agree : List.Forall₂ (Entry.AgreesBut ['a']) first.entries second.entries :=
    .cons ⟨rfl,by decide⟩ (.cons ⟨rfl,by decide⟩ .nil)
  have hunused : ¬ (first.expand CommandPosition.shell raw).Replaces ['a'] := by decide +kernel
  obtain ⟨_,_,_,hsame⟩ := redefinition_same_iff reachableFirst reachableSecond
    CommandPosition.shell ['a'] raw agree (by decide +kernel) (by decide +kernel)
  exact ⟨by decide +kernel,(hsame hunused).symm⟩

/-- A name that is defined as a command of its own name takes its old value in. -/
theorem redefinition_differs :
    let first := ({ settings := {} } : Table).run [.restore ['a'] ['x']]
    let second := ({ settings := {} } : Table).run [.restore ['a'] ['a']]
    let redefine := fun table : Table => table.define CommandPosition.shell ['a'] ['a',' ','b']
    Reachable {} first ∧ Reachable {} second ∧
      List.Forall₂ (Entry.AgreesBut ['a']) first.entries second.entries ∧
      (redefine first).result = .ok () ∧ (redefine second).result = .ok () ∧
      (redefine first).state.entries = [⟨['a'],['x',' ','b']⟩] ∧
      (redefine second).state.entries = [⟨['a'],['a',' ','b']⟩] ∧
      (redefine first).state.entries ≠ (redefine second).state.entries :=
  ⟨Reachable.new.run _,Reachable.new.run _,.cons ⟨rfl,by decide⟩ .nil,by decide +kernel,
    by decide +kernel,by decide +kernel,by decide +kernel,by decide +kernel⟩

end Table
end ShellAlias
