import ShellAlias.Proofs.Expansion.PlainWord
import ShellAlias.Proofs.Table.History

namespace ShellAlias

namespace Table

variable {settings : Settings} {table : Table} {key raw : Text}

/-- A definition is found under its name as it was given. -/
theorem entry?_define {position : CommandPosition} (reachable : Reachable settings table)
    (defined : (table.define position key raw).result = .ok ()) :
    (table.define position key raw).state.entry? key =
      some (settings.stored key (table.expand position raw).text) := by
  have after : Reachable settings (table.define position key raw).state :=
    .step (.define position key raw) reachable
  refine (entry?_eq_some_iff after.keys_nodup).mpr ⟨?_,?_⟩
  · rw [entries_define reachable defined]
    exact List.mem_append_right _ List.mem_cons_self
  · rw [storedKey_eq_cut,after.settings_eq]
    rfl

/-- Right after its definition a word means the value that was stored for it, whatever
older aliases overlap the word or stand in the value. -/
theorem expand_defined_word (reachable : Reachable settings table)
    (single : settings.expansion = .singlePass) (plain : IsPlainWord key)
    (defined : (table.define CommandPosition.shell key raw).result = .ok ())
    (kept : settings.cut .key key ≠ []) :
    let after := (table.define CommandPosition.shell key raw).state
    let entry := settings.stored key (table.expand CommandPosition.shell raw).text
    after.entry? key = some entry ∧
      after.get? key = some (after.expand CommandPosition.shell entry.key).text := by
  intro after entry
  have reached : Reachable settings after := .step (.define _ key raw) reachable
  have hfound : after.entry? key = some entry := entry?_define reachable defined
  have hentries : after.entries =
      (table.entries.filter fun other => other.key ≠ entry.key) ++ [⟨entry.key,entry.value⟩] :=
    entries_define reachable defined
  have hword : IsPlainWord entry.key := plain.of_prefix (settings.cut_prefix .key key)
  have hothers : ∀ other ∈ table.entries.filter fun other => other.key ≠ entry.key,
      other.key ≠ entry.key := by
    intro other hm
    simpa using (List.mem_filter.mp hm).2
  have hexpanded : (after.expand CommandPosition.shell entry.key).text = entry.value := by
    rw [expand,reached.settings_eq,single,hentries]
    exact Pass.ofEntries_newest hword kept .drop hothers
  refine ⟨hfound,?_⟩
  rw [get?,hfound,hexpanded]
  rfl

/-- The name is cut and takes the place of an older alias, which its value is made with,
and other aliases stand in the name and in the value. -/
theorem expand_defined_word_cut :
    let settings : Settings := { maxKeyLength := 2 }
    let table := ({ settings } : Table).run
      [.restore ['l','s'] ['x',' ','l'],.restore ['l'] ['q'],.restore ['s'] ['r'],
        .restore ['x'] ['y']]
    let after := (table.define CommandPosition.shell ['l','s','d'] ['l','s',';','l']).state
    Reachable settings table ∧ IsPlainWord ['l','s','d'] ∧
      after.get? ['l','s','d'] = some ['y',' ','l',';','q'] ∧
      (after.expand CommandPosition.shell ['l','s']).text = ['y',' ','l',';','q'] := by
  intro settings table after
  have reachable : Reachable settings table := Reachable.new.run _
  have plain : IsPlainWord ['l','s','d'] := by decide
  have hvalue : after.get? ['l','s','d'] = some ['y',' ','l',';','q'] := by decide +kernel
  have defined : (table.define CommandPosition.shell ['l','s','d'] ['l','s',';','l']).result =
      .ok () := by decide +kernel
  obtain ⟨_,hget⟩ := expand_defined_word reachable rfl plain defined (by decide)
  exact ⟨reachable,plain,hvalue,(Option.some.inj (hvalue.symm.trans hget)).symm⟩

end Table
end ShellAlias
