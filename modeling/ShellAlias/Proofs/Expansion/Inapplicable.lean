import ShellAlias.Proofs.Expansion.Edit
import ShellAlias.Table.Basic

namespace ShellAlias

/-- No occurrence of the key in the text, however it overlaps others, is kept back by a
backslash or may be replaced. -/
def Inapplicable (position : CommandPosition) (key text : Text) : Prop :=
  ∀ before after, text = before ++ key ++ after →
    Occurrence.classify key text (Text.size before) position = .invalid

variable {position : CommandPosition} {key text : Text} {entries : List Entry}

theorem inapplicable_iff : Inapplicable position key text ↔ ∀ n ≤ text.length,
    key <+: text.drop n →
      Occurrence.classify key text (Text.size (text.take n)) position = .invalid := by
  constructor
  · intro h n _ hprefix
    obtain ⟨after,hafter⟩ := hprefix
    exact h _ after (by rw [List.append_assoc,hafter,List.take_append_drop])
  · rintro h before after rfl
    have hplace := h before.length (by simp)
    rw [List.append_assoc,List.drop_left,List.take_left] at hplace
    rw [List.append_assoc]
    exact hplace (List.prefix_append key after)

instance : Decidable (Inapplicable position key text) := decidable_of_iff _ inapplicable_iff.symm

theorem Inapplicable.quiet (h : Inapplicable position key text) (escapes : Escapes) :
    Quiet position escapes key [] text := by
  rintro between after rfl
  exact Or.inl (h between after rfl)

/-- Keys that are not applicable are not escaped either. -/
theorem unescapeAll_of_inapplicable {keys : List Text}
    (h : ∀ key ∈ keys, key ≠ [] → Inapplicable position key text) :
    unescapeAll keys text = text := by
  rw [Pass.unescapeAll_eq_ofEntries position]
  refine (Pass.ofEntries_of_quiet fun entry hm hne => ?_).1
  obtain ⟨key,hkey,rfl⟩ := List.mem_map.mp hm
  exact (h key hkey hne).quiet .drop

namespace Expansion

theorem expand_singlePass_of_inapplicable
    (h : ∀ entry ∈ entries, entry.key ≠ [] → Inapplicable position entry.key text) :
    (expand position .singlePass entries text).text = text :=
  (Pass.ofEntries_of_quiet fun entry hm hne => (h entry hm hne).quiet .drop).1

/-- The first of the repeated passes finds nothing to do, and the unescaping neither. -/
theorem expand_fixedPoint_of_inapplicable
    (h : ∀ entry ∈ entries, entry.key ≠ [] → Inapplicable position entry.key text) (n : Nat) :
    (expand position (.fixedPoint n) entries text).text = text := by
  have hrun : (repeatPass (Pass.ofEntries position .keep entries) (max n 1) text).text = text :=
    repeatPass_of_quiet (by omega) fun entry hm hne => (h entry hm hne).quiet .keep
  change unescapeAll (entries.map Entry.key)
    (repeatPass (Pass.ofEntries position .keep entries) (max n 1) text).text = text
  rw [hrun]
  exact unescapeAll_of_inapplicable (List.forall_mem_map.mpr h)

end Expansion

/-- Text that no stored key applies to is left alone, in a single pass and in repeated
ones under any cap. -/
theorem Table.expand_of_inapplicable (table : Table) (position : CommandPosition) {input : Text}
    (h : ∀ key ∈ table.keys, key ≠ [] → Inapplicable position key input) (mode : ExpansionMode) :
    (({ table with settings.expansion := mode } : Table).expand position input).text = input := by
  have hentries : ∀ entry ∈ table.entries, entry.key ≠ [] →
      Inapplicable position entry.key input := List.forall_mem_map.mp h
  cases mode with
  | singlePass => exact Expansion.expand_singlePass_of_inapplicable hentries
  | fixedPoint n => exact Expansion.expand_fixedPoint_of_inapplicable hentries n

/-- Occurrences that overlap, one with a backslash of its own, and a backslash that stands
before no key. -/
theorem Table.expand_of_inapplicable_overlapping :
    let entries : List Entry := [⟨['a','a'],['x']⟩,⟨['\\','n'],['y']⟩,⟨[],['z']⟩,⟨['l'],['m']⟩]
    let table : Table := { settings := {}, entries }
    let repeated : Table := { table with settings.expansion := .fixedPoint 0 }
    let input := ['o',' ','a','a','a','\\','n','\\',' ','l']
    (∀ key ∈ table.keys, key ≠ [] → Inapplicable CommandPosition.shell key input) ∧
      (table.expand CommandPosition.shell input).text = input ∧
      (repeated.expand CommandPosition.shell input).text = input := by
  intro entries table repeated input
  have h : ∀ key ∈ table.keys, key ≠ [] → Inapplicable CommandPosition.shell key input := by
    decide +kernel
  exact ⟨h,table.expand_of_inapplicable _ h .singlePass,
    table.expand_of_inapplicable _ h (.fixedPoint 0)⟩

end ShellAlias
