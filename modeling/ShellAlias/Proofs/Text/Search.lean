import ShellAlias.Text.Basic

namespace ShellAlias
namespace Text

theorem cutFirst?_append {key rest : Text} (hk : key ≠ []) :
    cutFirst? key (key ++ rest) = some ([], rest) := by
  obtain ⟨k,ks,rfl⟩ := List.exists_cons_of_ne_nil hk
  have hs : stripStart? (k :: ks) (k :: (ks ++ rest)) = some rest :=
    stripStart?_eq_some_iff.mpr rfl
  simp [cutFirst?,hs]

/-- The occurrence that is found stands before any other. -/
theorem cutFirst?_leftmost {key text before after a b : Text}
    (h : cutFirst? key text = some (before, after)) (ht : text = a ++ key ++ b) :
    before.length ≤ a.length := by
  induction text generalizing before a with
  | nil => simp [cutFirst?] at h
  | cons c text ih =>
    rw [cutFirst?] at h
    split at h
    · split at h
      · contradiction
      · obtain ⟨rfl,rfl⟩ := Prod.mk.inj (Option.some.inj h)
        exact Nat.zero_le _
    · rename_i hs
      obtain ⟨⟨before',after'⟩,hc,he⟩ := Option.map_eq_some_iff.mp h
      obtain ⟨rfl,rfl⟩ := Prod.mk.inj he
      cases a with
      | nil =>
        have hstrip := stripStart?_eq_some_iff.mpr (by simpa using ht)
        rw [hs] at hstrip
        contradiction
      | cons d a =>
        have htail := (List.cons.inj ht).2
        exact Nat.succ_le_succ (ih hc htail)

theorem cutFirst?_isSome_of_occurs {key a b : Text} (hk : key ≠ []) :
    (cutFirst? key (a ++ key ++ b)).isSome = true := by
  induction a with
  | nil => simp [cutFirst?_append hk]
  | cons c a ih =>
    simp only [List.cons_append,cutFirst?]
    split
    · simp [hk]
    · simpa using ih

theorem cutFirst?_eq_none_iff {key text : Text} :
    cutFirst? key text = none ↔ key = [] ∨ ¬ key <:+: text := by
  constructor
  · intro h
    by_cases hk : key = []
    · exact Or.inl hk
    · right
      intro hoccurs
      obtain ⟨a,b,rfl⟩ := hoccurs
      have hs := cutFirst?_isSome_of_occurs (a := a) (b := b) hk
      rw [h] at hs
      contradiction
  · intro h
    match hc : cutFirst? key text with
    | none => rfl
    | some (before, after) =>
      obtain ⟨hk,ht⟩ := cutFirst?_eq_some hc
      rcases h with h | h
      · exact absurd h hk
      · exact absurd ⟨before,after,ht.symm⟩ h

/-- The first occurrence is the one that no other stands before. -/
theorem cutFirst?_eq_some_iff {key text before after : Text} :
    cutFirst? key text = some (before, after) ↔
      key ≠ [] ∧ text = before ++ key ++ after ∧
        ∀ a b, text = a ++ key ++ b → before.length ≤ a.length := by
  constructor
  · intro h
    obtain ⟨hk,ht⟩ := cutFirst?_eq_some h
    exact ⟨hk,ht,fun a b => cutFirst?_leftmost h⟩
  · intro h
    obtain ⟨hk,rfl,hfirst⟩ := h
    obtain ⟨⟨a,b⟩,hc⟩ := Option.isSome_iff_exists.mp
      (cutFirst?_isSome_of_occurs (a := before) (b := after) hk)
    obtain ⟨_,ht⟩ := cutFirst?_eq_some hc
    have hlen : before.length = a.length :=
      Nat.le_antisymm (hfirst a b ht) (cutFirst?_leftmost hc rfl)
    rw [List.append_assoc,List.append_assoc] at ht
    obtain ⟨rfl,hrest⟩ := List.append_inj ht hlen
    rw [hc,List.append_cancel_left hrest]

/-- An occurrence of a key stands behind a first character that the key lacks. -/
theorem exists_cons_of_not_mem {c : Char} {key text before after : Text} (hc : c ∉ key)
    (hk : key ≠ []) (h : c :: text = before ++ key ++ after) :
    ∃ front, before = c :: front ∧ text = front ++ key ++ after := by
  cases before with
  | nil =>
    obtain ⟨k,ks,rfl⟩ := List.exists_cons_of_ne_nil hk
    exact absurd (List.cons.inj h).1 (fun he => hc (he ▸ List.mem_cons_self))
  | cons d front =>
    obtain ⟨rfl,htext⟩ := List.cons.inj h
    exact ⟨front,rfl,htext⟩

/-- A text that is cut at a character is cut at the first one. -/
theorem not_mem_of_cutFirst? {c : Char} {text before after : Text}
    (h : cutFirst? [c] text = some (before, after)) : c ∉ before := by
  intro hm
  obtain ⟨a,b,rfl⟩ := List.append_of_mem hm
  obtain ⟨_,rfl⟩ := cutFirst?_eq_some h
  have hle := cutFirst?_leftmost h (a := a) (b := b ++ [c] ++ after) (by simp)
  rw [List.length_append,List.length_cons] at hle
  omega

theorem cutFirst?_of_not_mem {c : Char} {before : Text} (h : c ∉ before) (after : Text) :
    cutFirst? [c] (before ++ c :: after) = some (before, after) := by
  induction before with
  | nil => exact cutFirst?_append (List.cons_ne_nil c [])
  | cons d before ih =>
    rw [List.mem_cons,not_or] at h
    have hd : d ≠ c := fun he => h.1 he.symm
    have hstrip : stripStart? [c] (d :: (before ++ c :: after)) = none := by
      simp [stripStart?,hd]
    rw [List.cons_append,cutFirst?,hstrip,ih h.2]
    rfl

theorem not_mem_of_cutFirst?_eq_none {c : Char} {text : Text} (h : cutFirst? [c] text = none) :
    c ∉ text := by
  intro hm
  obtain ⟨a,b,rfl⟩ := List.append_of_mem hm
  rcases cutFirst?_eq_none_iff.mp h with h | h
  · exact List.cons_ne_nil _ _ h
  · exact h ⟨a,b,by simp⟩

theorem stripEnd?_eq_some_iff {c : Char} {text before : Text} :
    stripEnd? c text = some before ↔ text = before ++ [c] := by
  constructor
  · intro h
    rw [stripEnd?] at h
    split at h
    · rename_i hlast
      obtain ⟨front,rfl⟩ := List.getLast?_eq_some_iff.mp hlast
      simpa using h
    · contradiction
  · intro h
    subst h
    simp [stripEnd?]

theorem splitAtByte?_append (before after : Text) :
    splitAtByte? (size before) (before ++ after) = some (before, after) :=
  splitAtByte?_eq_some_iff.mpr ⟨rfl,rfl⟩

end Text
end ShellAlias
