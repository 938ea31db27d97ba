import Mathlib.Data.List.Basic
import ShellAlias.Proofs.Expansion.Edit

namespace ShellAlias

/-- The characters that directly follow a backslash, in order. -/
def escapedChars : Text → List Char
  | [] => []
  | c :: rest => (if c = '\\' then rest.head?.toList else []) ++ escapedChars rest

theorem escapedChars_cons (c : Char) (rest : Text) : escapedChars (c :: rest) =
    (if c = '\\' then rest.head?.toList else []) ++ escapedChars rest := rfl

theorem escapedChars_append (a b : Text) :
    escapedChars (a ++ b) =
      escapedChars a ++ (if a.getLast? = some '\\' then b.head?.toList else []) ++
        escapedChars b := by
  induction a with
  | nil => simp [escapedChars]
  | cons c a ih =>
    cases a with
    | nil => simp [escapedChars]
    | cons d a =>
      rw [List.getLast?_cons_cons,List.cons_append,escapedChars_cons,ih,escapedChars_cons c]
      simp only [List.cons_append,List.head?_cons,List.append_assoc]

theorem escapedChars_of_not_mem {text : Text} (h : '\\' ∉ text) : escapedChars text = [] := by
  induction text with
  | nil => rfl
  | cons c rest ih =>
    rw [List.mem_cons,not_or] at h
    simp [escapedChars,ih h.2,Ne.symm h.1]

/-- A replacement that starts behind no backslash and covers none leaves every
backslash with the character it precedes. -/
theorem escapedChars_sublist_replace {before key value after : Text}
    (hb : before.getLast? ≠ some '\\') (hk : '\\' ∉ key) (hne : key ≠ []) :
    (escapedChars (before ++ key ++ after)).Sublist
      (escapedChars (before ++ value ++ after)) := by
  have hkey : (before ++ key).getLast? ≠ some '\\' := by
    rw [List.getLast?_append_of_ne_nil _ hne]
    exact fun h => hk (List.mem_of_getLast? h)
  have hfrom : escapedChars (before ++ key ++ after) =
      escapedChars before ++ escapedChars after := by
    rw [escapedChars_append,if_neg hkey,escapedChars_append,if_neg hb,
      escapedChars_of_not_mem hk]
    simp
  rw [hfrom,escapedChars_append (before ++ value),escapedChars_append before]
  refine List.Sublist.append ?_ (List.Sublist.refl _)
  simp only [List.append_assoc]
  exact List.sublist_append_left _ _

/-- A backslash stays on one side of such a replacement together with the character it
precedes. -/
theorem unsplit_of_replace {before key after front back : Text} {c : Char}
    (hb : before.getLast? ≠ some '\\') (hk : '\\' ∉ key)
    (h : before ++ key ++ after = front ++ '\\' :: c :: back) :
    front ++ ['\\',c] <+: before ∨ '\\' :: c :: back <:+ after := by
  rw [List.append_assoc] at h
  rcases List.append_eq_append_iff.mp h with ⟨inner,rfl,hbehind⟩ | ⟨inner,rfl,hinside⟩
  · rcases List.append_eq_append_iff.mp hbehind with ⟨more,rfl,rfl⟩ | ⟨rest,rfl,hrest⟩
    · exact .inr (List.suffix_append _ _)
    · cases rest with
      | nil => exact .inr ⟨[],hrest⟩
      | cons d rest =>
        -- The backslash would be in the key.
        obtain rfl := (List.cons.inj hrest).1
        exact absurd (by simp) hk
  · cases inner with
    | nil =>
      cases key with
      | nil => exact .inr ⟨[],hinside⟩
      | cons d key =>
        obtain rfl := (List.cons.inj hinside).1
        exact absurd List.mem_cons_self hk
    | cons d inner =>
      obtain ⟨rfl,hnext⟩ := List.cons.inj hinside
      cases inner with
      | nil => exact absurd (by simp) hb
      | cons e inner =>
        obtain rfl := (List.cons.inj hnext).1
        exact .inl ⟨inner,by simp⟩

variable {position : CommandPosition} {entries : List Entry}

theorem Edit.escapedChars_sublist (hk : ∀ entry ∈ entries, '\\' ∉ entry.key) {a b : Text}
    (h : Edit position .keep entries a b) : (escapedChars a).Sublist (escapedChars b) := by
  obtain ⟨entry,before,after,hm,hne⟩ := h
  cases ho : (Visit.make position entry.key before after).occurrence with
  | escaped =>
    rw [Visit.leaves_escaped _ ho]
    exact List.Sublist.refl _
  | valid =>
    rw [Visit.leaves_valid _ ho]
    exact escapedChars_sublist_replace (Visit.valid_iff.mp ho).1 (hk entry hm) hne
  | invalid =>
    rw [Visit.leaves_invalid _ ho]
    exact List.Sublist.refl _

theorem escapedChars_sublist_of_edits (hk : ∀ entry ∈ entries, '\\' ∉ entry.key) {a b : Text}
    (h : Relation.ReflTransGen (Edit position .keep entries) a b) :
    (escapedChars a).Sublist (escapedChars b) := by
  induction h with
  | refl => exact List.Sublist.refl _
  | tail _ edit ih => exact ih.trans (edit.escapedChars_sublist hk)

end ShellAlias
