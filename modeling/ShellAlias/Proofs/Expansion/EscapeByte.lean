import ShellAlias.Proofs.Expansion.Rounds
import ShellAlias.Text.Decoding

namespace ShellAlias

namespace Text

/-- Takes away the character that starts at a byte index. None if the index lies inside
a character, at the end of the text or past it. -/
def removeAt? (index : Nat) (text : Text) : Option (Char × Text) :=
  match splitAtByte? index text with
  | some (before, c :: after) => some (c, before ++ after)
  | _ => none

theorem removeAt?_append (before : Text) (c : Char) (after : Text) :
    removeAt? (size before) (before ++ c :: after) = some (c, before ++ after) := by
  rw [removeAt?,splitAtByte?_append]

/-- A removal fails just where no character starts. -/
theorem isSome_removeAt?_iff {index : Nat} {text : Text} :
    (removeAt? index text).isSome = true ↔ IsBoundary text index ∧ index < size text := by
  constructor
  · intro h
    rw [removeAt?] at h
    split at h
    · rename_i before c after hs
      obtain ⟨rfl,rfl⟩ := splitAtByte?_eq_some_iff.mp hs
      have hpos := size_pos (List.cons_ne_nil c after)
      refine ⟨isBoundary_size _ _,?_⟩
      rw [size_append]
      omega
    · contradiction
  · rintro ⟨⟨before,rest,rfl,rfl⟩,hlt⟩
    cases rest with
    | nil => simp at hlt
    | cons c after =>
      rw [removeAt?_append]
      rfl

/-- The byte of a backslash stands only where the character does. -/
theorem getElem?_bytes_eq_backslash_iff {text : Text} {index : Nat} :
    (bytes text)[index]? = some Occurrence.backslash ↔
      ∃ before after, text = before ++ '\\' :: after ∧ size before = index := by
  have hstands : (bytes text)[index]? = some Occurrence.backslash ↔
      StandsAt ['\\'] text index := by
    rw [← List.head?_drop]
    exact List.singleton_prefix_iff_head?_eq_some.symm
  rw [hstands]
  constructor
  · intro h
    obtain ⟨before,after,rfl,hsize⟩ := exists_of_standsAt (List.cons_ne_nil _ _) h
    exact ⟨before,after,by simp,hsize⟩
  · intro h
    obtain ⟨before,after,rfl,rfl⟩ := h
    have hplace := standsAt_size before ['\\'] after
    rwa [List.append_assoc] at hplace

theorem bytes_injective {a b : Text} (h : bytes a = bytes b) : a = b := by
  have hdecoded := ofBytes?_bytes a
  rw [h,ofBytes?_bytes] at hdecoded
  exact (Option.some.inj hdecoded).symm

/-- A backslash is a single byte, so the text without it is the bytes without that one. -/
theorem bytes_without_backslash (before after : Text) :
    bytes (before ++ after) = (bytes (before ++ '\\' :: after)).eraseIdx (size before) := by
  rw [bytes_append,bytes_append,← length_bytes,
    List.eraseIdx_append_of_length_le (Nat.le_refl _),Nat.sub_self]
  rfl

theorem standsAt_behind_backslash_iff (before after key : Text) :
    StandsAt key (before ++ '\\' :: after) (size before + 1) ↔
      StandsAt key (before ++ after) (size before) := by
  have hbehind : StandsAt key ('\\' :: after) 1 ↔ StandsAt key after 0 :=
    standsAt_append ['\\'] after key 0
  rw [standsAt_append,hbehind]
  exact (standsAt_append before after key 0).symm

end Text

namespace Occurrence

/-- Looks at the byte before an index and, if it is a backslash, takes away the character
that starts there: the index that is left for the text behind it, if any, and the buffer
afterwards. None if no character starts at that byte. -/
def unescapeInPlace? (buffer : Text) : (index : Nat) → Option (Option Nat × Text)
  | 0 => some (none, buffer)
  | escape + 1 =>
    if (Text.bytes buffer)[escape]? = some backslash then
      (Text.removeAt? escape buffer).map fun (_, left) => (some escape, left)
    else some (none, buffer)

/-- Of the bytes of a buffer only the backslash before an index is taken away. They are
still those of a text, and what stood at the index stands where the backslash was. -/
structure Unescapes (buffer : Text) (index escape : Nat) (left : Text) : Prop where
  next : index = escape + 1
  backslash : (Text.bytes buffer)[escape]? = some Occurrence.backslash
  removed : Text.bytes left = (Text.bytes buffer).eraseIdx escape
  valid : Text.ofBytes? ((Text.bytes buffer).eraseIdx escape) = some left
  boundary : Text.IsBoundary left escape
  moved : ∀ key, Text.StandsAt key buffer index ↔ Text.StandsAt key left escape

theorem isEscaped_succ_iff {context : Text} {escape : Nat} :
    isEscaped context (escape + 1) = true ↔
      (Text.bytes context)[escape]? = some backslash := by
  simp [isEscaped]

theorem classify_eq_escaped_iff {position : CommandPosition} {key context : Text} {index : Nat} :
    classify key context index position = .escaped ↔ isEscaped context index = true := by
  by_cases he : isEscaped context index = true
  · simp [classify,judge_eq,he]
  · simp only [classify,judge_eq,he]
    by_cases hs : isSentinelKey key = true <;> by_cases hp : position key context index = true <;>
      simp [hs,hp]

theorem unescapeAt?_behind_backslash (before after : Text) :
    unescapeAt? (before ++ '\\' :: after) (Text.size before + 1) =
      some (Text.size before, before ++ after) := by
  simp only [unescapeAt?,Text.splitAtByte?_append]

theorem unescapes_append (before after : Text) :
    Unescapes (before ++ '\\' :: after) (Text.size before + 1) (Text.size before)
      (before ++ after) where
  next := rfl
  backslash := Text.getElem?_bytes_eq_backslash_iff.mpr ⟨before,after,rfl,rfl⟩
  removed := Text.bytes_without_backslash before after
  valid := by rw [← Text.bytes_without_backslash,Text.ofBytes?_bytes]
  boundary := Text.isBoundary_size before after
  moved := Text.standsAt_behind_backslash_iff before after

theorem unescapeAt?_eq_some_iff_unescapes {buffer left : Text} {index escape : Nat} :
    unescapeAt? buffer index = some (escape, left) ↔ Unescapes buffer index escape left := by
  constructor
  · intro h
    obtain ⟨before,after,rfl,rfl,rfl,rfl⟩ := unescapeAt?_eq_some h
    exact unescapes_append before after
  · intro h
    obtain ⟨before,after,rfl,rfl⟩ := Text.getElem?_bytes_eq_backslash_iff.mp h.backslash
    have hleft : Text.bytes left = Text.bytes (before ++ after) :=
      h.removed.trans (Text.bytes_without_backslash before after).symm
    rw [h.next,unescapeAt?_behind_backslash,Text.bytes_injective hleft]

theorem isSome_unescapeAt?_iff {buffer : Text} {index : Nat} :
    (unescapeAt? buffer index).isSome = true ↔ isEscaped buffer index = true := by
  cases index with
  | zero => simp [unescapeAt?,isEscaped]
  | succ escape =>
    rw [isEscaped_succ_iff]
    constructor
    · intro h
      obtain ⟨⟨other,left⟩,hu⟩ := Option.isSome_iff_exists.mp h
      have hunescapes := unescapeAt?_eq_some_iff_unescapes.mp hu
      obtain rfl := Nat.succ.inj hunescapes.next
      exact hunescapes.backslash
    · intro h
      obtain ⟨before,after,rfl,rfl⟩ := Text.getElem?_bytes_eq_backslash_iff.mp h
      rw [unescapeAt?_behind_backslash]
      rfl

/-- The byte that is found to be a backslash always starts a character, so the removal
in place is one that can be made. -/
theorem unescapeInPlace?_eq (buffer : Text) (index : Nat) :
    unescapeInPlace? buffer index =
      match unescapeAt? buffer index with
      | some (escape, left) => some (some escape, left)
      | none => some (none, buffer) := by
  cases index with
  | zero => rfl
  | succ escape =>
    rw [unescapeInPlace?]
    split
    · rename_i hbyte
      -- The byte is a character of its own, so the place to remove at lies between two.
      obtain ⟨before,after,rfl,rfl⟩ := Text.getElem?_bytes_eq_backslash_iff.mp hbyte
      rw [Text.removeAt?_append,unescapeAt?_behind_backslash]
      rfl
    · rename_i hbyte
      have hnone : unescapeAt? buffer (escape + 1) = none := by
        rw [← Option.not_isSome_iff_eq_none,isSome_unescapeAt?_iff,isEscaped_succ_iff]
        exact hbyte
      rw [hnone]

/-- At any byte index, inside a character or past the end too, the classifier and the
unescaper agree on whether a backslash stands before it. If so, that byte goes and nothing
else, and what stood at the index moves to its place; if not, the buffer stays as it is. A
removal where no character starts would fail, but in place none is ever tried there. -/
theorem classify_escaped_iff_unescapes (position : CommandPosition) (key buffer : Text)
    (index : Nat) :
    (classify key buffer index position = .escaped ↔
      (unescapeAt? buffer index).isSome = true) ∧
    (∀ escape left, unescapeAt? buffer index = some (escape, left) ↔
      Unescapes buffer index escape left) ∧
    (unescapeInPlace? buffer index =
      match unescapeAt? buffer index with
      | some (escape, left) => some (some escape, left)
      | none => some (none, buffer)) ∧
    ∀ place, (Text.removeAt? place buffer).isSome = true ↔
      Text.IsBoundary buffer place ∧ place < Text.size buffer := by
  refine ⟨?_,?_,unescapeInPlace?_eq buffer index,?_⟩
  · rw [classify_eq_escaped_iff,isSome_unescapeAt?_iff]
  · intro escape left
    exact unescapeAt?_eq_some_iff_unescapes
  · intro place
    exact Text.isSome_removeAt?_iff

example : (List.range 7).map (unescapeAt? ['é','\\','l','s']) =
    [none,none,none,some (2, ['é','l','s']),none,none,none] := by decide

end Occurrence
end ShellAlias
