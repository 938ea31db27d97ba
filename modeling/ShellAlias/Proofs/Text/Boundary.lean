import ShellAlias.Proofs.Text.Backslash

namespace ShellAlias.Text

def IsBoundary (text : Text) (index : Nat) : Prop :=
  ∃ before after, text = before ++ after ∧ size before = index

def StandsAt (key text : Text) (index : Nat) : Prop := bytes key <+: (bytes text).drop index

theorem isBoundary_size (before after : Text) : IsBoundary (before ++ after) (size before) :=
  ⟨before,after,rfl,rfl⟩

theorem isSome_splitAtByte?_iff {text : Text} {index : Nat} :
    (splitAtByte? index text).isSome = true ↔ IsBoundary text index := by
  rw [Option.isSome_iff_exists]
  constructor
  · rintro ⟨⟨before,after⟩,h⟩
    exact ⟨before,after,splitAtByte?_eq_some_iff.mp h⟩
  · rintro ⟨before,after,h⟩
    exact ⟨(before, after),splitAtByte?_eq_some_iff.mpr h⟩

theorem IsBoundary.le_size {text : Text} {index : Nat} (h : IsBoundary text index) :
    index ≤ size text := by
  obtain ⟨before,after,rfl,rfl⟩ := h
  rw [size_append]
  exact Nat.le_add_right _ _

theorem size_le_of_prefix {a b : Text} (h : a <+: b) : size a ≤ size b := by
  obtain ⟨rest,rfl⟩ := h
  rw [size_append]
  exact Nat.le_add_right _ _

theorem size_pos {text : Text} (h : text ≠ []) : 0 < size text := by
  obtain ⟨c,rest,rfl⟩ := List.exists_cons_of_ne_nil h
  have hc := c.utf8Size_pos
  simp only [size]
  omega

theorem bytes_cons (c : Char) (text : Text) :
    bytes (c :: text) = String.utf8EncodeChar c ++ bytes text := rfl

theorem drop_bytes_append (before after : Text) (index : Nat) :
    (bytes (before ++ after)).drop (size before + index) = (bytes after).drop index := by
  rw [bytes_append,← length_bytes,List.drop_append,List.drop_eq_nil_of_le (Nat.le_add_right _ _),
    Nat.add_sub_cancel_left,List.nil_append]

theorem standsAt_append (before after key : Text) (index : Nat) :
    StandsAt key (before ++ after) (size before + index) ↔ StandsAt key after index := by
  rw [StandsAt,drop_bytes_append]
  rfl

theorem standsAt_size (before key after : Text) :
    StandsAt key (before ++ key ++ after) (size before) := by
  have h := (standsAt_append before (key ++ after) key 0).mpr (by simp [StandsAt,bytes_append])
  rwa [Nat.add_zero,← List.append_assoc] at h

/-- The bytes of a character tell which it is, whatever follows them. -/
theorem eq_of_utf8EncodeChar_append {k c : Char} {a b : List UInt8}
    (h : String.utf8EncodeChar k ++ a = String.utf8EncodeChar c ++ b) : k = c := by
  have decoded (d : Char) (rest : List UInt8) :
      ((String.utf8EncodeChar d ++ rest).toByteArray).utf8DecodeChar? 0 = some d := by
    rw [List.toByteArray_append]
    exact ByteArray.utf8DecodeChar?_utf8EncodeChar_append
  have hk := decoded k a
  rw [h,decoded c b] at hk
  exact (Option.some.inj hk).symm

theorem prefix_of_bytes_prefix {key text : Text} (h : bytes key <+: bytes text) :
    key <+: text := by
  induction key generalizing text with
  | nil => exact List.nil_prefix
  | cons k key ih =>
    have hk := k.utf8Size_pos
    cases text with
    | nil =>
      have hlength := h.length_le
      rw [length_bytes,length_bytes] at hlength
      simp only [size] at hlength
      omega
    | cons c text =>
      obtain ⟨rest,hrest⟩ := h
      rw [bytes_cons,bytes_cons,List.append_assoc] at hrest
      obtain rfl := eq_of_utf8EncodeChar_append hrest
      exact List.cons_prefix_cons.mpr ⟨rfl,ih ⟨rest,List.append_cancel_left hrest⟩⟩

/-- The first byte of a character is of a kind that no character has further on. -/
theorem eq_zero_of_first_byte {k c : Char} {index : Nat} (hindex : index < c.utf8Size)
    (h : (String.utf8EncodeChar c)[index]? = (String.utf8EncodeChar k)[0]?) : index = 0 := by
  have hk : 0 < (String.utf8EncodeChar k).length := by
    rw [String.length_utf8EncodeChar]
    exact k.utf8Size_pos
  have hc : index < (String.utf8EncodeChar c).length := by rwa [String.length_utf8EncodeChar]
  rw [List.getElem?_eq_getElem hc,List.getElem?_eq_getElem hk] at h
  have hfirst : (String.utf8EncodeChar k)[0].IsUTF8FirstByte :=
    UInt8.isUTF8FirstByte_getElem_utf8EncodeChar.mpr rfl
  rw [← Option.some.inj h] at hfirst
  exact UInt8.isUTF8FirstByte_getElem_utf8EncodeChar.mp hfirst

/-- A key is found by its bytes only where it stands as characters. -/
theorem exists_of_standsAt {key text : Text} {index : Nat} (hk : key ≠ [])
    (h : StandsAt key text index) :
    ∃ before after, text = before ++ key ++ after ∧ size before = index := by
  induction text generalizing index with
  | nil =>
    have hlength := h.length_le
    have hpos := size_pos hk
    rw [length_bytes] at hlength
    simp [bytes] at hlength
    omega
  | cons c text ih =>
    by_cases hc : c.utf8Size ≤ index
    · obtain ⟨rest,rfl⟩ := Nat.exists_eq_add_of_le hc
      have hone : size [c] = c.utf8Size := rfl
      rw [← hone] at h
      obtain ⟨before,after,rfl,rfl⟩ := ih ((standsAt_append [c] text key rest).mp h)
      exact ⟨c :: before,after,rfl,rfl⟩
    · have hzero : index = 0 := by
        obtain ⟨k,ks,rfl⟩ := List.exists_cons_of_ne_nil hk
        obtain ⟨rest,hrest⟩ := h
        have hfirst := congrArg (fun list => list[0]?) hrest
        rw [bytes_cons,bytes_cons,List.append_assoc] at hfirst
        simp only [List.getElem?_drop,Nat.add_zero] at hfirst
        rw [List.getElem?_append_left (by simp [k.utf8Size_pos]),
          List.getElem?_append_left (by simpa using hc)] at hfirst
        exact eq_zero_of_first_byte (Nat.lt_of_not_le hc) hfirst.symm
      subst hzero
      have hprefix : key <+: c :: text := prefix_of_bytes_prefix h
      obtain ⟨rest,hrest⟩ := hprefix
      exact ⟨[],rest,hrest.symm,rfl⟩

/-- The occurrence that is found is the first by the bytes too. -/
theorem size_le_of_standsAt {key text before after : Text}
    (h : cutFirst? key text = some (before, after)) {index : Nat} (hs : StandsAt key text index) :
    size before ≤ index := by
  obtain ⟨hk,htext⟩ := cutFirst?_eq_some h
  obtain ⟨a,b,ha,rfl⟩ := exists_of_standsAt hk hs
  have hbefore : before <+: text := ⟨key ++ after,by rw [htext,List.append_assoc]⟩
  have hother : a <+: text := ⟨key ++ b,by rw [ha,List.append_assoc]⟩
  exact size_le_of_prefix (List.prefix_of_prefix_length_le hbefore hother (cutFirst?_leftmost h ha))

end ShellAlias.Text
