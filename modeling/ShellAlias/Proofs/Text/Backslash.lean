import ShellAlias.Expansion.Pass
import ShellAlias.Proofs.Text.Search

namespace ShellAlias

namespace Text

theorem bytes_append (a b : Text) : bytes (a ++ b) = bytes a ++ bytes b :=
  List.flatMap_append

/-- The bytes of a form of several bytes all have their high bit set. -/
theorem backslash_of_mem_utf8EncodeChar {c : Char}
    (h : Occurrence.backslash ∈ String.utf8EncodeChar c) : c = '\\' := by
  have low (n : Nat) (he : Occurrence.backslash = UInt8.ofNat n) : n % 256 = 92 := by
    have hv := congrArg UInt8.toNat he
    simpa [Occurrence.backslash] using hv.symm
  simp only [String.utf8EncodeChar] at h
  split at h
  · rename_i hc
    have hn := low _ (List.mem_singleton.mp h)
    apply Char.ext
    apply UInt32.toNat_inj.mp
    change c.val.toNat = 92
    omega
  all_goals
    repeat' split at h
    all_goals
      simp only [List.mem_cons,List.not_mem_nil,or_false] at h
      exfalso
  · rcases h with h | h <;> have hn := low _ h <;> omega
  · rcases h with h | h | h <;> have hn := low _ h <;> omega
  · rcases h with h | h | h | h <;> have hn := low _ h <;> omega

theorem getElem?_bytes_last (before : Text) (c : Char) (rest : Text) :
    (bytes (before ++ [c] ++ rest))[size (before ++ [c]) - 1]? =
      (String.utf8EncodeChar c)[c.utf8Size - 1]? := by
  have hc := c.utf8Size_pos
  have hsize : size (before ++ [c]) - 1 = (bytes before).length + (c.utf8Size - 1) := by
    rw [size_append,length_bytes]
    simp only [size]
    omega
  have hone : bytes [c] = String.utf8EncodeChar c := by simp [bytes]
  rw [hsize,List.append_assoc,bytes_append,List.getElem?_append_right (Nat.le_add_right _ _),
    Nat.add_sub_cancel_left,bytes_append,hone,
    List.getElem?_append_left (by rw [String.length_utf8EncodeChar]; omega)]

end Text

namespace Occurrence

/-- At the place between two texts, the byte before is a backslash just if the
first text ends in one. -/
theorem isEscaped_append (before rest : Text) :
    isEscaped (before ++ rest) (Text.size before) = true ↔ before.getLast? = some '\\' := by
  rcases List.eq_nil_or_concat before with rfl | ⟨before,c,rfl⟩
  · simp [isEscaped,Text.size]
  · rw [List.concat_eq_append]
    have hpos : 0 < Text.size (before ++ [c]) := by
      have hc := c.utf8Size_pos
      rw [Text.size_append]
      simp only [Text.size]
      omega
    simp only [isEscaped,hpos,decide_true,Bool.true_and,decide_eq_true_eq,
      Text.getElem?_bytes_last,List.getLast?_concat,Option.some.injEq]
    constructor
    · intro h
      exact Text.backslash_of_mem_utf8EncodeChar (List.mem_of_getElem? h)
    · intro h
      subst h
      rfl

end Occurrence
end ShellAlias
