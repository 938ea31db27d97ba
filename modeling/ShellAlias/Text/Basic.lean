namespace ShellAlias

/-- Text as the list of its characters. Limits count characters, indexes count
the bytes of its UTF-8 form. -/
abbrev Text := List Char

namespace Text

def bytes (text : Text) : List UInt8 := text.flatMap String.utf8EncodeChar

def size : Text → Nat
  | [] => 0
  | c :: rest => c.utf8Size + size rest

theorem size_append (a b : Text) : size (a ++ b) = size a + size b := by
  induction a with
  | nil => simp [size]
  | cons c a ih => simp [size,ih,Nat.add_assoc]

theorem length_bytes (text : Text) : (bytes text).length = size text := by
  induction text with
  | nil => rfl
  | cons c text ih =>
    simp only [bytes,List.flatMap_cons,List.length_append,String.length_utf8EncodeChar,size]
    exact congrArg _ ih

/-- The text before and after a byte index. There is none for an index inside a
character or past the end. -/
def splitAtByte? : Nat → Text → Option (Text × Text)
  | 0, text => some ([], text)
  | _ + 1, [] => none
  | n + 1, c :: rest =>
    if c.utf8Size ≤ n + 1 then
      (splitAtByte? (n + 1 - c.utf8Size) rest).map fun (before, after) => (c :: before, after)
    else none

theorem splitAtByte?_eq_some_iff {index : Nat} {text before after : Text} :
    splitAtByte? index text = some (before, after) ↔
      text = before ++ after ∧ size before = index := by
  induction text generalizing index before with
  | nil =>
    cases index with
    | zero => cases before <;> simp_all [splitAtByte?,size,eq_comm]
    | succ n =>
      simp only [splitAtByte?,reduceCtorEq,false_iff,not_and]
      intro h
      obtain ⟨rfl,rfl⟩ := List.append_eq_nil_iff.mp h.symm
      simp [size]
  | cons c text ih =>
    have hc := c.utf8Size_pos
    cases index with
    | zero =>
      cases before with
      | nil => simp [splitAtByte?,size]
      | cons d before =>
        simp only [splitAtByte?,size,Option.some.injEq,Prod.mk.injEq,List.cons_append,
          List.cons.injEq]
        constructor
        · intro h
          cases h.1
        · rintro ⟨⟨rfl,_⟩,h⟩
          omega
    | succ n =>
      cases before with
      | nil => simp [splitAtByte?,size]
      | cons d before =>
        by_cases hn : c.utf8Size ≤ n + 1
        · simp only [splitAtByte?,hn,↓reduceIte,Option.map_eq_some_iff,Prod.exists,
            Prod.mk.injEq,List.cons.injEq,List.cons_append,size]
          constructor
          · rintro ⟨b,a,h,⟨rfl,rfl⟩,rfl⟩
            obtain ⟨rfl,hs⟩ := ih.mp h
            exact ⟨⟨rfl,rfl⟩,by omega⟩
          · rintro ⟨⟨rfl,rfl⟩,hs⟩
            exact ⟨before,after,ih.mpr ⟨rfl,by omega⟩,⟨rfl,rfl⟩,rfl⟩
        · simp only [splitAtByte?,hn,↓reduceIte,reduceCtorEq,size,List.cons_append,
            List.cons.injEq,false_iff,not_and]
          rintro ⟨rfl,_⟩
          omega

def stripStart? : Text → Text → Option Text
  | [], text => some text
  | _ :: _, [] => none
  | k :: start, c :: text => if c = k then stripStart? start text else none

theorem stripStart?_eq_some_iff {start text after : Text} :
    stripStart? start text = some after ↔ text = start ++ after := by
  induction start generalizing text with
  | nil => simp [stripStart?]
  | cons k start ih =>
    cases text with
    | nil => simp [stripStart?]
    | cons c text =>
      by_cases hc : c = k
      · simp [stripStart?,hc,ih]
      · simp [stripStart?,hc]

/-- The text before and after the first occurrence of `key`. The empty key
occurs nowhere. -/
def cutFirst? (key : Text) : Text → Option (Text × Text)
  | [] => none
  | c :: rest =>
    match stripStart? key (c :: rest) with
    | some after => if key = [] then none else some ([], after)
    | none => (cutFirst? key rest).map fun (before, after) => (c :: before, after)

theorem cutFirst?_eq_some {key text before after : Text}
    (h : cutFirst? key text = some (before, after)) :
    key ≠ [] ∧ text = before ++ key ++ after := by
  induction text generalizing before with
  | nil => simp [cutFirst?] at h
  | cons c text ih =>
    rw [cutFirst?] at h
    split at h
    · rename_i hs
      split at h
      · contradiction
      · rename_i hk
        obtain ⟨rfl,rfl⟩ := Prod.mk.inj (Option.some.inj h)
        exact ⟨hk,by simpa using stripStart?_eq_some_iff.mp hs⟩
    · obtain ⟨⟨b,a⟩,hc,he⟩ := Option.map_eq_some_iff.mp h
      obtain ⟨rfl,rfl⟩ := Prod.mk.inj he
      obtain ⟨hk,ht⟩ := ih hc
      exact ⟨hk,by simp [ht]⟩

theorem cutFirst?_length {key text before after : Text}
    (h : cutFirst? key text = some (before, after)) : after.length < text.length := by
  obtain ⟨hk,ht⟩ := cutFirst?_eq_some h
  have := List.length_pos_iff.mpr hk
  simp only [ht,List.length_append]
  omega

def dropEscape (text : Text) : Text :=
  if text.getLast? = some '\\' then text.dropLast else text

def trimEnd (p : Char → Bool) (text : Text) : Text := (text.reverse.dropWhile p).reverse

def stripEnd? (c : Char) (text : Text) : Option Text :=
  if text.getLast? = some c then some text.dropLast else none

def decimal (n : Nat) : Text := Nat.toDigits 10 n

def hexadecimal (n : Nat) : Text := Nat.toDigits 16 n

def line (text : Text) : Text := text ++ ['\n']

end Text
end ShellAlias
