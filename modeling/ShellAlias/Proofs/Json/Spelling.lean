import ShellAlias.Json.Literal

namespace ShellAlias.Json

def IsPlainChar (c : Char) : Prop := c ≠ '"' ∧ c ≠ '\\' ∧ isControl c = false

instance (c : Char) : Decidable (IsPlainChar c) := inferInstanceAs (Decidable (_ ∧ _))

def IsPlain (text : Text) : Prop := ∀ c ∈ text, IsPlainChar c

instance (text : Text) : Decidable (IsPlain text) := List.decidableBAll IsPlainChar text

/-- The letters behind a backslash, and what they stand for. -/
def shortEscapes : List (Char × Char) :=
  [('"', '"'), ('\\', '\\'), ('/', '/'), ('b', '\x08'), ('f', '\x0c'), ('n', '\n'), ('r', '\r'),
    ('t', '\t')]

def IsHexDigit (c : Char) (n : Nat) : Prop :=
  n < 16 ∧ (c = n.digitChar ∨ c = n.digitChar.toUpper)

instance (c : Char) (n : Nat) : Decidable (IsHexDigit c n) := inferInstanceAs (Decidable (_ ∧ _))

/-- The four digits of a hexadecimal escape, and the code unit that they say. -/
inductive IsUnit : Text → Nat → Prop where
  | digits {a b c d : Char} {i j k l : Nat} (ha : IsHexDigit a i) (hb : IsHexDigit b j)
      (hc : IsHexDigit c k) (hd : IsHexDigit d l) :
      IsUnit [a,b,c,d] (((i * 16 + j) * 16 + k) * 16 + l)

/-- What is written between quotes stands for a text. Characters above the first
plane are escaped as a pair of surrogates, and no surrogate stands alone. -/
inductive Spells : Text → Text → Prop where
  | nil : Spells [] []
  | plain {c : Char} {written text : Text} (hc : IsPlainChar c) (others : Spells written text) :
      Spells (c :: written) (c :: text)
  | short {letter c : Char} {written text : Text} (hc : (letter, c) ∈ shortEscapes)
      (others : Spells written text) : Spells ('\\' :: letter :: written) (c :: text)
  | unit {digits written text : Text} {n : Nat} (hn : IsUnit digits n)
      (hscalar : n < 0xD800 ∨ 0xDFFF < n) (others : Spells written text) :
      Spells ('\\' :: 'u' :: (digits ++ written)) (Char.ofNat n :: text)
  | pair {first second written text : Text} {high low : Nat} (hfirst : IsUnit first high)
      (hhigh : 0xD800 ≤ high ∧ high ≤ 0xDBFF) (hsecond : IsUnit second low)
      (hlow : 0xDC00 ≤ low ∧ low ≤ 0xDFFF) (others : Spells written text) :
      Spells ('\\' :: 'u' :: (first ++ '\\' :: 'u' :: (second ++ written)))
        (Char.ofNat ((high - 0xD800) * 0x400 + (low - 0xDC00) + 0x10000) :: text)

theorem IsPlain.spells {text : Text} (h : IsPlain text) : Spells text text := by
  induction text with
  | nil => exact .nil
  | cons c text ih =>
    obtain ⟨hc,htext⟩ := List.forall_mem_cons.mp h
    exact .plain hc (ih htext)

theorem hexValue?_digitChar :
    ∀ n < 16, hexValue? n.digitChar = some n ∧ hexValue? n.digitChar.toUpper = some n := by
  decide

theorem IsHexDigit.value {c : Char} {n : Nat} (h : IsHexDigit c n) : hexValue? c = some n := by
  obtain ⟨hn,rfl | rfl⟩ := h
  · exact (hexValue?_digitChar n hn).1
  · exact (hexValue?_digitChar n hn).2

theorem IsUnit.hexEscape {digits : Text} {n : Nat} (h : IsUnit digits n) (rest : Text) :
    hexEscape (digits ++ rest) = .ok (n, rest) := by
  cases h with
  | digits ha hb hc hd =>
    simp only [Json.hexEscape,List.cons_append,List.nil_append,ha.value,hb.value,hc.value,hd.value]

theorem escapeChar?_of_mem {letter c : Char} (h : (letter, c) ∈ shortEscapes) :
    letter ≠ 'u' ∧ escapeChar? letter = some c := by
  have hall : ∀ named ∈ shortEscapes, named.1 ≠ 'u' ∧ escapeChar? named.1 = some named.2 := by
    decide
  exact hall _ h

theorem escape_unit {digits : Text} {n : Nat} (hn : IsUnit digits n)
    (hscalar : n < 0xD800 ∨ 0xDFFF < n) (rest : Text) :
    escape ('u' :: (digits ++ rest)) = .ok (Char.ofNat n, rest) := by
  have hlow : isLowSurrogate n = false := by
    simp only [isLowSurrogate,Bool.and_eq_false_iff,decide_eq_false_iff_not]
    omega
  have hhigh : isHighSurrogate n = false := by
    simp only [isHighSurrogate,Bool.and_eq_false_iff,decide_eq_false_iff_not]
    omega
  simp [escape,unicodeEscape,hn.hexEscape,hlow,hhigh]

theorem escape_pair {first second : Text} {high low : Nat} (hfirst : IsUnit first high)
    (hhigh : 0xD800 ≤ high ∧ high ≤ 0xDBFF) (hsecond : IsUnit second low)
    (hlow : 0xDC00 ≤ low ∧ low ≤ 0xDFFF) (rest : Text) :
    escape ('u' :: (first ++ '\\' :: 'u' :: (second ++ rest))) =
      .ok (Char.ofNat ((high - 0xD800) * 0x400 + (low - 0xDC00) + 0x10000), rest) := by
  have hnotlow : isLowSurrogate high = false := by
    simp only [isLowSurrogate,Bool.and_eq_false_iff,decide_eq_false_iff_not]
    omega
  have hishigh : isHighSurrogate high = true := by
    simp only [isHighSurrogate,Bool.and_eq_true,decide_eq_true_eq]
    exact hhigh
  have hislow : isLowSurrogate low = true := by
    simp only [isLowSurrogate,Bool.and_eq_true,decide_eq_true_eq]
    exact hlow
  simp [escape,unicodeEscape,lowSurrogate,hfirst.hexEscape,hsecond.hexEscape,hnotlow,hishigh,hislow]

theorem string_plain {c : Char} (hc : IsPlainChar c) {text value rest : Text}
    (h : string text = .ok (value, rest)) : string (c :: text) = .ok (c :: value, rest) := by
  obtain ⟨hquote,hslash,hcontrol⟩ := hc
  rw [string]
  simp [hquote,hslash,hcontrol,h,Except.map]

theorem string_escape {c : Char} {escaped text value rest : Text}
    (hc : escape escaped = .ok (c, text)) (h : string text = .ok (value, rest)) :
    string ('\\' :: escaped) = .ok (c :: value, rest) := by
  rw [string]
  simp only [if_true,if_neg (show '\\' ≠ '"' by decide)]
  split
  · rename_i hfault
    rw [hc] at hfault
    contradiction
  · rename_i hread
    rw [hc] at hread
    obtain ⟨rfl,rfl⟩ := Prod.mk.inj (Except.ok.inj hread)
    rw [h]
    rfl

/-- A string is read as what it stands for, up to its closing quote. -/
theorem Spells.string {written text : Text} (h : Spells written text) (rest : Text) :
    string (written ++ '"' :: rest) = .ok (text, rest) := by
  induction h with
  | nil => simp [Json.string]
  | plain hc _ ih => exact string_plain hc ih
  | short hc _ ih =>
    obtain ⟨hletter,hvalue⟩ := escapeChar?_of_mem hc
    refine string_escape ?_ ih
    simp [escape,hletter,hvalue]
  | @unit digits written _ _ hn hscalar _ ih =>
    have hescape := escape_unit hn hscalar (written ++ '"' :: rest)
    rw [← List.append_assoc] at hescape
    exact string_escape hescape ih
  | @pair first second written _ _ _ hfirst hhigh hsecond hlow _ ih =>
    have hescape := escape_pair hfirst hhigh hsecond hlow (written ++ '"' :: rest)
    rw [show first ++ '\\' :: 'u' :: (second ++ (written ++ '"' :: rest)) =
      first ++ '\\' :: 'u' :: (second ++ written) ++ '"' :: rest by simp] at hescape
    exact string_escape hescape ih

end ShellAlias.Json
