import ShellAlias.Json.Token
import ShellAlias.Proofs.Json.Spelling

namespace ShellAlias.Json

def IsSpace (text : Text) : Prop := ∀ c ∈ text, isSpace c = true

/-- A value may end before this text: it is empty, or white space, a comma or a
closing bracket comes first. -/
def EndsValue (rest : Text) : Prop :=
  ∀ c ∈ rest.head?, isSpace c = true ∨ c = ',' ∨ c = ']' ∨ c = '\x7d'

/-- What is written is read as a value, whatever space stands before it and
whatever may follow a value. -/
def Reads {α : Type} (read : Text → Step α) (written : Text) (value : α) : Prop :=
  ∀ space rest, IsSpace space → EndsValue rest →
    read (space ++ written ++ rest) = .ok (value, rest)

theorem Reads.map {α β : Type} {read : Text → Step α} {written : Text} {value : α}
    (h : Reads read written value) (f : α → β) :
    Reads (fun text => (read text).map fun (value, rest) => (f value, rest)) written (f value) := by
  intro space rest hs he
  simp only [h space rest hs he,Except.map]

theorem isSpace_nil : IsSpace [] := List.forall_mem_nil _

theorem IsSpace.append {a b : Text} (ha : IsSpace a) (hb : IsSpace b) : IsSpace (a ++ b) :=
  List.forall_mem_append.mpr ⟨ha,hb⟩

theorem skipSpace_append {space : Text} (h : IsSpace space) (text : Text) :
    skipSpace (space ++ text) = skipSpace text := List.dropWhile_append_of_pos h

theorem skipSpace_cons {c : Char} (h : isSpace c = false) (rest : Text) :
    skipSpace (c :: rest) = c :: rest := by
  simp [skipSpace,h]

theorem EndsValue.of_space {space rest : Text} (hs : IsSpace space) (h : EndsValue rest) :
    EndsValue (space ++ rest) := by
  cases space with
  | nil => exact h
  | cons c space =>
    intro d hd
    obtain rfl : c = d := by simpa using hd
    exact Or.inl (hs c List.mem_cons_self)

theorem endsValue_cons {c : Char} (h : c = ',' ∨ c = ']' ∨ c = '\x7d') (rest : Text) :
    EndsValue (c :: rest) := by
  intro d hd
  exact Option.some.inj hd ▸ Or.inr h

/-- What may follow a value does not make a number longer. -/
theorem EndsValue.head {c : Char} {rest : Text} (h : EndsValue (c :: rest)) :
    c.isDigit = false ∧ c ≠ '.' ∧ c ≠ 'e' ∧ c ≠ 'E' := by
  have hc := h c rfl
  simp only [isSpace,Bool.or_eq_true,decide_eq_true_eq] at hc
  rcases hc with (((rfl | rfl) | rfl) | rfl) | rfl | rfl | rfl <;> decide

theorem ne_of_isDigit {c d : Char} (h : c.isDigit = true) (hd : d.isDigit = false) : c ≠ d := by
  rintro rfl
  rw [h] at hd
  contradiction

def EndsDigits (rest : Text) : Prop := ∀ c ∈ rest.head?, c.isDigit = false

theorem EndsValue.endsDigits {rest : Text} (h : EndsValue rest) : EndsDigits rest := by
  intro c hc
  cases rest with
  | nil => contradiction
  | cons d rest => exact Option.some.inj hc ▸ h.head.1

theorem digits_append {places rest : Text} (hp : ∀ c ∈ places, c.isDigit = true)
    (h : EndsDigits rest) : digits (places ++ rest) = (places, rest) := by
  rw [digits,List.takeWhile_append_of_pos hp,List.dropWhile_append_of_pos hp]
  cases rest with
  | nil => simp
  | cons c rest => simp [h c rfl]

theorem le_ofDigitChars (places : Text) (n : Nat) : n ≤ Nat.ofDigitChars 10 places n := by
  have hvalue : Nat.ofDigitChars 10 places n =
      10 ^ places.length * n + Nat.ofDigitChars 10 places 0 :=
    Nat.ofDigitChars_eq_ofDigitChars_zero
  have hscaled : n ≤ 10 ^ places.length * n := Nat.le_mul_of_pos_left n (Nat.pow_pos (by omega))
  omega

/-- No digit is left over if the number fits. -/
theorem absorb_of_lt {places : Text} {significand : Nat}
    (h : Nat.ofDigitChars 10 places significand < naturalBound) :
    absorb significand places = (Nat.ofDigitChars 10 places significand, 0) := by
  induction places generalizing significand with
  | nil => simp [absorb]
  | cons c places ih =>
    rw [Nat.ofDigitChars_cons,Nat.mul_comm] at h ⊢
    have hnext := Nat.lt_of_le_of_lt (le_ofDigitChars places _) h
    unfold absorb
    exact (if_pos hnext).trans (ih h)

theorem isDigit_of_mem_decimal {n : Nat} {c : Char} (h : c ∈ Text.decimal n) : c.isDigit = true :=
  Nat.isDigit_of_mem_toDigits (by omega) (by omega) h

/-- A number is written with at least one digit, and with a zero in front only if
it is zero. -/
theorem exists_decimal (n : Nat) :
    ∃ c places, Text.decimal n = c :: places ∧ c.isDigit = true ∧ (c = '0' → n = 0) := by
  unfold Text.decimal
  induction n using Nat.strongRecOn with
  | _ n ih =>
    by_cases hn : n < 10
    · refine ⟨n.digitChar,[],Nat.toDigits_of_lt_base hn,?_,Nat.digitChar_eq_zero.mp⟩
      simp [Nat.isDigit_digitChar,hn]
    · obtain ⟨c,places,he,hdigit,hzero⟩ := ih (n / 10) (by omega)
      rw [Nat.toDigits_of_base_le (by omega) (by omega),he]
      refine ⟨c,_,rfl,hdigit,?_⟩
      intro hc
      have := hzero hc
      omega

theorem afterWhole_of_endsValue {rest : Text} (h : EndsValue rest) (n : Nat) :
    afterWhole false n 0 rest = .ok (.natural n, rest) := by
  cases rest with
  | nil => simp [afterWhole,whole]
  | cons c rest =>
    obtain ⟨_,hpoint,hlow,hhigh⟩ := h.head
    unfold afterWhole
    split <;> simp_all [whole]

theorem unsigned_decimal {n : Nat} (hn : n < naturalBound) {rest : Text} (h : EndsValue rest) :
    unsigned false (Text.decimal n ++ rest) = .ok (.natural n, rest) := by
  rcases Nat.eq_zero_or_pos n with rfl | hpos
  · change unsigned false ('0' :: rest) = _
    unfold unsigned
    cases rest with
    | nil => exact afterWhole_of_endsValue h 0
    | cons c rest => simp [h.head.1,afterWhole_of_endsValue h]
  · have hvalue : Nat.ofDigitChars 10 (Text.decimal n) 0 = n := Nat.ofDigitChars_ten_toDigits
    have habsorb := absorb_of_lt (hvalue.symm ▸ hn)
    have hdigits : digits (Text.decimal n ++ rest) = (Text.decimal n, rest) :=
      digits_append (fun _ => isDigit_of_mem_decimal) h.endsDigits
    obtain ⟨c,places,he,hdigit,hzero⟩ := exists_decimal n
    have hc : c ≠ '0' := fun hc => Nat.ne_of_gt hpos (hzero hc)
    rw [hvalue,he] at habsorb
    rw [he,List.cons_append] at hdigits ⊢
    simp [unsigned,hdigit,hdigits,habsorb,afterWhole_of_endsValue h]

theorem number_decimal {n : Nat} (hn : n < naturalBound) {rest : Text} (h : EndsValue rest) :
    number (Text.decimal n ++ rest) = .ok (.natural n, rest) := by
  have hread := unsigned_decimal hn h
  obtain ⟨c,places,he,hdigit,_⟩ := exists_decimal n
  have hsign : c ≠ '-' := ne_of_isDigit hdigit rfl
  rw [he,List.cons_append] at hread ⊢
  simp [number,hsign,hread]

theorem tokenHere_of_isDigit {c : Char} (h : c.isDigit = true) (rest : Text) :
    tokenHere (c :: rest) =
      (number (c :: rest)).map fun (value, rest) => (.number value, rest) := by
  have hnull : c ≠ 'n' := ne_of_isDigit h rfl
  have htrue : c ≠ 't' := ne_of_isDigit h rfl
  have hfalse : c ≠ 'f' := ne_of_isDigit h rfl
  simp only [tokenHere,hnull,htrue,hfalse,h,or_true,if_false,if_true]

theorem isSpace_of_isDigit {c : Char} (h : c.isDigit = true) : isSpace c = false := by
  have hblank : c ≠ ' ' := ne_of_isDigit h rfl
  have htab : c ≠ '\t' := ne_of_isDigit h rfl
  have hfeed : c ≠ '\n' := ne_of_isDigit h rfl
  have hreturn : c ≠ '\r' := ne_of_isDigit h rfl
  simp [isSpace,hblank,htab,hfeed,hreturn]

theorem reads_decimal {n : Nat} (hn : n < naturalBound) :
    Reads token (Text.decimal n) (.number (.natural n)) := by
  intro space rest hs h
  have hread := number_decimal hn h
  obtain ⟨c,places,he,hdigit,_⟩ := exists_decimal n
  rw [he,List.cons_append] at hread
  rw [List.append_assoc,he,List.cons_append,token,skipSpace_append hs,
    skipSpace_cons (isSpace_of_isDigit hdigit),tokenHere_of_isDigit hdigit,hread]
  rfl

def IsString (written text : Text) : Prop :=
  ∃ spelled, written = '"' :: (spelled ++ ['"']) ∧ Spells spelled text

theorem IsPlain.isString {text : Text} (h : IsPlain text) :
    IsString ('"' :: (text ++ ['"'])) text := ⟨text,rfl,h.spells⟩

theorem reads_string {written text : Text} (h : IsString written text) :
    Reads token written (.string text) := by
  obtain ⟨spelled,rfl,hspelled⟩ := h
  intro space rest hs _
  have hwhole : space ++ '"' :: (spelled ++ ['"']) ++ rest =
      space ++ '"' :: (spelled ++ '"' :: rest) := by simp
  rw [hwhole,token,skipSpace_append hs,skipSpace_cons rfl]
  simp [tokenHere,hspelled.string]
  rfl

theorem reads_true : Reads token "true".toList (.boolean true) := by
  intro space rest hs _
  rw [List.append_assoc,token,skipSpace_append hs]
  rfl

theorem reads_false : Reads token "false".toList (.boolean false) := by
  intro space rest hs _
  rw [List.append_assoc,token,skipSpace_append hs]
  rfl

theorem token_openObject {space : Text} (hs : IsSpace space) (rest : Text) :
    token (space ++ '\x7b' :: rest) = .ok (.openObject, rest) := by
  rw [token,skipSpace_append hs]
  rfl

end ShellAlias.Json
