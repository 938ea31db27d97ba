import ShellAlias.Json.Fault

namespace ShellAlias.Json

def hexValue? (c : Char) : Option Nat :=
  if '0' ≤ c ∧ c ≤ '9' then some (c.toNat - '0'.toNat)
  else if 'a' ≤ c ∧ c ≤ 'f' then some (c.toNat - 'a'.toNat + 10)
  else if 'A' ≤ c ∧ c ≤ 'F' then some (c.toNat - 'A'.toNat + 10)
  else none

/-- Reads the four digits of a hexadecimal escape. The four bytes are looked at
together. -/
def hexEscape (text : Text) : Step Nat :=
  match text with
  | a :: b :: c :: d :: rest =>
    match hexValue? a, hexValue? b, hexValue? c, hexValue? d with
    | some a, some b, some c, some d => .ok (((a * 16 + b) * 16 + c) * 16 + d, rest)
    | _, _, _, _ => .error ⟨.invalidEscape,text,4⟩
  | _ => if 4 ≤ Text.size text then .error ⟨.invalidEscape,text,4⟩ else giveUp .endInString []

def isHighSurrogate (unit : Nat) : Bool := 0xD800 ≤ unit && unit ≤ 0xDBFF

def isLowSurrogate (unit : Nat) : Bool := 0xDC00 ≤ unit && unit ≤ 0xDFFF

def lowSurrogate (high : Nat) (text : Text) : Step Char :=
  match text with
  | [] => giveUp .endInString []
  | '\\' :: [] => giveUp .endInString []
  | '\\' :: 'u' :: rest =>
    match hexEscape rest with
    | .error fault => .error fault
    | .ok (low, rest) =>
      if isLowSurrogate low then
        .ok (Char.ofNat ((high - 0xD800) * 0x400 + (low - 0xDC00) + 0x10000), rest)
      else giveUp .loneSurrogate rest
  | '\\' :: rest => refuse .unpairedEscape rest
  | text => refuse .unpairedEscape text

def unicodeEscape (text : Text) : Step Char :=
  match hexEscape text with
  | .error fault => .error fault
  | .ok (unit, rest) =>
    if isLowSurrogate unit then giveUp .loneSurrogate rest
    else if isHighSurrogate unit then lowSurrogate unit rest
    else .ok (Char.ofNat unit, rest)

def escapeChar? (c : Char) : Option Char :=
  if c = '"' ∨ c = '\\' ∨ c = '/' then some c
  else if c = 'b' then some '\x08'
  else if c = 'f' then some '\x0c'
  else if c = 'n' then some '\n'
  else if c = 'r' then some '\r'
  else if c = 't' then some '\t'
  else none

def escape (text : Text) : Step Char :=
  match text with
  | [] => giveUp .endInString []
  | c :: rest =>
    if c = 'u' then unicodeEscape rest
    else
      match escapeChar? c with
      | some c => .ok (c, rest)
      | none => refuse .invalidEscape (c :: rest)

def isControl (c : Char) : Bool := c.toNat < 0x20

theorem hexEscape_length {text rest : Text} {unit : Nat} (h : hexEscape text = .ok (unit, rest)) :
    rest.length < text.length := by
  unfold hexEscape giveUp at h
  repeat' split at h
  all_goals simp only [Except.ok.injEq,Prod.mk.injEq,reduceCtorEq] at h
  obtain ⟨_,rfl⟩ := h
  simp only [List.length_cons]
  omega

theorem lowSurrogate_length {high : Nat} {text rest : Text} {c : Char}
    (h : lowSurrogate high text = .ok (c, rest)) : rest.length < text.length := by
  unfold lowSurrogate giveUp refuse at h
  repeat' split at h
  all_goals simp only [Except.ok.injEq,Prod.mk.injEq,reduceCtorEq] at h
  have := hexEscape_length ‹hexEscape _ = _›
  simp only [List.length_cons,← h.2]
  omega

theorem unicodeEscape_length {text rest : Text} {c : Char}
    (h : unicodeEscape text = .ok (c, rest)) : rest.length < text.length := by
  unfold unicodeEscape giveUp at h
  split at h
  · contradiction
  · rename_i hx
    have := hexEscape_length hx
    repeat' split at h
    · contradiction
    · have := lowSurrogate_length h
      omega
    · simp only [Except.ok.injEq,Prod.mk.injEq] at h
      simpa [← h.2] using this

theorem escape_length {text rest : Text} {c : Char} (h : escape text = .ok (c, rest)) :
    rest.length < text.length := by
  unfold escape giveUp refuse at h
  repeat' split at h
  · contradiction
  · have := unicodeEscape_length h
    simp only [List.length_cons]
    omega
  · simp only [Except.ok.injEq,Prod.mk.injEq] at h
    simp [h.2]
  · contradiction

def string (text : Text) : Step Text :=
  match text with
  | [] => giveUp .endInString []
  | c :: rest =>
    if c = '"' then .ok ([], rest)
    else if c = '\\' then
      match _read : escape rest with
      | .error fault => .error fault
      | .ok (c, rest) => (string rest).map fun (value, rest) => (c :: value, rest)
    else if isControl c then refuse .controlCharacter (c :: rest)
    else (string rest).map fun (value, rest) => (c :: value, rest)
termination_by text.length
decreasing_by
  · have := escape_length _read
    simp only [List.length_cons]
    omega
  · simp

/-- Reads a word after its first letter, of which `expected` is left. -/
def word : (expected text : Text) → Except Fault Text
  | [], text => .ok text
  | _ :: _, [] => giveUp .endInValue []
  | e :: expected, c :: rest =>
    if c = e then word expected rest else refuse .misspeltWord (c :: rest)

end ShellAlias.Json
