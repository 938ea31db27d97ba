import ShellAlias.Json.Container

namespace ShellAlias.Json

inductive Frame where
  | list
  | object
  deriving DecidableEq, Repr

/-- Skips an escape after its backslash. What a hexadecimal one stands for is
not looked at. -/
def skipEscape (text : Text) : Except Fault Text :=
  match text with
  | [] => giveUp .endInString []
  | c :: rest =>
    if c = 'u' then (hexEscape rest).map Prod.snd
    else if (escapeChar? c).isSome then .ok rest
    else refuse .invalidEscape (c :: rest)

theorem skipEscape_length {text rest : Text} (h : skipEscape text = .ok rest) :
    rest.length < text.length := by
  unfold skipEscape giveUp refuse at h
  split at h
  · contradiction
  · split at h
    · cases hx : hexEscape ‹Text› with
      | error fault => simp [hx,Except.map] at h
      | ok pair =>
        have := @hexEscape_length _ pair.2 pair.1 hx
        simp only [hx,Except.map,Except.ok.injEq] at h
        simp only [List.length_cons,← h]
        omega
    · split at h
      · simp_all
      · contradiction

/-- Skips a string after its opening quote. A control character is faulted before
it is passed. -/
def skipString (text : Text) : Except Fault Text :=
  match text with
  | [] => giveUp .endInString []
  | c :: rest =>
    if c = '"' then .ok rest
    else if c = '\\' then
      match _read : skipEscape rest with
      | .error fault => .error fault
      | .ok rest => skipString rest
    else if isControl c then giveUp .controlCharacter (c :: rest)
    else skipString rest
termination_by text.length
decreasing_by
  · have := skipEscape_length _read
    simp only [List.length_cons]
    omega
  · simp

def skipDigits (text : Text) : Except Fault Text :=
  match text with
  | [] => refuse .invalidNumber []
  | c :: rest => if c.isDigit then .ok (digits rest).2 else refuse .invalidNumber (c :: rest)

def skipExponent (text : Text) : Except Fault Text :=
  match text with
  | [] => .ok []
  | c :: rest =>
    if c = 'e' ∨ c = 'E' then
      match rest with
      | '+' :: rest => skipDigits rest
      | '-' :: rest => skipDigits rest
      | rest => skipDigits rest
    else .ok (c :: rest)

def skipFraction (text : Text) : Except Fault Text :=
  match text with
  | '.' :: rest =>
    match skipDigits rest with
    | .error fault => .error fault
    | .ok rest => skipExponent rest
  | rest => skipExponent rest

def skipUnsigned (text : Text) : Except Fault Text :=
  match text with
  | '0' :: c :: rest =>
    if c.isDigit then refuse .invalidNumber (c :: rest) else skipFraction (c :: rest)
  | text =>
    match skipDigits text with
    | .error fault => .error fault
    | .ok rest => skipFraction rest

def skipScalar (text : Text) : Except Fault Text :=
  match text with
  | [] => giveUp .endInValue []
  | c :: rest =>
    if c = 'n' then word "ull".toList rest
    else if c = 't' then word "rue".toList rest
    else if c = 'f' then word "alse".toList rest
    else if c = '-' then skipUnsigned rest
    else if c.isDigit then skipUnsigned text
    else if c = '"' then skipString rest
    else refuse .noValue text

theorem digits_length (text : Text) : (digits text).2.length ≤ text.length := by
  induction text with
  | nil => simp [digits]
  | cons c text ih =>
    simp only [digits,List.dropWhile_cons,List.length_cons] at ih ⊢
    split
    · omega
    · simp

theorem skipDigits_length {text rest : Text} (h : skipDigits text = .ok rest) :
    rest.length < text.length := by
  unfold skipDigits refuse at h
  split at h
  · contradiction
  · split at h
    · simp only [Except.ok.injEq] at h
      have := digits_length ‹_›
      simp only [List.length_cons,← h]
      omega
    · contradiction

theorem skipExponent_length {text rest : Text} (h : skipExponent text = .ok rest) :
    rest.length ≤ text.length := by
  unfold skipExponent at h
  split at h
  · simp_all
  · split at h
    · split at h
      all_goals
        have := skipDigits_length h
        simp only [List.length_cons]
        omega
    · simp_all

theorem skipFraction_length {text rest : Text} (h : skipFraction text = .ok rest) :
    rest.length ≤ text.length := by
  unfold skipFraction at h
  split at h
  · split at h
    · contradiction
    · have := skipDigits_length ‹skipDigits _ = _›
      have := skipExponent_length h
      simp only [List.length_cons]
      omega
  · exact skipExponent_length h

theorem skipUnsigned_length {text rest : Text} (h : skipUnsigned text = .ok rest) :
    rest.length < text.length := by
  unfold skipUnsigned refuse at h
  split at h
  · split at h
    · contradiction
    · have := skipFraction_length h
      simp only [List.length_cons] at this ⊢
      omega
  · split at h
    · contradiction
    · have := skipDigits_length ‹skipDigits _ = _›
      have := skipFraction_length h
      omega

theorem skipString_length {text rest : Text} (h : skipString text = .ok rest) :
    rest.length < text.length := by
  fun_induction skipString text with
  | case1 => contradiction
  | case2 => simp_all
  | case3 => contradiction
  | case4 =>
    have := skipEscape_length ‹skipEscape _ = _›
    have := ‹_ → _› h
    simp only [List.length_cons]
    omega
  | case5 => contradiction
  | case6 =>
    rename_i ih
    have := ih h
    simp only [List.length_cons]
    omega

theorem word_length {expected text rest : Text} (h : word expected text = .ok rest) :
    rest.length ≤ text.length := by
  induction expected generalizing text with
  | nil => simp_all [word]
  | cons e expected ih =>
    cases text with
    | nil => simp [word,giveUp] at h
    | cons c text =>
      rw [word] at h
      split at h
      · have := ih h
        simp only [List.length_cons]
        omega
      · simp [refuse] at h

theorem skipScalar_length {text rest : Text} (h : skipScalar text = .ok rest) :
    rest.length < text.length := by
  unfold skipScalar giveUp refuse at h
  split at h
  · contradiction
  · simp only [List.length_cons]
    repeat' split at h
    · have := word_length h
      omega
    · have := word_length h
      omega
    · have := word_length h
      omega
    · have := skipUnsigned_length h
      omega
    · exact skipUnsigned_length h
    · have := skipString_length h
      omega
    · contradiction

theorem colon_length {text rest : Text} (h : colon text = .ok rest) :
    rest.length < text.length := by
  have hs := skipSpace_length text
  unfold colon giveUp refuse at h
  split at h
  · contradiction
  · rename_i he
    split at h
    · simp only [Except.ok.injEq] at h
      simp only [he,h,List.length_cons] at hs
      omega
    · contradiction

def skipKey (text : Text) : Except Fault Text :=
  match skipString text with
  | .error fault => .error fault
  | .ok rest => colon rest

def skipMemberKey (text : Text) : Except Fault Text :=
  match skipSpace text with
  | [] => giveUp .endInObject []
  | '"' :: rest => skipKey rest
  | rest => refuse .noKey rest

namespace Frame

def beforeValue (frame : Frame) (text : Text) : Except Fault Text :=
  match frame with
  | .list => .ok text
  | .object => skipMemberKey text

def closing : Frame → Char
  | .list => ']'
  | .object => '\x7d'

def endProblem : Frame → Problem
  | .list => .endInList
  | .object => .endInObject

def noEndProblem : Frame → Problem
  | .list => .noListEnd
  | .object => .noObjectEnd

theorem beforeValue_length {frame : Frame} {text rest : Text}
    (h : frame.beforeValue text = .ok rest) : rest.length ≤ text.length := by
  cases frame with
  | list => simp_all [beforeValue]
  | object =>
    have hs := skipSpace_length text
    simp only [beforeValue,skipMemberKey,skipKey,giveUp,refuse] at h
    split at h
    · contradiction
    · rename_i he
      split at h
      · contradiction
      · have := skipString_length ‹skipString _ = _›
        have := colon_length h
        simp only [he,List.length_cons] at hs
        omega
    · contradiction

end Frame

mutual

/-- Skips a value, and then the rest of the open brackets around it. Depth has
no limit. -/
def skipValue (frames : List Frame) (text : Text) : Except Fault Text :=
  match _here : skipSpace text with
  | '[' :: rest => skipOpened .list frames rest
  | '\x7b' :: rest => skipOpened .object frames rest
  | here =>
    match _read : skipScalar here with
    | .error fault => .error fault
    | .ok rest => skipRest frames rest
termination_by (text.length, 0)
decreasing_by
  all_goals
    have := skipSpace_length text
    simp only [_here,List.length_cons] at this
  · exact Prod.Lex.left _ _ (by omega)
  · exact Prod.Lex.left _ _ (by omega)
  · have := skipScalar_length _read
    exact Prod.Lex.left _ _ (by omega)

def skipOpened (frame : Frame) (frames : List Frame) (text : Text) : Except Fault Text :=
  match _here : skipSpace text with
  | [] => giveUp frame.endProblem []
  | c :: rest =>
    if c = frame.closing then skipRest frames rest
    else
      match _read : frame.beforeValue (c :: rest) with
      | .error fault => .error fault
      | .ok rest => skipValue (frame :: frames) rest
termination_by (text.length, 1)
decreasing_by
  all_goals
    have := skipSpace_length text
    simp only [_here,List.length_cons] at this
  · exact Prod.Lex.left _ _ (by omega)
  · have := Frame.beforeValue_length _read
    simp only [List.length_cons] at this
    exact Prod.Lex.right' _ (by omega) (by omega)

def skipRest (frames : List Frame) (text : Text) : Except Fault Text :=
  match frames with
  | [] => .ok text
  | frame :: frames =>
    match _here : skipSpace text with
    | [] => giveUp frame.endProblem []
    | c :: rest =>
      if c = ',' then
        match _read : frame.beforeValue rest with
        | .error fault => .error fault
        | .ok rest => skipValue (frame :: frames) rest
      else if c = frame.closing then skipRest frames rest
      else refuse frame.noEndProblem (c :: rest)
termination_by (text.length, 0)
decreasing_by
  all_goals
    have := skipSpace_length text
    simp only [_here,List.length_cons] at this
  · have := Frame.beforeValue_length _read
    exact Prod.Lex.left _ _ (by omega)
  · exact Prod.Lex.left _ _ (by omega)

end

def skip (text : Text) : Except Fault Text := skipValue [] text

end ShellAlias.Json
