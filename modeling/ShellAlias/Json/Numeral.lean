import ShellAlias.Json.Fault

namespace ShellAlias.Json

def digitValue (c : Char) : Nat := c.toNat - '0'.toNat

def digits (text : Text) : Text × Text :=
  (text.takeWhile Char.isDigit, text.dropWhile Char.isDigit)

/-- Appends digits to a significand until the next one would take it to `2 ^ 64`.
Gives the significand and how many digits were left over. -/
def absorb (significand : Nat) : Text → Nat × Nat
  | [] => (significand, 0)
  | c :: rest =>
    let next := significand * 10 + digitValue c
    if next < naturalBound then absorb next rest else (significand, rest.length + 1)

/-- The value of an exponent is followed up to this bound. Nothing with a digit
in it has a double at such an exponent but zero. -/
def exponentBound : Nat := Nat.pow 2 31

inductive ExponentValue where
  | within (value : Nat) (rest : Text)
  /-- The exponent reaches the bound at the digit before `rest`. -/
  | beyond (rest : Text)

def exponentValue (value : Nat) : Text → ExponentValue
  | [] => .within value []
  | c :: rest =>
    if c.isDigit then
      let next := value * 10 + digitValue c
      if next < exponentBound then exponentValue next rest else .beyond rest
    else .within value (c :: rest)

def doubleOf (isNegative : Bool) (significand : Nat) (exponent : Int) (rest : Text) :
    Step Number :=
  match Double.ofDecimal? significand exponent with
  | some magnitude => .ok (.double isNegative magnitude, rest)
  | none => giveUp .numberTooLarge rest

def scaled (isNegative : Bool) (significand : Nat) (exponent : Int) (text : Text) :
    Step Number :=
  let (shrinks, text) :=
    match text with
    | '+' :: rest => (false, rest)
    | '-' :: rest => (true, rest)
    | text => (false, text)
  match text with
  | [] => giveUp .endInValue []
  | c :: _ =>
    if !c.isDigit then refuse .invalidNumber text
    else
      match exponentValue 0 text with
      | .within value rest =>
        doubleOf isNegative significand
          (if shrinks then exponent - value else exponent + value) rest
      | .beyond rest =>
        if significand ≠ 0 ∧ !shrinks then giveUp .numberTooLarge rest
        else .ok (.double isNegative Double.zero, (digits rest).2)

def maybeScaled (isNegative : Bool) (significand : Nat) (exponent : Int) (text : Text) :
    Step Number :=
  match text with
  | c :: rest =>
    if c = 'e' ∨ c = 'E' then scaled isNegative significand exponent rest
    else doubleOf isNegative significand exponent text
  | [] => doubleOf isNegative significand exponent []

/-- Reads the digits after a point. Those that do not fit the significand only
stand there. -/
def fraction (isNegative : Bool) (significand dropped : Nat) (text : Text) : Step Number :=
  let (places, rest) := digits text
  if places = [] then
    if rest = [] then giveUp .endInValue [] else refuse .invalidNumber rest
  else
    let (significand, left) := absorb significand places
    maybeScaled isNegative significand ((dropped : Int) - (places.length - left : Nat)) rest

def whole (isNegative : Bool) (significand : Nat) (rest : Text) : Step Number :=
  if !isNegative then .ok (.natural significand, rest)
  else if 0 < significand ∧ significand ≤ negativeBound then .ok (.negative significand, rest)
  else doubleOf true significand 0 rest

def afterWhole (isNegative : Bool) (significand dropped : Nat) (text : Text) : Step Number :=
  match text with
  | '.' :: rest => fraction isNegative significand dropped rest
  | c :: _ =>
    if dropped = 0 ∧ c ≠ 'e' ∧ c ≠ 'E' then whole isNegative significand text
    else maybeScaled isNegative significand dropped text
  | [] =>
    if dropped = 0 then whole isNegative significand []
    else doubleOf isNegative significand dropped []

/-- Reads a number after its sign. A zero takes no digit after it. -/
def unsigned (isNegative : Bool) (text : Text) : Step Number :=
  match text with
  | [] => giveUp .endInValue []
  | '0' :: rest =>
    match rest with
    | c :: _ =>
      if c.isDigit then refuse .invalidNumber rest else afterWhole isNegative 0 0 rest
    | [] => afterWhole isNegative 0 0 []
  | c :: _ =>
    if !c.isDigit then refuse .invalidNumber text
    else
      let (places, rest) := digits text
      let (significand, dropped) := absorb 0 places
      afterWhole isNegative significand dropped rest

def number (text : Text) : Step Number :=
  match text with
  | '-' :: rest => unsigned true rest
  | text => unsigned false text

end ShellAlias.Json
