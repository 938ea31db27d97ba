namespace ShellAlias

/-- A finite double without its sign: `significand * 2 ^ exponent`. -/
structure Double where
  significand : Nat
  exponent : Int
  deriving DecidableEq, Repr

namespace Double

def zero : Double := ⟨0,-1074⟩

/-- The quotient rounded to the nearest number, a half to the even one. -/
def roundDiv (num den : Nat) : Nat :=
  let quotient := num / den
  let twice := 2 * (num % den)
  if den < twice || (twice = den && quotient % 2 = 1) then quotient + 1 else quotient

def scale (num den : Nat) (exponent : Int) : Nat × Nat :=
  match exponent with
  | .ofNat n => (num, den * Nat.pow 2 n)
  | .negSucc n => (num * Nat.pow 2 (n + 1), den)

/-- The double nearest to a fraction, a tie going to the even significand. None
if the fraction is too large. -/
def round? (num den : Nat) : Option Double :=
  if num = 0 then some zero
  else
    let guess : Int := num.log2 - den.log2 - 52
    let (n, d) := scale num den guess
    let exact := if n / d < Nat.pow 2 52 then guess - 1 else guess
    let exponent := max exact (-1074)
    let (n, d) := scale num den exponent
    let significand := roundDiv n d
    let (significand, exponent) :=
      if significand = Nat.pow 2 53 then (Nat.pow 2 52, exponent + 1) else (significand, exponent)
    if 971 < exponent then none else some ⟨significand,exponent⟩

def ratio (double : Double) : Nat × Nat :=
  match double.exponent with
  | .ofNat n => (double.significand * Nat.pow 2 n, 1)
  | .negSucc n => (double.significand, Nat.pow 2 (n + 1))

def mul? (a b : Double) : Option Double :=
  let (an, ad) := a.ratio
  let (bn, bd) := b.ratio
  round? (an * bn) (ad * bd)

def div? (a b : Double) : Option Double :=
  let (an, ad) := a.ratio
  let (bn, bd) := b.ratio
  round? (an * bd) (ad * bn)

def ofNat? (n : Nat) : Option Double := round? n 1

/-- Divides by `10 ^ down`. A power over `10 ^ 308` is no double, so one that is
greater is divided by in steps. -/
def shrink? (double : Double) (down : Nat) : Option Double :=
  if down ≤ 308 then (ofNat? (Nat.pow 10 down)).bind double.div?
  else if double.significand = 0 then some double
  else
    (ofNat? (Nat.pow 10 308)).bind double.div? |>.bind fun smaller =>
      shrink? smaller (down - 308)
termination_by down

/-- `significand * 10 ^ exponent` by one operation on doubles, which may be off
the nearest double. None if it is too large. -/
def ofDecimal? (significand : Nat) (exponent : Int) : Option Double :=
  (ofNat? significand).bind fun double =>
    match exponent with
    | .ofNat up =>
      if up ≤ 308 then (ofNat? (Nat.pow 10 up)).bind double.mul?
      else if significand = 0 then some double
      else none
    | .negSucc n => double.shrink? (n + 1)

end Double
end ShellAlias
