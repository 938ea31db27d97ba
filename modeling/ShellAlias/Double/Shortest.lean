import ShellAlias.Double.Basic
import ShellAlias.Text.Basic

namespace ShellAlias.Double

/-- The decimal number `digits * 10 ^ exponent`. -/
structure Decimal where
  digits : Nat
  exponent : Int
  deriving DecidableEq, Repr

def scaleTen (num den : Nat) (exponent : Int) : Nat × Nat :=
  match exponent with
  | .ofNat n => (num, den * Nat.pow 10 n)
  | .negSucc n => (num * Nat.pow 10 (n + 1), den)

/-- The least `k` for which a positive fraction is below `10 ^ k`. -/
def magnitude (num den : Nat) : Int :=
  if den ≤ num then ((Nat.toDigits 10 (num / den)).length : Int)
  else 1 - ((Nat.toDigits 10 ((den - 1) / num)).length : Int)

/-- The numbers that round to a positive double, as the double and the two ends
over one denominator, and whether the ends belong to them. -/
structure Interval where
  low : Nat
  value : Nat
  high : Nat
  den : Nat
  closed : Bool

/-- The gap below a power of two is half as wide as the gap above. -/
def interval (double : Double) : Interval :=
  let below :=
    if double.significand = Nat.pow 2 52 && decide (-1074 < double.exponent) then 1 else 2
  let fraction (quarters : Nat) : Nat × Nat := ratio ⟨quarters,double.exponent - 2⟩
  let value := 4 * double.significand
  { low := (fraction (value - below)).1
    value := (fraction value).1
    high := (fraction (value + 2)).1
    den := (fraction value).2
    closed := double.significand % 2 = 0 }

/-- The number nearest to the double among those of a decimal grid that round to
it, a tie going to the even one. -/
def nearestOnGrid? (range : Interval) (exponent : Int) : Option Nat :=
  let (value, den) := scaleTen range.value range.den exponent
  let (low, _) := scaleTen range.low range.den exponent
  let (high, _) := scaleTen range.high range.den exponent
  let inside (n : Nat) : Bool :=
    let point := n * den
    if range.closed then low ≤ point && point ≤ high else low < point && point < high
  let floor := value / den
  let toFloor := value - floor * den
  let toNext := (floor + 1) * den - value
  if inside floor &&
      (!inside (floor + 1) || toFloor < toNext || (toFloor = toNext && floor % 2 = 0)) then
    some floor
  else if inside (floor + 1) then some (floor + 1)
  else none

/-- The nearest number with the fewest digits that rounds to the double. Tries
`fuel` counts of digits from `count` on; seventeen are always enough. -/
def shortestFrom (range : Interval) (top : Int) : (fuel count : Nat) → Decimal
  | 0, count =>
    let (value, den) := scaleTen range.value range.den (top - count)
    ⟨roundDiv value den,top - count⟩
  | fuel + 1, count =>
    match nearestOnGrid? range (top - count) with
    | some digits => ⟨digits,top - count⟩
    | none => shortestFrom range top fuel (count + 1)

def shortest (double : Double) : Decimal :=
  if double.significand = 0 then ⟨0,0⟩
  else
    let range := double.interval
    shortestFrom range (magnitude range.value range.den) 16 1

def dropZeros : (fuel : Nat) → Nat → Nat → Nat × Nat
  | 0, n, dropped => (n, dropped)
  | fuel + 1, n, dropped =>
    if n % 10 = 0 && 0 < n then dropZeros fuel (n / 10) (dropped + 1) else (n, dropped)

structure Layout where
  leastPositional : Int
  greatestPositional : Int

/-- Lays out a decimal number. Positional digits have a point with a digit on
either side. -/
def Layout.show (layout : Layout) (decimal : Decimal) : Text :=
  let (number, dropped) := dropZeros 20 decimal.digits 0
  let digits := Text.decimal number
  let exponent : Int := decimal.exponent + dropped
  let leading : Int := exponent + digits.length - 1
  if number = 0 then "0.0".toList
  else if layout.leastPositional ≤ leading ∧ leading ≤ layout.greatestPositional then
    if 0 ≤ exponent then digits ++ List.replicate exponent.toNat '0' ++ ".0".toList
    else if 0 ≤ leading then
      digits.take (leading.toNat + 1) ++ '.' :: digits.drop (leading.toNat + 1)
    else "0.".toList ++ List.replicate (-leading - 1).toNat '0' ++ digits
  else
    let point := if digits.length = 1 then [] else ['.']
    let sign := if leading < 0 then '-' else '+'
    digits.take 1 ++ point ++ digits.drop 1 ++ 'e' :: sign ::
      Text.decimal leading.natAbs

end ShellAlias.Double
