import ShellAlias.Double.Shortest

namespace ShellAlias.Json

/-- A number as it was written: a whole number of at most 64 bits, with or
without a sign, or a double for all others. -/
inductive Number where
  | natural (n : Nat)
  /-- The number `-n`, where `n` is positive. -/
  | negative (n : Nat)
  | double (isNegative : Bool) (magnitude : Double)
  deriving DecidableEq, Repr

/-- One past the greatest natural number that is not read as a double. -/
def naturalBound : Nat := Nat.pow 2 64

/-- The greatest `n` for which `-n` is not read as a double. -/
def negativeBound : Nat := Nat.pow 2 63

def doubleLayout : Double.Layout := ⟨-5,15⟩

def doubleText (isNegative : Bool) (magnitude : Double) : Text :=
  (if isNegative then ['-'] else []) ++ doubleLayout.show magnitude.shortest

end ShellAlias.Json
