import ConfigExpr.Binary64.Basic

/-!
# Shortest decimals

`shortest` gives the fewest decimal digits that round to a given magnitude. On each grid
of powers of ten, coarsest first, the two neighbours of the magnitude are tried; of two that round
to it the nearer is taken, and of two equally near ones the larger.
-/

namespace ConfigExpr.Binary64

/-- A decimal as its significant digits and the place of its point, counted from before the first
of them. -/
structure Decimal where
  digits : List Char
  point : Int

/-- The decimal of the given digits and exponent without the zeros its digits end in. -/
def Decimal.ofNat (digits : Nat) (exponent : Int) : Decimal :=
  let all := Nat.toDigits 10 digits
  ⟨(all.reverse.dropWhile (· == '0')).reverse, all.length + exponent⟩

/-- The exponent of the power of ten at or below a magnitude other than zero. The unit is above the
power of ten with exponent -324. -/
def leadingExponent (rank : Nat) : Int :=
  (Nat.toDigits 10 (units rank * tenPow 324 / unitsPerOne)).length - 325

/-- A magnitude counted in steps of a power of ten, as a quotient. -/
def stepRatio (rank : Nat) (exponent : Int) : Nat × Nat :=
  (units rank * tenPow (-exponent).toNat, unitsPerOne * tenPow exponent.toNat)

def roundsTo (rank : Nat) (digits : Nat) (exponent : Int) : Bool :=
  let (p, q) := decimalRatio digits exponent
  rankOfRatio p q == rank

/-- The one of the two whole numbers around `p / q` that passes a test. If both do, it is the nearer
one. -/
def neighbour? (passes : Nat → Bool) (p q : Nat) : Option Nat :=
  let low := p / q
  match passes low, passes (low + 1) with
  | true, true => some (if 2 * (p % q) < q then low else low + 1)
  | true, false => some low
  | false, true => some (low + 1)
  | false, false => none

/-- The neighbour of a magnitude among the multiples of a power of ten that rounds to it, if one
does. -/
def onGrid (rank : Nat) (exponent : Int) : Option Decimal :=
  let ratio := stepRatio rank exponent
  (neighbour? (roundsTo rank · exponent) ratio.1 ratio.2).map fun n => .ofNat n exponent

def fivePow (n : Nat) : Nat := Nat.pow 5 n

/-- The unit is a multiple of the power of ten with exponent -1074, and so is every magnitude. -/
def exact (rank : Nat) : Decimal :=
  .ofNat (units rank * fivePow 1074) (-1074)

def shortest (rank : Nat) : Decimal :=
  let top := leadingExponent rank
  ((List.range 17).findSome? fun (k : Nat) => onGrid rank (top - k)).getD (exact rank)

end ConfigExpr.Binary64
