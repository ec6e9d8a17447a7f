/-!
# Double precision numbers

A `Binary64` is not a number, an infinity, or a sign with a finite magnitude. Finite magnitudes are
numbered upward from zero by their rank: those of the first block are the multiples of the smallest
positive magnitude, the unit, and each further block has twice the spacing of the one before it.
`ofRatio` rounds a quotient to the nearest magnitude, ties to the one with even rank.
-/

namespace ConfigExpr

/-- The length of a block of equally spaced magnitudes, two to the power of 52. -/
def blockSize : Nat := 0x10000000000000

/-- The number of finite magnitudes, 2047 blocks. -/
def rankCount : Nat := 0x7FF0000000000000

inductive Binary64 where
  | nan
  | infinite (negative : Bool)
  | finite (negative : Bool) (rank : Fin rankCount)
  deriving DecidableEq

namespace Binary64

def twoPow (n : Nat) : Nat := Nat.pow 2 n

def tenPow (n : Nat) : Nat := Nat.pow 10 n

/-- The number of units in one. -/
def unitsPerOne : Nat := twoPow 1074

/-- The significand of a magnitude, less than two blocks long. -/
def significand (rank : Nat) : Nat :=
  if rank < blockSize then rank else blockSize + rank % blockSize

/-- The spacing of the magnitudes around a rank is this power of two, in units. -/
def spacing (rank : Nat) : Nat :=
  rank / blockSize - 1

/-- A magnitude in units. -/
def units (rank : Nat) : Nat :=
  significand rank * twoPow (spacing rank)

/-- The whole number nearest to `p / q`; of two it is the even one. -/
def nearest (p q : Nat) : Nat :=
  let whole := p / q
  let rest := 2 * (p % q)
  if rest < q then whole
  else if q < rest then whole + 1
  else whole + whole % 2

/-- The rank nearest to `p / q`. A significand that rounds up to the next power of two carries into
the next block, since the ranks are consecutive. -/
def rankOfRatio (p q : Nat) : Nat :=
  let step := (p * unitsPerOne / q).log2 - 52
  step * blockSize + nearest (p * unitsPerOne) (q * twoPow step)

/-- The number nearest to `p / q`; past the largest magnitude it is an infinity. -/
def ofRatio (negative : Bool) (p q : Nat) : Binary64 :=
  let rank := rankOfRatio p q
  if h : rank < rankCount then .finite negative ⟨rank, h⟩ else .infinite negative

/-- The decimal of the given digits and exponent as a quotient. -/
def decimalRatio (digits : Nat) (exponent : Int) : Nat × Nat :=
  (digits * tenPow exponent.toNat, tenPow (-exponent).toNat)

/-- The number nearest to a decimal. -/
def ofDecimal (negative : Bool) (digits : Nat) (exponent : Int) : Binary64 :=
  let (p, q) := decimalRatio digits exponent
  ofRatio negative p q

/-- The number written as the digits before and after a point. -/
def ofDigits (negative : Bool) (whole fraction : List Char) : Binary64 :=
  ofDecimal negative (Nat.ofDigitChars 10 (whole ++ fraction) 0) (-fraction.length)

/-- Equality as numbers: not a number differs from itself, and the two zeros are equal. -/
protected def beq : Binary64 → Binary64 → Bool
  | .infinite s, .infinite t => s == t
  | .finite s m, .finite t n => m == n && (s == t || m.val == 0)
  | _, _ => false

instance : BEq Binary64 := ⟨Binary64.beq⟩

end Binary64

end ConfigExpr
