import ConfigExpr.Binary64.Basic

/-!
# Elapsed time

A time is shown in seconds with two decimals. It is first rounded to single precision, the whole
seconds and the fraction apart, and the sum once more, so a time such as 0.005 s shows what single
precision makes of it.
-/

namespace ConfigExpr.Elapsed

/-- Values are counted in this fraction of one. -/
def scale : Nat := 0x1000000000000000

/-- The quotient of two numbers rounded to 24 binary digits. -/
def single (p q : Nat) : Nat :=
  let step := (p * scale / q).log2 - 23
  Binary64.nearest (p * scale) (q * Binary64.twoPow step) * Binary64.twoPow step

/-- A time in nanoseconds as seconds in single precision. -/
def seconds (nanoseconds : Nat) : Nat :=
  let whole := single (nanoseconds / 1000000000) 1
  let fraction := single (single (nanoseconds % 1000000000) 1) (1000000000 * scale)
  single (whole + fraction) scale

/-- A time with two decimals, a tie going to the even digit. -/
def text (nanoseconds : Nat) : String :=
  let hundredths := Binary64.nearest (seconds nanoseconds * 100) scale
  let fraction := hundredths % 100
  s!"{hundredths / 100}." ++ (if fraction < 10 then "0" else "") ++ s!"{fraction}s"

end ConfigExpr.Elapsed
