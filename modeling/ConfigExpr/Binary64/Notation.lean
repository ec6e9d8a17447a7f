import ConfigExpr.Binary64.Shortest

/-!
# Numbers as text

A number is shown by its shortest decimal. A `Layout` fixes where positional notation ends and what
follows a whole number; `literal` is the form of values and expressions, `plain` never has an
exponent. `read?` reads the nearest number to a decimal; the lexer reads with it the literals that
have a point, which are digits alone (`read?_digits`).
-/

namespace ConfigExpr.Binary64

structure Layout where
  /-- Whether a decimal with its point at the given place is written without an exponent. -/
  isPositional : Int → Bool
  /-- What a whole number ends in when it is written without an exponent. -/
  afterWhole : List Char

/-- Values from `1e-4` up to `1e16` are positional and have a digit after the point. -/
def Layout.literal : Layout := ⟨fun point => -3 ≤ point && point ≤ 16, ['.', '0']⟩

def Layout.plain : Layout := ⟨fun _ => true, []⟩

/-- Writes the point inside the digits, or zeros between the point and the digits. -/
def Decimal.positional (afterWhole : List Char) (d : Decimal) : List Char :=
  if d.point ≤ 0 then
    '0' :: '.' :: List.replicate (-d.point).toNat '0' ++ d.digits
  else if d.point < d.digits.length then
    d.digits.take d.point.toNat ++ '.' :: d.digits.drop d.point.toNat
  else
    d.digits ++ List.replicate (d.point.toNat - d.digits.length) '0' ++ afterWhole

/-- Writes one digit, the others after a point, and the exponent. -/
def Decimal.scientific (d : Decimal) : List Char :=
  let exponent := 'e' :: (toString (d.point - 1)).toList
  match d.digits with
  | first :: others@(_ :: _) => first :: '.' :: others ++ exponent
  | digits => digits ++ exponent

def Layout.magnitude (layout : Layout) (rank : Nat) : List Char :=
  if rank = 0 then '0' :: layout.afterWhole
  else
    let d := shortest rank
    if layout.isPositional d.point then d.positional layout.afterWhole else d.scientific

def Layout.write (layout : Layout) : Binary64 → List Char
  | .nan => ['N', 'a', 'N']
  | .infinite negative => (if negative then ['-'] else []) ++ ['i', 'n', 'f']
  | .finite negative rank => (if negative then ['-'] else []) ++ layout.magnitude rank

/-- The form in which values and expressions show a number. -/
def toLiteral (x : Binary64) : String :=
  String.ofList (Layout.literal.write x)

/-- The form without an exponent. -/
def toPlain (x : Binary64) : String :=
  String.ofList (Layout.plain.write x)

/-- An exponent is a sign and digits. -/
def readExponent? : List Char → Option Int
  | '-' :: cs => (digits? cs).map fun n => -(n : Int)
  | '+' :: cs => (digits? cs).map Int.ofNat
  | cs => (digits? cs).map Int.ofNat
where
  digits? (cs : List Char) : Option Nat :=
    if !cs.isEmpty && cs.all Char.isDigit then some (Nat.ofDigitChars 10 cs 0) else none

/-- Brings an exponent so close to zero that the power of ten can be formed. With `count` digits
before it, one that is moved gave an infinity or zero and still does. -/
def withinReach (count : Nat) (exponent : Int) : Int :=
  max (-(count + 400)) (min exponent (count + 400))

/-- Digits with an optional point and an optional exponent; a point needs a digit beside it. -/
def readMagnitude? (negative : Bool) (cs : List Char) : Option Binary64 :=
  let whole := cs.takeWhile Char.isDigit
  let afterWhole := cs.dropWhile Char.isDigit
  let (fraction, tail) :=
    match afterWhole with
    | '.' :: cs => (cs.takeWhile Char.isDigit, cs.dropWhile Char.isDigit)
    | cs => ([], cs)
  let digits := Nat.ofDigitChars 10 (whole ++ fraction) 0
  let exponent : Option Int :=
    match tail with
    | [] => some 0
    | c :: cs => if c = 'e' ∨ c = 'E' then readExponent? cs else none
  if whole.isEmpty && fraction.isEmpty then none
  else exponent.map fun e =>
    ofDecimal negative digits (withinReach (whole.length + fraction.length) e - fraction.length)

/-- Infinity and not a number are words in either case. -/
def readUnsigned? (negative : Bool) (cs : List Char) : Option Binary64 :=
  let word := String.ofList (cs.map Char.toLower)
  if word = "inf" ∨ word = "infinity" then some (.infinite negative)
  else if word = "nan" then some .nan
  else readMagnitude? negative cs

/-- Reads a number with an optional sign. -/
def read? (text : String) : Option Binary64 :=
  match text.toList with
  | '-' :: cs => readUnsigned? true cs
  | '+' :: cs => readUnsigned? false cs
  | cs => readUnsigned? false cs

end ConfigExpr.Binary64
