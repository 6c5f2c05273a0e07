/-!
# Decimal numerals

A decimal numeral is a sign, a whole coefficient and a power of ten.  Scripts, settings and
printed results all write numbers this way; the machine computes with doubles.  This module
reads numerals from text and rounds a numeral to the nearest double.

## Main definitions

* `Abacus.Decimal` — sign, coefficient and exponent of ten.
* `Abacus.Decimal.digitsValue` — the value of a run of decimal digits.
* `Abacus.Decimal.ofChars?` — reads `[+-] digits [. digits] [e [+-] digits]`.
* `Abacus.Decimal.toFloat` — the nearest double.
-/

namespace Abacus

/-- The number `± coefficient · 10 ^ exponent`.  The sign is kept apart, so that a negative zero
can be written. -/
structure Decimal where
  negative : Bool
  coefficient : Nat
  exponent : Int
deriving DecidableEq, Repr

namespace Decimal

/-- The value of a decimal digit. -/
def digitValue (c : Char) : Nat := c.toNat - '0'.toNat

/-- The value of a run of decimal digits, most significant first. -/
def digitsValue (ds : List Char) : Nat := ds.foldl (fun n d => 10 * n + digitValue d) 0

/-- The decimal digits of a natural number, most significant first. -/
def digitsOf (n : Nat) : List Char := Nat.toDigits 10 n

/-- The numeral with the digits `whole` before the point and `fraction` after it, times
`10 ^ scale`. -/
def ofDigits (negative : Bool) (whole fraction : List Char) (scale : Int) : Decimal where
  negative := negative
  coefficient := digitsValue (whole ++ fraction)
  exponent := scale - fraction.length

/-! ## Reading -/

/-- Reads an optional sign: whether it was a minus, and the rest. -/
def takeSign : List Char → Bool × List Char
  | '-' :: cs => (true, cs)
  | '+' :: cs => (false, cs)
  | cs => (false, cs)

/-- Reads the exponent part of a numeral, which may be absent; it takes up all of the text. -/
def exponentOf? : List Char → Option Int
  | [] => some 0
  | mark :: cs =>
    let (negative, ds) := takeSign cs
    if (mark == 'e' || mark == 'E') && !ds.isEmpty && ds.all Char.isDigit then
      some (if negative then -(digitsValue ds : Int) else digitsValue ds)
    else none

/-- Reads a numeral that takes up all of the text: an optional sign, digits with an optional
point among, before or after them, and an optional exponent. -/
def ofChars? (text : List Char) : Option Decimal :=
  let (negative, cs) := takeSign text
  let whole := cs.takeWhile Char.isDigit
  let (fraction, tail) := match cs.dropWhile Char.isDigit with
    | '.' :: more => (more.takeWhile Char.isDigit, more.dropWhile Char.isDigit)
    | more => ([], more)
  if whole.isEmpty && fraction.isEmpty then none
  else (exponentOf? tail).map (ofDigits negative whole fraction)

/-! ## Rounding to a double -/

/-- The double nearest to `coefficient · 10 ^ exponent`, ties to the even significand.

A numeral of more than 310 places before the point is beyond the largest double, and one whose
first digit stands after the 330th place is below half the least double; these are answered
before a power of ten is formed. -/
def magnitude (d : Decimal) : Float :=
  let places : Int := (digitsOf d.coefficient).length + d.exponent
  if d.coefficient = 0 || places < -330 then 0
  else if 310 < places then 1 / 0
  else Float.ofScientific d.coefficient (d.exponent < 0) d.exponent.natAbs

/-- The double nearest to the numeral, with its sign. -/
def toFloat (d : Decimal) : Float :=
  if d.negative then -d.magnitude else d.magnitude

end Decimal

end Abacus
