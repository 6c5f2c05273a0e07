import Abacus.Decimal.Layout
import Abacus.Json.Basic

/-!
# Numbers in JSON

How JSON texts write numbers, and what the written numbers stand for.

Reading is quick rather than exact.  Digits are gathered into a significand of 64 bits as long as
they fit, further digits only count as places, and the significand is scaled by one multiplication
or division with a power of ten.  The result can differ from the nearest double in the last place.

Writing is exact: the shortest digits that round to the double.

## Main definitions

* `Abacus.Json.Numeral` — the parts of a written number.
* `Abacus.Json.Numeral.read?` — reads a number off the front of a text.
* `Abacus.Json.Numeral.toFloat`, `toJson` — what a written number stands for.
* `Abacus.Json.realText` — how a double is written.
-/

namespace Abacus

namespace Json

/-- The parts of a written number: digits before and after the point, and the power of ten.  There
are no digits after the point if there is no point. -/
structure Numeral where
  negative : Bool
  whole : List Char
  fraction : List Char
  exponent : Option Int
deriving DecidableEq, Repr

namespace Numeral

/-! ## Reading the parts -/

/-- Reads the digits before the point: a zero alone, or digits that start with another one. -/
def whole? : List Char → Option (List Char × List Char)
  | '0' :: cs =>
    match cs with
    | c :: _ => if c.isDigit then none else some (['0'], cs)
    | [] => some (['0'], cs)
  | cs =>
    match cs.takeWhile Char.isDigit with
    | [] => none
    | digits => some (digits, cs.dropWhile Char.isDigit)

/-- Reads a fraction, which may be absent; after a point there is at least one digit. -/
def fraction? : List Char → Option (List Char × List Char)
  | '.' :: cs =>
    match cs.takeWhile Char.isDigit with
    | [] => none
    | digits => some (digits, cs.dropWhile Char.isDigit)
  | cs => some ([], cs)

/-- Reads a power of ten, which may be absent; after the mark there is at least one digit. -/
def exponent? : List Char → Option (Option Int × List Char)
  | [] => some (none, [])
  | mark :: cs =>
    if mark = 'e' || mark = 'E' then
      let (negative, rest) := Decimal.takeSign cs
      match rest.takeWhile Char.isDigit with
      | [] => none
      | digits =>
        let size : Int := Decimal.digitsValue digits
        some (some (if negative then -size else size), rest.dropWhile Char.isDigit)
    else some (none, mark :: cs)

/-- Reads a number off the front of a text. -/
def read? (text : List Char) : Option (Numeral × List Char) := do
  let (negative, cs) := match text with
    | '-' :: cs => (true, cs)
    | cs => (false, cs)
  let (whole, cs) ← whole? cs
  let (fraction, cs) ← fraction? cs
  let (exponent, cs) ← exponent? cs
  return (⟨negative, whole, fraction, exponent⟩, cs)

/-! ## What the parts stand for -/

/-- The bound of a significand of 64 bits. -/
def significandBound : Nat := Nat.pow 2 64

/-- Appends digits to a significand as long as it fits into 64 bits: the significand, and the digits
that no longer fit. -/
def gather (significand : Nat) : List Char → Nat × List Char
  | [] => (significand, [])
  | d :: ds =>
    let next := 10 * significand + Decimal.digitValue d
    if next < significandBound then gather next ds else (significand, d :: ds)

/-- A power of ten, rounded to the nearest double. -/
def tenTo (n : Nat) : Float := Float.ofScientific 1 false n

/-- Divides by `10 ^ n`, in steps of at most `10 ^ 308`. -/
def scaleDown (x : Float) (n : Nat) : Float :=
  if n ≤ 308 then x / tenTo n
  else if x == 0 then x
  else scaleDown (x / tenTo 308) (n - 308)
termination_by n

/-- Multiplies by `10 ^ e`. -/
def scale (x : Float) (e : Int) : Float :=
  if e < 0 then scaleDown x e.natAbs
  else if e ≤ 308 then x * tenTo e.natAbs
  else if x == 0 then x
  else 1 / 0

/-- The double that a written number stands for, an infinity if it is too large. -/
def toFloat (n : Numeral) : Float :=
  let (significand, skipped) := gather 0 n.whole
  let (significand, unread) := gather significand n.fraction
  let places : Int := skipped.length - (n.fraction.length - unread.length)
  let x := scale (Float.ofNat significand) (n.exponent.getD 0 + places)
  if n.negative then -x else x

/-- The value that a written number stands for, where `double` gives the doubles: the natural number
if it is written as one and fits into 64 bits, and else a double. -/
def toJson (double : Numeral → Float) (n : Numeral) : Json :=
  let value := Decimal.digitsValue n.whole
  if !n.negative && n.fraction.isEmpty && n.exponent.isNone && value < significandBound then
    natural value
  else real (double n)

end Numeral

/-! ## Writing -/

/-- How a double is written: in positional notation with a fractional part if the first digit is at
most five places after the point and at most sixteen before it, and else with a power of ten.
Between two equally near candidates the even one is taken.  Infinities and the undefined number have
no written form and become null. -/
def realText (x : Float) : List Char :=
  if x.isNaN || x.isInf then ['n', 'u', 'l', 'l']
  else
    let sign := if x.toBits.toNat < Nat.pow 2 63 then [] else ['-']
    if x == 0 then sign ++ ['0', '.', '0']
    else
      let d := Decimal.shortest .even x
      if -5 ≤ d.exponent && d.exponent ≤ 15 then sign ++ d.positional ['.', '0']
      else sign ++ d.scientific

end Json

end Abacus
