import Abacus.Decimal.Basic

/-!
# The shortest digits of a double

Every finite double is the rounding of an interval of reals around it.  Its shortest digits are
the fewest decimal digits that name a point of that interval, and among equally few those
nearest to the double.

The search is exact: a positive double is a fraction of natural numbers, and so are the ends of
its interval.  For one digit, two digits and so on, the two neighbours of the double on the
decimal grid of that many digits are tested against the interval.

## Main definitions

* `Abacus.Decimal.Interval` — a positive double with the ends of its rounding interval.
* `Abacus.Decimal.Interval.ofFloat` — the interval of a double, from its bits.
* `Abacus.Decimal.Tie` — which of two equally near neighbours is taken.
* `Abacus.Decimal.Digits`, `Abacus.Decimal.shortest` — the digits and the place of the first.
-/

namespace Abacus

namespace Decimal

/-- Which neighbour is taken when a number lies exactly between two. -/
inductive Tie where
  | up
  | even
deriving DecidableEq, Repr

/-- A positive rational `value / unit` with the ends `low / unit` and `high / unit` of the
interval of reals that round to it; `closed` tells whether the ends belong to the interval. -/
structure Interval where
  value : Nat
  low : Nat
  high : Nat
  unit : Nat
  closed : Bool
deriving DecidableEq, Repr

namespace Interval

/-- The interval of `significand · 2 ^ exponent`.  Its ends lie half a step above and below,
and only a quarter of a step below when the next smaller double is in the finer binade. -/
def ofBinary (significand : Nat) (exponent : Int) (finerBelow : Bool) : Interval :=
  let step := Nat.pow 2 (exponent - 2).toNat
  { value := 4 * significand * step
    low := (4 * significand - if finerBelow then 1 else 2) * step
    high := (4 * significand + 2) * step
    unit := Nat.pow 2 (2 - exponent).toNat
    closed := significand % 2 == 0 }

/-- The interval of the absolute value of a finite double. -/
def ofFloat (x : Float) : Interval :=
  let bits := x.toBits.toNat
  let hidden := Nat.pow 2 52
  let fraction : Nat := bits % hidden
  let biased : Nat := bits / hidden % Nat.pow 2 11
  if biased = 0 then ofBinary fraction (-1074) false
  else ofBinary (hidden + fraction) ((biased : Int) - 1075) (fraction == 0 && 1 < biased)

/-- Whether `c · 10 ^ place` lies in the interval. -/
def holds (i : Interval) (c : Nat) (place : Int) : Bool :=
  let point := c * Nat.pow 10 place.toNat * i.unit
  let scale := Nat.pow 10 (-place).toNat
  if i.closed then i.low * scale ≤ point && point ≤ i.high * scale
  else i.low * scale < point && point < i.high * scale

/-- The largest `c` with `c · 10 ^ place` at most the value. -/
def floorAt (i : Interval) (place : Int) : Nat :=
  i.value * Nat.pow 10 (-place).toNat / (i.unit * Nat.pow 10 place.toNat)

/-- The position of the value between its two neighbours `c` and `c + 1` on the grid
`10 ^ place`: before, at or after the middle. -/
def middle (i : Interval) (c : Nat) (place : Int) : Ordering :=
  compare (2 * i.value * Nat.pow 10 (-place).toNat)
    ((2 * c + 1) * Nat.pow 10 place.toNat * i.unit)

/-- The neighbour of the value on the grid `10 ^ place` that lies in the interval, the nearer
one if both do. -/
def neighbour? (tie : Tie) (i : Interval) (place : Int) : Option Nat :=
  let below := i.floorAt place
  match i.holds below place, i.holds (below + 1) place with
  | true, true =>
    match i.middle below place, tie with
    | .lt, _ => some below
    | .gt, _ => some (below + 1)
    | .eq, .up => some (below + 1)
    | .eq, .even => some (if below % 2 = 0 then below else below + 1)
  | true, false => some below
  | false, true => some (below + 1)
  | false, false => none

/-- The number `k` of places before the point: `10 ^ (k - 1) ≤ value / unit < 10 ^ k`. -/
def places (i : Interval) : Int :=
  if i.unit ≤ i.value then (digitsOf (i.value / i.unit)).length
  else 1 - (digitsOf (i.unit / i.value)).length

end Interval

/-- The digits `d₀ d₁ …` of the number `d₀.d₁… · 10 ^ exponent`. -/
structure Digits where
  digits : List Char
  exponent : Int
deriving DecidableEq, Repr

/-- The digits of `c · 10 ^ place`, without zeros at the end. -/
def Digits.ofNat (c : Nat) (place : Int) : Digits :=
  let ds := digitsOf c
  { digits := (ds.reverse.dropWhile (· == '0')).reverse
    exponent := place + ds.length - 1 }

/-- The shortest digits of the absolute value of a finite double other than zero.  Seventeen
digits always name a point of the interval. -/
def shortest (tie : Tie) (x : Float) : Digits :=
  let i := Interval.ofFloat x
  let attempt (count : Nat) : Option Digits :=
    let place := i.places - (count + 1 : Nat)
    (i.neighbour? tie place).map (Digits.ofNat · place)
  ((List.range 17).findSome? attempt).getD ⟨['0'], 0⟩

end Decimal

end Abacus
