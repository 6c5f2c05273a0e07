import Abacus.Decimal.Layout

/-!
# Numbers of the language

Every value of the language is a double.  This module holds what the language itself says
about numbers: when one counts as true, and how one is written for a reader.

## Main definitions

* `Abacus.Number.truthy` — a number counts as true when it is at least one.
* `Abacus.Number.text` — the shortest digits that read back, in positional notation.
-/

namespace Abacus

namespace Number

/-- A number counts as true when it is at least one.  Zero, negative numbers, proper fractions
and the undefined number count as false. -/
def truthy (x : Float) : Bool := 1 ≤ x

/-- The text of a number: the shortest digits that read back, never with a power of ten, and
without a fractional part when whole.  Between two equally near candidates the upper is
taken. -/
def text (x : Float) : String :=
  if x.isNaN then "NaN"
  else
    let sign := if x.toBits.toNat < Nat.pow 2 63 then "" else "-"
    if x.isInf then sign ++ "inf"
    else if x == 0 then sign ++ "0"
    else sign ++ String.ofList ((Decimal.shortest .up x).positional [])

end Number

end Abacus
