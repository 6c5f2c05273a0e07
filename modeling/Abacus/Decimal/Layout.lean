import Abacus.Decimal.Shortest

/-!
# Layouts of a number's digits

How a run of digits and the place of the first are written down: in positional notation, or as
one digit before the point and a power of ten after a mark.

## Main definitions

* `Abacus.Decimal.Digits.positional` — positional notation.
* `Abacus.Decimal.Digits.scientific` — a power of ten, its sign always written.
-/

namespace Abacus

namespace Decimal

namespace Digits

/-- Positional notation.  A whole number ends in `whole`, which is empty or a point and a
zero. -/
def positional (whole : List Char) (d : Digits) : List Char :=
  let count : Int := d.digits.length
  if d.exponent < 0 then
    '0' :: '.' :: List.replicate (-d.exponent - 1).toNat '0' ++ d.digits
  else if count ≤ d.exponent + 1 then
    d.digits ++ List.replicate (d.exponent + 1 - count).toNat '0' ++ whole
  else
    let before := (d.exponent + 1).toNat
    d.digits.take before ++ '.' :: d.digits.drop before

/-- One digit, the others after a point, and the power of ten with a sign. -/
def scientific (d : Digits) : List Char :=
  let fraction := match d.digits.drop 1 with
    | [] => []
    | more => '.' :: more
  let sign := if d.exponent < 0 then '-' else '+'
  d.digits.take 1 ++ fraction ++ 'e' :: sign :: digitsOf d.exponent.natAbs

end Digits

end Decimal

end Abacus
