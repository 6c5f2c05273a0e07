/-!
# Arithmetic operators

The four arithmetic operators in two tiers: multiplication and division bind tighter than
addition and subtraction.

## Main definitions

* `Abacus.Operator` — the four operators.
* `Abacus.Operator.symbol`, `ofSymbol?`, `ofText?` — their spelling.
* `Abacus.Operator.precedence` — how tightly an operator binds.
* `Abacus.Operator.apply` — the arithmetic, on doubles.
-/

namespace Abacus

/-- An arithmetic operator. -/
inductive Operator where
  | add
  | subtract
  | multiply
  | divide
deriving DecidableEq, Repr

namespace Operator

/-- The spelling of an operator. -/
def symbol : Operator → Char
  | add => '+'
  | subtract => '-'
  | multiply => '*'
  | divide => '/'

/-- The operator with a given spelling. -/
def ofSymbol? : Char → Option Operator
  | '+' => some add
  | '-' => some subtract
  | '*' => some multiply
  | '/' => some divide
  | _ => none

/-- The operator that a text of one character spells. -/
def ofText? (text : String) : Option Operator :=
  match text.toList with
  | [c] => ofSymbol? c
  | _ => none

/-- How tightly an operator binds. -/
def precedence : Operator → Nat
  | add | subtract => 10
  | multiply | divide => 20

/-- The operator's arithmetic.  Division by zero gives an infinity or the undefined number. -/
def apply : Operator → Float → Float → Float
  | add, x, y => x + y
  | subtract, x, y => x - y
  | multiply, x, y => x * y
  | divide, x, y => x / y

/-- An operator is found by its own spelling. -/
theorem ofSymbol?_symbol (op : Operator) : ofSymbol? op.symbol = some op := by
  cases op <;> rfl

end Operator

end Abacus
