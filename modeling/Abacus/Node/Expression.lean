import Abacus.Node.Basic
import Abacus.Node.Cursor

/-!
# Expressions

An expression is a chain of operands with operators between them.  An operand is a number, a
name, a call, or an expression in parentheses.

The chain is grouped while it is read, by precedence climbing: an operator takes the operand after
it, unless operators that bind tighter follow, which are folded into that operand first.  Operators
of one tier lean left.

In a list of arguments a comma may be the last thing before the closing parenthesis: after a
comma another entry is tried, and if that fails right before the parenthesis the list ends.

## Main definitions

* `Abacus.Parse.operand` — one operand, given the rules for what stands in parentheses.
* `Abacus.Parse.climb` — folds operators onto a left operand while they bind tightly enough.
* `Abacus.Parse.absorb` — folds operators that bind tighter than another into its right operand.
* `Abacus.Parse.climbing` — an expression, given the rule for its operands.
* `Abacus.Parse.Entry`, `Abacus.Parse.commaList` — a list of expressions between commas.
-/

namespace Abacus

namespace Parse

variable {σ : Type} [Reading σ]

/-! ## Operands -/

/-- One operand: a number, an expression in parentheses read by `group`, or a name, with
arguments read by `arguments` if a parenthesis follows. -/
def operand (group : ParseOver σ Node) (arguments : ParseOver σ (List Node)) :
    ParseOver σ Node := do
  match ← peekKind with
  | some (.number _) => return .literal (← expectNumber)
  | some (.mark .leftParen) => group
  | some (.identifier _) =>
    let name ← expectIdentifier
    if ← acceptMark .leftParen then return .call name (← arguments)
    else return .name name
  | _ => failExpected .expression

/-! ## Precedence climbing -/

mutual

/-- Folds operators of precedence at least `least`, each with the operand after it, onto `left`.
Every call takes an operator or stops, which bounds the calls by `fuel`. -/
def climb (operand : ParseOver σ Node) (fuel least : Nat) (left : Node) : ParseOver σ Node :=
  match fuel with
  | 0 => return left
  | fuel + 1 => do
    match ← peekOperator with
    | none => return left
    | some next =>
      if least ≤ next.precedence then
        let op ← expectOperator
        let right ← operand
        let right ← absorb operand fuel op.precedence right
        climb operand fuel least (.binary op left right)
      else return left

/-- Folds operators that bind tighter than `precedence`, each with the operand after it, into
`right`. -/
def absorb (operand : ParseOver σ Node) (fuel precedence : Nat) (right : Node) : ParseOver σ Node :=
  match fuel with
  | 0 => return right
  | fuel + 1 => do
    match ← peekOperator with
    | none => return right
    | some next =>
      if precedence < next.precedence then
        let right ← climb operand fuel (precedence + 1) right
        absorb operand fuel precedence right
      else return right

end

/-- Goes on with an expression after its first operand.  Between two operators there are at most
two calls. -/
def climbFrom (operand : ParseOver σ Node) (first : Node) : ParseOver σ Node := do
  let tokens ← remaining
  climb operand (2 * tokens.length) 0 first

/-- An expression, whose operands are read by `operand`. -/
def climbing (operand : ParseOver σ Node) : ParseOver σ Node := do
  let first ← operand
  climbFrom operand first

/-! ## Lists -/

/-- An entry of a list, with the token that it starts with. -/
structure Entry where
  node : Node
  first : Token

/-- One entry of a list. -/
def entry (expression : ParseOver σ Node) : ParseOver σ Entry := do
  match ← peek with
  | none => failExpected .expression
  | some first => return ⟨← expression, first⟩

/-- Entries with commas before them, at most `count` of them.  If an entry cannot be read, the
list ends after the comma, provided that the closing parenthesis stands there. -/
def entries (expression : ParseOver σ Node) (count : Nat) : ParseOver σ (List Entry) :=
  match count with
  | 0 => return []
  | count + 1 => do
    if ← acceptMark .comma then
      match ← attempt (entry expression) with
      | .ok found => return found :: (← entries expression count)
      | .error e => if ← check (.mark .rightParen) then return [] else throw e
    else return []

/-- A list of expressions with commas between them, up to the closing parenthesis, which is left
in place. -/
def commaList (expression : ParseOver σ Node) : ParseOver σ (List Entry) := do
  if ← check (.mark .rightParen) then return []
  else
    let first ← entry expression
    let tokens ← remaining
    return first :: (← entries expression tokens.length)

/-! ## Parentheses -/

/-- An expression in parentheses. -/
def parenthesized (expression : ParseOver σ Node) : ParseOver σ Node := do
  let _ ← advance
  let inner ← expression
  expectMark .rightParen
  return inner

/-- The arguments of a call, which are read by `list`, after the opening parenthesis. -/
def arguments (list : ParseOver σ (List Entry)) : ParseOver σ (List Node) := do
  let found ← list
  expectMark .rightParen
  return found.map (·.node)

end Parse

end Abacus
