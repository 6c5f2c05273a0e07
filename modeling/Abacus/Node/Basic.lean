import Abacus.Operator

/-!
# Programs

A program is a list of nodes.  A node is an expression or a statement, and every node has a
value.  The types do not keep the two apart: a statement may stand where an expression does.

## Main definitions

* `Abacus.Branch`, `Abacus.FunctionOf` — the parts of a node that themselves hold nodes.
* `Abacus.Node`, `Abacus.Block`, `Abacus.Function` — programs.
* `Abacus.Link` — an operator with its right operand.
* `Abacus.Node.leftmost`, `Abacus.Node.spine` — the operands of a chain that leans left.
* `Abacus.Node.height` — how deeply a node is nested.
-/

namespace Abacus

/-- An arm of a conditional: a condition, and what is run if it holds. -/
structure Branch (ν : Type) where
  condition : ν
  body : List ν

/-- A function over nodes of the type `ν`: a name, the names of the parameters and a body. -/
structure FunctionOf (ν : Type) where
  name : String
  params : List String
  body : List ν

/-- A node of a program. -/
inductive Node where
  /-- A number. -/
  | literal (value : Float)
  /-- The value of a variable. -/
  | name (id : String)
  /-- An operator between two operands. -/
  | binary (op : Operator) (left right : Node)
  /-- The value of a function at some arguments. -/
  | call (callee : String) (arguments : List Node)
  /-- Binds a variable. -/
  | declare (id : String) (value : Node)
  /-- Binds a function. -/
  | define (function : FunctionOf Node)
  /-- Runs the body of the first arm whose condition holds, or the last body if none does. -/
  | choose (branches : List (Branch Node)) (otherwise : Option (List Node))
  /-- Runs a body as long as all conditions hold. -/
  | loop (conditions : List Node) (body : List Node)
  /-- Runs a block. -/
  | block (body : List Node)

/-- A list of nodes that are run one after the other. -/
abbrev Block := List Node

/-- A function of the language. -/
abbrev Function := FunctionOf Node

/-- An operator with its right operand. -/
structure Link where
  operator : Operator
  operand : Node

namespace Node

/-! ## Chains that lean left -/

/-- The operand at the left end of a chain of operators that leans left. -/
def leftmost : Node → Node
  | binary _ left _ => leftmost left
  | node => node

/-- The operators of a chain that leans left with their right operands, from left to right, put
before `links`. -/
def spine : Node → List Link → List Link
  | binary op left right, links => spine left (⟨op, right⟩ :: links)
  | _, links => links

/-! ## Height -/

mutual

/-- How deeply a node is nested.  Bodies of functions count as part of their definition. -/
def height : Node → Nat
  | literal _ => 1
  | name _ => 1
  | binary _ left right => max left.height right.height + 1
  | call _ arguments => heights arguments + 1
  | declare _ value => value.height + 1
  | define ⟨_, _, body⟩ => heights body + 1
  | choose branches none => branchHeights branches + 1
  | choose branches (some body) => max (branchHeights branches) (heights body) + 1
  | loop conditions body => max (heights conditions) (heights body) + 1
  | block body => heights body + 1

/-- The greatest height in a list of nodes. -/
def heights : List Node → Nat
  | [] => 0
  | node :: nodes => max node.height (heights nodes)

/-- The greatest height in the arms of a conditional. -/
def branchHeights : List (Branch Node) → Nat
  | [] => 0
  | ⟨condition, body⟩ :: branches =>
    max (max condition.height (heights body)) (branchHeights branches)

end

end Node

end Abacus
