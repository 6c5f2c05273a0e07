import Abacus.Number
import Abacus.Scope.Environment

/-!
# Evaluation

Evaluating a node gives a number and may change the environment.  The first failure ends the
evaluation; what was bound before stays bound.

A program need not end, so evaluation is bounded twice.  `depth` bounds how deeply evaluations
are nested, and `Environment.reach` computes how deep that can be.  `patience` bounds the rounds of
a loop that has no limit of its own, and stands for how long a host is willing to wait.

Each form of node has a rule of its own, which is given the evaluation of the nodes inside it.
`Node.step` picks the rule, and `Node.evaluate` ties the knot.

## Main definitions

* `Abacus.Stop` — why an evaluation ends early.
* `Abacus.Eval` — an evaluation, from an environment to a result and an environment.
* `Abacus.Eval.block`, `operation`, `call`, `choose`, `loop` — the rules.
* `Abacus.Node.step`, `Abacus.Node.evaluate` — the evaluation of a node.
* `Abacus.Environment.reach` — how deeply evaluations can be nested.
* `Abacus.Node.run`, `runBlock` — the value of a node and of a block in an environment.
-/

namespace Abacus

/-- Why an evaluation ends early: the program fails, evaluations are nested deeper than allowed,
or a loop without a limit goes on for too long. -/
inductive Stop where
  | failure (e : RuntimeError)
  | tooDeep
  | tooLong
deriving DecidableEq, Repr

/-- An evaluation: it takes an environment to a result and an environment.  The environment is kept
when the evaluation ends early. -/
abbrev Eval := EStateM Stop Environment

namespace Eval

/-- Fails. -/
def fail {α : Type} (e : RuntimeError) : Eval α := throw (.failure e)

/-- The result of looking something up in the environment. -/
def find {α : Type} (look : Environment → Except RuntimeError α) : Eval α := do
  match look (← get) with
  | .ok a => return a
  | .error e => fail e

section Rules

variable (evaluate : Node → Eval Float)

/-- The values of some nodes, from left to right. -/
def values : List Node → Eval (List Float)
  | [] => return []
  | node :: nodes => do
    let value ← evaluate node
    return value :: (← values nodes)

/-- The value of a block is that of its last statement.  A block without statements has none. -/
def block : Block → Eval Float
  | [] => fail .emptyBlock
  | [last] => evaluate last
  | node :: nodes => do
    let _ ← evaluate node
    block nodes

/-- Applies operators to a value and their right operands, from left to right. -/
def applyLinks (value : Float) : List Link → Eval Float
  | [] => return value
  | link :: links => do
    let right ← evaluate link.operand
    applyLinks (link.operator.apply value right) links

/-- An operator between two operands, the left one first.  A chain that leans left is evaluated
from its left end, without nesting. -/
def operation (op : Operator) (left right : Node) : Eval Float := do
  let value ← evaluate left.leftmost
  applyLinks evaluate value (left.spine [⟨op, right⟩])

/-- Whether a condition holds. -/
def holds (condition : Node) : Eval Bool := return Number.truthy (← evaluate condition)

/-- Whether all conditions hold.  All of them are evaluated. -/
def allHold : List Node → Eval Bool
  | [] => return true
  | condition :: conditions => do
    let first ← holds evaluate condition
    let others ← allHold conditions
    return first && others

/-- Runs the body of the first arm whose condition holds.  If none does, runs `otherwise`, and
without that the value is minus one. -/
def choose (otherwise : Option Block) : List (Branch Node) → Eval Float
  | [] =>
    match otherwise with
    | some body => block evaluate body
    | none => return -1
  | branch :: branches => do
    if ← holds evaluate branch.condition then block evaluate branch.body
    else choose otherwise branches

/-- Runs the body as long as all conditions hold, at most `rounds` times; if they hold once more,
stops with `stop`.  The value is that of the last round, or `last` if there is none. -/
def rounds (stop : Stop) (conditions : List Node) (body : Block) :
    Nat → Float → Eval Float
  | 0, last => do
    if ← allHold evaluate conditions then throw stop
    else return last
  | count + 1, last => do
    if ← allHold evaluate conditions then
      let value ← block evaluate body
      rounds stop conditions body count value
    else return last

/-- A loop, whose value is zero if its body never runs.  Its rounds are limited by the environment,
or else by the host's patience. -/
def loop (patience : Nat) (conditions : List Node) (body : Block) : Eval Float := do
  match (← get).limits.rounds with
  | some limit => rounds evaluate (.failure (.iterationLimit limit)) conditions body limit 0
  | none => rounds evaluate .tooLong conditions body patience 0

/-- Runs `body` inside a call of `f`.  The call ends however the body ends. -/
def insideCall (f : Function) (arguments : List Float) (body : Eval Float) : Eval Float :=
  fun env =>
    match env.enterCall f arguments with
    | .error e => .error (.failure e) env
    | .ok inner =>
      match body inner with
      | .ok value env => .ok value (env.leaveCall f)
      | .error stop env => .error stop (env.leaveCall f)

/-- A call.  The function is looked up and the arguments are counted before they are evaluated. -/
def call (callee : String) (arguments : List Node) : Eval Float := do
  let f ← find (·.functionOf callee)
  if f.params.length = arguments.length then
    let found ← values evaluate arguments
    insideCall f found (block evaluate f.body)
  else fail (.argumentCount callee f.params.length arguments.length)

end Rules

end Eval

namespace Node

/-- The value of a node, given the evaluation of the nodes inside it.  A function definition has the
value zero, and a declaration that of its variable. -/
def step (patience : Nat) (evaluate : Node → Eval Float) : Node → Eval Float
  | literal value => return value
  | name id => Eval.find (·.valueOf id)
  | binary op left right => Eval.operation evaluate op left right
  | call callee arguments => Eval.call evaluate callee arguments
  | declare id value => do
    let value ← evaluate value
    modify (·.declare id (.number value))
    return value
  | define f => do
    modify (·.declare f.name (.function f))
    return 0
  | choose branches otherwise => Eval.choose evaluate otherwise branches
  | loop conditions body => Eval.loop evaluate patience conditions body
  | block body => Eval.block evaluate body

/-- The value of a node, where evaluations are nested at most `depth` deep. -/
def evaluate (patience : Nat) : Nat → Node → Eval Float
  | 0, _ => throw .tooDeep
  | depth + 1, node => step patience (fun inner => evaluate patience depth inner) node

end Node

/-! ## How deeply evaluations can be nested -/

/-- The height of the body of a function.  A number has none. -/
def Binding.height : Binding → Nat
  | number _ => 0
  | function f => Node.heights f.body

/-- The greatest height in a frame. -/
def Frame.height (f : Frame) : Nat := (f.entries.map (·.binding.height)).foldr max 0

namespace Environment

/-- The greatest height of a function that is bound. -/
def height (env : Environment) : Nat := (env.frames.map (·.height)).foldr max 0

/-- How deeply evaluations can be nested when some nodes are evaluated: every call that may still
be made, and the nodes themselves, can go as deep as the highest body. -/
def reach (env : Environment) (nodes : List Node) : Nat :=
  (env.limits.calls - env.callDepth + 1) * max (Node.heights nodes) env.height

end Environment

namespace Eval

/-- Runs a rule with evaluations nested as deeply as they can be for some nodes. -/
def withinReach {α : Type} (patience : Nat) (nodes : List Node)
    (rule : (Node → Eval Float) → Eval α) : Eval α :=
  fun env => rule (Node.evaluate patience (env.reach nodes)) env

end Eval

namespace Node

/-- The value of a node. -/
def run (patience : Nat) (node : Node) : Eval Float :=
  Eval.withinReach patience [node] fun evaluate => evaluate node

/-- The value of a block. -/
def runBlock (patience : Nat) (body : Block) : Eval Float :=
  Eval.withinReach patience body fun evaluate => Eval.block evaluate body

/-- Whether a condition holds. -/
def runHolds (patience : Nat) (condition : Node) : Eval Bool :=
  Eval.withinReach patience [condition] fun evaluate => Eval.holds evaluate condition

/-- Whether all conditions hold. -/
def runAllHold (patience : Nat) (conditions : List Node) : Eval Bool :=
  Eval.withinReach patience conditions fun evaluate => Eval.allHold evaluate conditions

end Node

end Abacus
