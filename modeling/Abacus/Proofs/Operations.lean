import Mathlib.Tactic.Common
import Abacus.Proofs.Termination

/-!
# Chains of operators evaluated recursively

An operator between two operands means: evaluate the left one, then the right one in the environment
that is left behind, then apply the operator.  A chain that leans left is not evaluated in this way,
since that would nest as many evaluations as the chain is long.  It is taken apart into its leftmost
operand and its links, and evaluated link after link.

Both ways come to the same, for operands of any kind and chains of any length: the same operands are
evaluated in the same order and in the same environments, so that the same failure ends both, and
every operator is applied to the same values.

## Main definitions

* `Abacus.Eval.inTurn` — an operator by the evaluations of its two operands.
* `Abacus.Node.recursiveRun` — the value of a node, with every operator evaluated in that way.

## Main results

* `Abacus.Eval.leftmost_applyLinks_spine` — taking a chain apart changes nothing.
* `Abacus.Node.recursiveRun_eq_run` — the value of a node by recursion.
* `Abacus.Node.operation_eq_recursive` — chains of operators evaluated recursively.
-/

namespace Abacus

namespace Eval

/-- An operator between two operands: the left one is evaluated, then the right one, and then the
operator is applied. -/
def inTurn (evaluate : Node → Eval Float) (op : Operator) (left right : Node) : Eval Float := do
  let x ← evaluate left
  let y ← evaluate right
  return op.apply x y

section Chains

variable {f : Node → Eval Float}
  (hf : ∀ op left right, f (.binary op left right) = operation f op left right)

include hf

/-- **Taking a chain apart changes nothing.**  If operators are evaluated as chains that lean left,
then the value of the leftmost operand with the links along the chain is the value of the chain,
and whatever links follow are applied to that.

**Proof sketch.** Induction on the chain.  Its last link is either taken off and put in front of
those that follow, or it is the only one that follows the chain on its left. -/
theorem leftmost_applyLinks_spine (node : Node) : ∀ links : List Link,
    (f node.leftmost >>= fun value => applyLinks f value (node.spine links)) =
      (f node >>= fun value => applyLinks f value links) := by
  induction node using Node.leftmost.induct with
  | case1 op left right ih =>
    intro links
    have hchain : f (.binary op left right) = inTurn f op left right := by
      rw [hf, operation, ih]
      rfl
    rw [Node.leftmost, Node.spine, ih, hchain]
    simp only [inTurn, bind_assoc, pure_bind]
    rfl
  | case2 node hnode =>
    intro links
    cases node with
    | binary op left right => exact absurd rfl (hnode op left right)
    | _ => rfl

/-- An operation is its left operand, its right operand and its operator in turn. -/
private lemma operation_eq_inTurn (op : Operator) (left right : Node) :
    operation f op left right = inTurn f op left right := by
  rw [operation, leftmost_applyLinks_spine hf]
  rfl

end Chains

end Eval

namespace Node

open Environment Eval

/-! ## Every operator by recursion -/

/-- The value of a node, given the evaluation of the nodes inside it.  An operator is evaluated by
the evaluations of its two operands. -/
def recursiveStep (patience : Nat) (evaluate : Node → Eval Float) : Node → Eval Float
  | binary op left right => inTurn evaluate op left right
  | node => step patience evaluate node

/-- The value of a node by recursion, where evaluations are nested at most `depth` deep. -/
def recursiveEvaluate (patience : Nat) : Nat → Node → Eval Float
  | 0, _ => throw .tooDeep
  | depth + 1, node =>
    recursiveStep patience (fun inner => recursiveEvaluate patience depth inner) node

/-- The value of a node by recursion. -/
def recursiveRun (patience : Nat) (node : Node) : Eval Float :=
  fun env => recursiveEvaluate patience (env.reach [node]) node env

/-- A node is evaluated by one step, in which its parts are evaluated. -/
lemma run_eq_step_run (patience : Nat) (node : Node) :
    node.run patience = node.step patience (run patience) :=
  funext (run_eq_step patience node)

/-- An operation evaluates its operands in turn. -/
lemma run_binary (patience : Nat) (op : Operator) (left right : Node) :
    (binary op left right).run patience = inTurn (run patience) op left right := by
  rw [run_eq_step_run]
  exact operation_eq_inTurn (fun op left right => run_eq_step_run patience _) op left right

variable {limits : Limits} {height : Nat}

/-- **Evaluation by recursion gives the values of nodes**, if evaluations may be nested as deeply as
the limit on calls and the heights of nodes allow.

**Proof sketch.** Induction on the room that is left.  Both operands of an operator are lower than
the operation, so there is room for both.  For all other nodes the rules are the same. -/
private lemma agree_recursiveEvaluate (patience : Nat) :
    ∀ {depth : Nat} {node : Node} {callDepth : Nat}, node.height ≤ height →
      limits.room callDepth height + node.height ≤ depth →
        Agree (Within limits callDepth height) limits.Expected (node.run patience)
          (recursiveEvaluate patience depth node) := by
  intro depth
  induction depth with
  | zero =>
    intro node callDepth _ hdepth
    have := node.height_pos
    omega
  | succ depth ih =>
    intro node callDepth hnode hdepth
    have hinner : ∀ inner : Node, inner.height < node.height →
        Agree (Within limits callDepth height) limits.Expected (inner.run patience)
          (recursiveEvaluate patience depth inner) :=
      fun inner hlt => ih (by omega) (by omega)
    have hstep : Agree (Within limits callDepth height) limits.Expected (node.run patience)
        (step patience (recursiveEvaluate patience depth) node) := by
      rw [run_eq_step_run]
      refine step_within hnode (fun inner h => hinner inner (height_lt_of_mem_parts h)) ?_
      intro hlimit inner hle
      have := Limits.room_of_lt hlimit height
      have := node.height_pos
      exact ih hle (by omega)
    cases node with
    | binary op left right =>
      rw [run_binary]
      have hleft : left.height < (binary op left right).height := by rw [Node.height]; omega
      have hright : right.height < (binary op left right).height := by rw [Node.height]; omega
      exact .bind (hinner left hleft) fun x => .bind (hinner right hright) fun y => .pure _
    | _ => exact hstep

/-- The value of a node by recursion is its value. -/
theorem recursiveRun_eq_run (patience : Nat) (node : Node) (env : Environment) :
    node.recursiveRun patience env = node.run patience env :=
  ((agree_recursiveEvaluate patience (Nat.le_max_left _ _) (room_le_reach env node)).eq
    (within_self env node)).symm

/-- **Chains of operators are evaluated as if by recursion.**  For any operator, operands of any
kind and any environment, evaluating the chain link after link has the result of evaluating the left
operand, then the right one in the environment that is left behind, and applying the operator to
both, where the first failure ends the evaluation; and it leaves the same environment.  The same
holds if every operator inside the operands, and in the bodies of all functions that are called, is
evaluated by recursion too. -/
theorem operation_eq_recursive (patience : Nat) (op : Operator) (left right : Node)
    (env : Environment) :
    operation (run patience) op left right env =
        (do
          let x ← left.run patience
          let y ← right.run patience
          return op.apply x y : Eval Float) env ∧
      operation (run patience) op left right env =
        (binary op left right).recursiveRun patience env := by
  have hrun : operation (run patience) op left right = (binary op left right).run patience :=
    (run_eq_step_run patience (binary op left right)).symm
  rw [recursiveRun_eq_run, hrun, run_binary]
  exact ⟨rfl, rfl⟩

end Node

end Abacus
