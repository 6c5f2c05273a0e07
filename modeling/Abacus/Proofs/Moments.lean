import Mathlib.Tactic.Common
import Abacus.Proofs.Coupling

/-!
# The moments of an evaluation

What an evaluation goes through is the list of its moments: a node is about to be evaluated or has
been evaluated, a name is about to be bound, a call is about to start, has started or is about to
end.  Each moment comes with the calls in progress and with the environment that the evaluation has
come to.

A course gives the moments of an evaluation in every environment in which it may start.  The course
of one evaluation after another continues in the environment that the first one leaves, and stops
where the first one ends early.

## Main definitions

* `Abacus.Moment` — what happens, in which calls and in which environment.
* `Abacus.Course` — the moments of an evaluation.
* `Abacus.Node.moments`, `blockMoments` — the moments of the evaluation of a node and of a block.
* `Abacus.Moment.NoClash` — no name stands for something else already.
-/

namespace Abacus

/-- What happens in an evaluation. -/
inductive Event where
  | start (node : Node)
  | done (node : Node) (result : Except Stop Float)
  | bind (name : String)
  | enter (f : Function)
  | entered (f : Function)
  | leave (f : Function)

/-- What happens, with the calls in progress, innermost first, and the environment. -/
structure Moment where
  event : Event
  calls : List Function
  environment : Environment

/-- The moments of an evaluation, by the environment in which it starts. -/
abbrev Course := Environment → List Moment

namespace Course

/-- Nothing happens. -/
def silent : Course := fun _ => []

/-- The course of `x` followed by that of the evaluation that `x` gives its value to. -/
def followedBy {α : Type} (first : Course) (x : Eval α) (next : α → Course) : Course :=
  fun env => first env ++
    match x env with
    | .ok a after => next a after
    | .error _ _ => []

/-- Nothing happens after a course that nothing follows. -/
lemma followedBy_silent {α : Type} (first : Course) (x : Eval α) :
    first.followedBy x (fun _ => silent) = first := by
  funext env
  unfold followedBy
  cases x env <;> exact List.append_nil _

/-- What follows regardless of a value follows regardless of whether it counts as true. -/
lemma followedBy_holds (first : Course) (evaluate : Node → Eval Float) (condition : Node)
    (next : Course) :
    first.followedBy (Eval.holds evaluate condition) (fun _ => next) =
      first.followedBy (evaluate condition) (fun _ => next) := by
  funext env
  unfold followedBy
  rw [Eval.holds, Eval.bind_run]
  cases evaluate condition env <;> rfl

section Rules

variable (evaluate : Node → Eval Float) (course : Node → Course)

/-- Some nodes are evaluated one after the other. -/
def sequence : List Node → Course
  | [] => silent
  | node :: nodes => (course node).followedBy (evaluate node) fun _ => sequence nodes

/-- Conditions are evaluated until one holds, and then the body of that arm. -/
def choose (otherwise : Option Block) : List (Branch Node) → Course
  | [] => sequence evaluate course (otherwise.getD [])
  | branch :: branches =>
    (course branch.condition).followedBy (Eval.holds evaluate branch.condition) fun held =>
      if held then sequence evaluate course branch.body else choose otherwise branches

/-- Conditions are evaluated, and then the body as long as they hold, at most `rounds` times. -/
def rounds (conditions : List Node) (body : Block) : Nat → Course
  | 0 => sequence evaluate course conditions
  | count + 1 =>
    (sequence evaluate course conditions).followedBy (Eval.allHold evaluate conditions) fun held =>
      if held then
        (sequence evaluate course body).followedBy (Eval.block evaluate body) fun _ =>
          rounds conditions body count
      else silent

/-- A loop goes through its rounds. -/
def loop (patience : Nat) (conditions : List Node) (body : Block) : Course :=
  fun env => rounds evaluate course conditions body (Eval.mostRounds patience env) env

end Rules

/-- A call of `f` starts, runs `body`, and ends however the body ends. -/
def insideCall (calls : List Function) (f : Function) (arguments : List Float) (inner : Course)
    (body : Eval Float) : Course :=
  fun env =>
    match env.enterCall f arguments with
    | .error _ => []
    | .ok inside =>
      ⟨.enter f, calls, env⟩ :: ⟨.entered f, f :: calls, inside⟩ ::
        (inner inside ++ [⟨.leave f, f :: calls, Eval.final (body inside)⟩])

/-- The arguments of a call are evaluated, and then the body of the function. -/
def call (evaluate : Node → Eval Float) (course : List Function → Node → Course)
    (calls : List Function) (callee : String) (arguments : List Node) : Course :=
  fun env =>
    match env.functionOf callee with
    | .error _ => []
    | .ok f =>
      if f.params.length = arguments.length then
        (sequence evaluate (course calls) arguments).followedBy (Eval.values evaluate arguments)
          (fun found => insideCall calls f found (sequence evaluate (course (f :: calls)) f.body)
            (Eval.block evaluate f.body)) env
      else []

end Course

namespace Node

/-- What the rule of a node goes through, given the courses of the nodes inside it. -/
def stepMoments (patience : Nat) (evaluate : Node → Eval Float)
    (course : List Function → Node → Course) (calls : List Function) : Node → Course
  | literal _ | name _ => .silent
  | binary op left right =>
    .sequence evaluate (course calls) (left.leftmost :: (left.spine [⟨op, right⟩]).map (·.operand))
  | call callee arguments => .call evaluate course calls callee arguments
  | declare id value =>
    (course calls value).followedBy (evaluate value) fun _ env => [⟨.bind id, calls, env⟩]
  | define f => fun env => [⟨.bind f.name, calls, env⟩]
  | choose branches otherwise => .choose evaluate (course calls) otherwise branches
  | loop conditions body => .loop evaluate (course calls) patience conditions body
  | block body => .sequence evaluate (course calls) body

/-- **The moments of the evaluation of a node**, inside some calls. -/
def moments (patience : Nat) : Nat → List Function → Node → Course
  | 0, _, _ => .silent
  | depth + 1, calls, node => fun env =>
    let ended := evaluate patience (depth + 1) node env
    ⟨.start node, calls, env⟩ ::
      (stepMoments patience (evaluate patience depth) (moments patience depth) calls node env ++
        [⟨.done node (Eval.outcome ended), calls, Eval.final ended⟩])

/-- The moments of the evaluation of a block that is a whole program. -/
def blockMoments (patience : Nat) (body : Block) : Course :=
  fun env => Course.sequence (evaluate patience (env.reach body))
    (moments patience (env.reach body) []) body env

end Node

namespace Moment

/-- No name stands for something else already: a call starts only if its parameters are bound in no
frame, and a statement binds no parameter of a call in progress, unless it is the innermost. -/
def NoClash : Moment → Prop
  | ⟨.enter f, _, env⟩ => ∀ name ∈ f.params, ∀ frame ∈ env.frames, frame.contains name = false
  | ⟨.bind name, calls, _⟩ => ∀ f ∈ calls.tail, name ∉ f.params
  | _ => True

instance : DecidablePred NoClash
  | ⟨.enter f, _, env⟩ =>
    inferInstanceAs
      (Decidable (∀ name ∈ f.params, ∀ frame ∈ env.frames, frame.contains name = false))
  | ⟨.bind name, calls, _⟩ => inferInstanceAs (Decidable (∀ f ∈ calls.tail, name ∉ f.params))
  | ⟨.start _, _, _⟩ | ⟨.done _ _, _, _⟩ | ⟨.entered _, _, _⟩ | ⟨.leave _, _, _⟩ => .isTrue trivial

end Moment

end Abacus
