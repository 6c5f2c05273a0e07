import Mathlib.Tactic.Common
import Abacus.Proofs.Undeclared

/-!
# What evaluation fails for

Every failure of an evaluation has its cause in the code in play: the node that is evaluated, the
functions that are bound in the environment, and all that is inside them.  However deep in calls a
failure comes up, and however often functions are bound anew on the way, a name that is missing is
looked up somewhere in that code, a call with a wrong number of arguments stands in it, and so on.
So a host that finds no cause in the code can rely on the failure not to happen.

What carries the proof is that nothing else can come into play: a function that is bound while the
node is evaluated is defined in the code in play.

## Main definitions

* `Abacus.Environment.codeInPlay`, `blocksInPlay` — the nodes and blocks that an evaluation can come
  to.
* `Abacus.Environment.Caused` — a failure that has its cause in the code in play.
* `Abacus.Environment.Inherits` — an environment in which only code in play is bound.

## Main results

* `Abacus.Environment.Inherits.declare`, `inside`, `leaveCall` — nothing else comes into play.
* `Abacus.Node.keeps_inherits_evaluate` — every failure of an evaluation has its cause.
* `Abacus.Node.failure_has_cause` — every failure of a node has its cause.
-/

namespace Abacus

/-! ## The code in play -/

/-- The definition of a function that is bound, with all nodes inside it. -/
def Binding.code : Binding → List Node
  | number _ => []
  | function fn => (Node.define fn).subnodes

/-- The functions of a binding are those that its code defines. -/
lemma Binding.mem_functions_iff {b : Binding} {fn : Function} :
    fn ∈ b.functions ↔ Node.define fn ∈ b.code := by
  cases b with
  | number value => simp [functions, code]
  | function bound => exact Node.mem_functions_iff

namespace Environment

/-- The nodes that the evaluation of a node can come to: the node and the definitions of the
functions that are bound in any frame, with all nodes inside them. -/
def codeInPlay (env : Environment) (node : Node) : List Node :=
  node.subnodes ++ env.frames.flatMap fun frame => frame.entries.flatMap (·.binding.code)

/-- The blocks in the code in play, bodies of functions among them. -/
def blocksInPlay (env : Environment) (node : Node) : List Block :=
  (env.codeInPlay node).flatMap Node.blocks ++ (env.functionsInPlay node).map (·.body)

/-- A failure of the evaluation of a node that has its cause in the code in play. -/
inductive Caused (env : Environment) (node : Node) : RuntimeError → Prop
  /-- The variable that is missing is looked up. -/
  | missingVariable {id : String} :
      Node.name id ∈ env.codeInPlay node → Caused env node (.notDefined id)
  /-- The function that is missing is called. -/
  | missingFunction {callee : String} {arguments : List Node} :
      Node.call callee arguments ∈ env.codeInPlay node → Caused env node (.notDefined callee)
  /-- The function is called with as many arguments as are found, and another number is expected. -/
  | argumentCount {callee : String} {arguments : List Node} {expected : Nat} :
      Node.call callee arguments ∈ env.codeInPlay node → expected ≠ arguments.length →
        Caused env node (.argumentCount callee expected arguments.length)
  /-- There is an empty block. -/
  | emptyBlock : [] ∈ env.blocksInPlay node → Caused env node .emptyBlock
  /-- There is a function of the name, and the limit is the one on calls. -/
  | callDepth {fn : Function} :
      fn ∈ env.functionsInPlay node → Caused env node (.callDepth fn.name env.limits.calls)
  /-- There is a loop, and the limit is the one on rounds. -/
  | iterationLimit {limit : Nat} {conditions : List Node} {body : Block} :
      Node.loop conditions body ∈ env.codeInPlay node → env.limits.rounds = some limit →
        Caused env node (.iterationLimit limit)

variable {env current : Environment} {node : Node}

/-- The functions in play are those that the code in play defines. -/
lemma mem_functionsInPlay_iff {fn : Function} :
    fn ∈ env.functionsInPlay node ↔ Node.define fn ∈ env.codeInPlay node := by
  simp only [functionsInPlay, codeInPlay, functions, List.mem_append, List.mem_flatMap,
    Node.mem_functions_iff, Binding.mem_functions_iff]

/-- The blocks of code in play are in play. -/
lemma mem_blocksInPlay_of_mem_blocks {inner : Node} {body : Block}
    (hinner : inner ∈ env.codeInPlay node) (h : body ∈ inner.blocks) :
    body ∈ env.blocksInPlay node :=
  List.mem_append_left _ (List.mem_flatMap.2 ⟨inner, hinner, h⟩)

/-- The body of a function in play is in play. -/
private lemma mem_blocksInPlay_of_define {fn : Function}
    (h : Node.define fn ∈ env.codeInPlay node) : fn.body ∈ env.blocksInPlay node :=
  List.mem_append_right _ (List.mem_map_of_mem (mem_functionsInPlay_iff.2 h))

/-! ## Nothing else comes into play -/

/-- An environment that the evaluation of `node` in `env` can come to: the limits are the same, and
the functions that are bound are code in play. -/
structure Inherits (env : Environment) (node : Node) (current : Environment) : Prop where
  limits_eq : current.limits = env.limits
  every : current.Every fun b => b.code ⊆ env.codeInPlay node

namespace Inherits

/-- An environment inherits from itself. -/
lemma refl (env : Environment) (node : Node) : Inherits env node env := by
  refine ⟨rfl, fun frame hframe entry hentry inner hinner => ?_⟩
  apply List.mem_append_right
  exact List.mem_flatMap.2 ⟨frame, hframe, List.mem_flatMap.2 ⟨entry, hentry, hinner⟩⟩

/-- Declaring something whose code is in play adds no code. -/
theorem declare (h : Inherits env node current) (id : String) {b : Binding}
    (hb : b.code ⊆ env.codeInPlay node) : Inherits env node (current.declare id b) :=
  ⟨(congrArg Shape.limits (shape_declare current id b)).trans h.limits_eq, h.every.declare id hb⟩

/-- Entering a body adds no code. -/
theorem inside (h : Inherits env node current) (params : List String) (arguments : List Float) :
    Inherits env node (current.inside params arguments) := by
  have hlimits := congrArg Shape.limits (shape_inside current params arguments)
  rw [Shape.limits_entered] at hlimits
  exact ⟨hlimits.trans h.limits_eq,
    h.every.inside (fun _ => List.nil_subset _) params arguments⟩

/-- Leaving a call adds no code. -/
theorem leaveCall (h : Inherits env node current) (fn : Function) :
    Inherits env node (current.leaveCall fn) := by
  have hlimits := congrArg Shape.limits (shape_leaveCall current fn)
  rw [Shape.limits_left] at hlimits
  exact ⟨hlimits.trans h.limits_eq, h.every.leaveCall fn⟩

/-- A function that is found is code in play. -/
lemma functionOf (h : Inherits env node current) {callee : String} {fn : Function}
    (hfn : current.functionOf callee = .ok fn) :
    (Node.define fn).subnodes ⊆ env.codeInPlay node :=
  h.every.functionOf hfn

end Inherits

/-! ## What can go wrong in one step -/

/-- Looking up a value fails only for a name that is not defined. -/
private lemma eq_notDefined_of_valueOf {id : String} {e : RuntimeError}
    (h : current.valueOf id = .error e) : e = .notDefined id := by
  unfold valueOf at h
  split at h
  · cases h
  · cases h
    rfl

/-- Looking up a function fails only for a name that is not defined. -/
private lemma eq_notDefined_of_functionOf {callee : String} {e : RuntimeError}
    (h : current.functionOf callee = .error e) : e = .notDefined callee := by
  unfold functionOf at h
  split at h
  · cases h
  · cases h
    rfl

/-- Entering a call fails only for the limit on calls. -/
private lemma eq_callDepth_of_enterCall {fn : Function} {arguments : List Float} {e : RuntimeError}
    (h : current.enterCall fn arguments = .error e) :
    e = .callDepth fn.name current.limits.calls := by
  unfold enterCall at h
  split at h
  · cases h
    rfl
  · cases h

/-- A reason to end early that has its cause in the code in play, if it is a failure. -/
def CausedStop (env : Environment) (node : Node) (stop : Stop) : Prop :=
  ∀ e, stop = .failure e → env.Caused node e

/-- What causes an error causes evaluation to stop with it. -/
lemma Caused.stop {e : RuntimeError} (h : env.Caused node e) :
    env.CausedStop node (.failure e) := by
  intro e' he
  cases he
  exact h

end Environment

open Environment Eval

namespace Node

variable {env : Environment} {node : Node}

/-- What a node of the code in play binds is code in play. -/
private lemma code_subset_of_binds {inner : Node} (h : inner.subnodes ⊆ env.codeInPlay node)
    {id : String}
    {b : Binding} (hbinds : inner.Binds id b) : b.code ⊆ env.codeInPlay node := by
  cases inner with
  | declare bound value =>
    obtain ⟨-, number, rfl⟩ := hbinds
    exact List.nil_subset _
  | define fn =>
    obtain ⟨-, rfl⟩ := hbinds
    exact h
  | _ => exact hbinds.elim

/-- A loop of the code in play ends early for its limit, if that is a failure. -/
private lemma causedStop_roundsStop {current : Environment} (h : Inherits env node current)
    {conditions : List Node} {body : Block} (hloop : loop conditions body ∈ env.codeInPlay node) :
    env.CausedStop node (roundsStop current) := by
  unfold roundsStop
  split
  · next limit hlimit =>
    rw [h.limits_eq] at hlimit
    exact (Caused.iterationLimit hloop hlimit).stop
  · intro e he
    cases he

/-- **A call keeps to the code in play** if its body does, and fails to start only for the limit on
calls. -/
private lemma keeps_inherits_insideCall {fn : Function} {found : List Float} {body : Eval Float}
    (hfn : define fn ∈ env.codeInPlay node)
    (hbody : Keeps (Inherits env node) (env.CausedStop node) body) :
    Keeps (Inherits env node) (env.CausedStop node) (Eval.insideCall fn found body) := by
  refine Coupled.insideCall ?_ ?_ hbody ?_
  · rintro current _ entered ⟨rfl, h⟩ henter
    refine ⟨entered, henter, rfl, ?_⟩
    obtain ⟨-, rfl⟩ := enterCall_eq_ok_iff.1 henter
    exact h.inside fn.params found
  · rintro current _ e ⟨rfl, h⟩ henter
    refine .inl ⟨?_, henter⟩
    rw [eq_callDepth_of_enterCall henter, h.limits_eq]
    exact (Caused.callDepth (mem_functionsInPlay_iff.2 hfn)).stop
  · rintro current _ ⟨rfl, h⟩
    exact ⟨rfl, h.leaveCall fn⟩

/-- **Every failure of an evaluation has its cause** in the code in play, and no other code comes
into play.

**Proof sketch.** Induction on how deeply evaluations may be nested.  What the rule of a node looks
up, runs and binds is in the node.  A function that it calls has been bound, so its body is code in
play as well. -/
theorem keeps_inherits_evaluate (patience depth : Nat) :
    ∀ {inner : Node}, inner.subnodes ⊆ env.codeInPlay node →
      Keeps (Inherits env node) (env.CausedStop node) (evaluate patience depth inner) := by
  induction depth with
  | zero =>
    intro inner _
    exact .throw fun e he => by cases he
  | succ depth ih =>
    intro inner hinner
    have hself : inner ∈ env.codeInPlay node := hinner (mem_subnodes_self inner)
    have hparts : ∀ part ∈ inner.parts, Keeps (Inherits env node) (env.CausedStop node)
        (evaluate patience depth part) := fun part hpart =>
      ih (List.Subset.trans (subnodes_subset_of_mem_parts hpart) hinner)
    refine step_coupled hparts ?_ ?_ ?_ ?_ ?_
    · exact fun hempty => (Caused.emptyBlock (mem_blocksInPlay_of_mem_blocks hself hempty)).stop
    · rintro id rfl
      refine .find ?_ ?_
      · rintro current _ ⟨rfl, -⟩
        rfl
      · intro current _ e _ hmissing
        rw [eq_notDefined_of_valueOf hmissing]
        exact (Caused.missingVariable hself).stop
    · rintro id b hbinds current _ ⟨rfl, h⟩
      exact ⟨rfl, h.declare id (code_subset_of_binds hinner hbinds)⟩
    · rintro callee arguments rfl
      refine .call ?_ ?_ ?_ hparts ?_
      · rintro current _ ⟨rfl, -⟩
        rfl
      · intro current _ e _ hmissing
        rw [eq_notDefined_of_functionOf hmissing]
        exact (Caused.missingFunction hself).stop
      · intro current _ fn _ _ hcount
        exact (Caused.argumentCount hself hcount).stop
      · intro current _ fn hboth hfn _ found
        have hcode := hboth.2.functionOf hfn
        have hdefine := hcode (mem_subnodes_self (define fn))
        refine keeps_inherits_insideCall hdefine (.block (fun hempty => ?_) fun part hpart => ?_)
        · have hbody := mem_blocksInPlay_of_define hdefine
          rw [hempty] at hbody
          exact (Caused.emptyBlock hbody).stop
        · exact ih (List.Subset.trans (subnodes_subset_of_mem_body hpart) hcode)
    · rintro conditions body rfl
      have hempty : body = [] → env.CausedStop node (.failure .emptyBlock) := by
        rintro rfl
        exact (Caused.emptyBlock (mem_blocksInPlay_of_mem_blocks hself (by simp [blocks]))).stop
      refine .loop hempty (fun part h => hparts part (List.mem_append_left _ h))
        (fun part h => hparts part (List.mem_append_right _ h)) ?_
      rintro current _ ⟨rfl, h⟩
      exact .inl ⟨causedStop_roundsStop h hself, rfl, rfl⟩

/-- **Every failure has its cause in the code that could run.**  If the evaluation of a node fails,
in any environment, then a name that is not defined is looked up or called in the code in play, a
call with the number of arguments that was found stands there and another number was expected, an
empty block stands there, the limit on calls is the environment's and a function in play has the
reported name, or the limit on rounds is the environment's and a loop stands there. -/
theorem failure_has_cause {patience : Nat} {e : RuntimeError}
    (h : outcome (node.run patience env) = .error (.failure e)) : env.Caused node e := by
  have hnode : node.subnodes ⊆ env.codeInPlay node := List.subset_append_left _ _
  have hkeeps := keeps_inherits_evaluate patience (env.reach [node]) hnode
  exact hkeeps.ends (Inherits.refl env node) h e rfl

/-- A function that binds another one in place of a third and calls it: the function that is missing
is called nowhere but in the body of the function that is bound on the way. -/
theorem failure_has_cause_rebound :
    let g : Function := ⟨"g", ["x"], [.call "h" [.name "x", .name "x"]]⟩
    let f : Function := ⟨"f", [], [.define g, .call "g" [.literal 1]]⟩
    let env : Environment :=
      ⟨⟨[⟨"f", .function f⟩, ⟨"g", .function ⟨"g", [], []⟩⟩]⟩, [], .frames, ⟨3, 1, none⟩, 0⟩
    let node : Node := .loop [] [.call "f" []]
    outcome (node.run 1 env) = .error (.failure (.notDefined "h")) ∧
      env.Caused node (.notDefined "h") := by
  intro g f env node
  have hfails : outcome (node.run 1 env) = .error (.failure (.notDefined "h")) := rfl
  exact ⟨hfails, failure_has_cause hfails⟩

end Node

end Abacus
