import Mathlib.Tactic.Common
import Abacus.Proofs.Moments

/-!
# What holds along a course

A law says something about an environment in which something starts, about the moments that it goes
through, and about the environment in which it ends.  If a law composes, then it holds of an
evaluation as soon as it holds of what the evaluation is put together from: of every name that a
statement binds and of every call.

Every rule of evaluation follows a law if the evaluations of the inner nodes do.
`Node.step_follows` gathers the rules, and `Node.evaluate_follows` adds the moments in which the
evaluation of a node starts and is done.

## Main definitions

* `Abacus.Law`, `Abacus.Law.Composes` — laws, and laws that compose.
* `Abacus.Eval.Follows` — an evaluation follows a law along its course.

## Main results

* `Abacus.Eval.Follows.bind`, `call`, `insideCall` — one evaluation after the other, and calls.
* `Abacus.Node.step_follows` — all rules.
* `Abacus.Node.evaluate_follows` — the evaluation of a node.
-/

namespace Abacus

/-- What may be said of an environment, the moments that something goes through from there, and the
environment that it comes to. -/
abbrev Law := Environment → List Moment → Environment → Prop

/-- A law that holds where nothing happens, and of one thing after the other if it holds of both. -/
structure Law.Composes (law : Law) : Prop where
  refl : ∀ env, law env [] env
  trans : ∀ {env middle after : Environment} {first rest : List Moment},
    law env first middle → law middle rest after → law env (first ++ rest) after

namespace Eval

variable {α β : Type}

/-- In every environment with a property an evaluation follows the law along its course and keeps
the property, however it ends. -/
def Follows (P : Environment → Prop) (law : Law) (x : Eval α) (course : Course) : Prop :=
  ∀ ⦃env : Environment⦄, P env → P (final (x env)) ∧ law env (course env) (final (x env))

namespace Follows

variable {P : Environment → Prop} {law : Law}

/-- A weaker law is followed as well. -/
lemma imp {law' : Law} {x : Eval α} {course : Course} (h : Follows P law x course)
    (himp : ∀ ⦃env after : Environment⦄ ⦃moments : List Moment⦄, law env moments after →
      law' env moments after) : Follows P law' x course :=
  fun _ henv => ⟨(h henv).1, himp (h henv).2⟩

variable (hlaw : law.Composes)

include hlaw

/-! ## Putting evaluations together -/

/-- A value follows every law, and nothing happens. -/
lemma pure (a : α) : Follows P law (Pure.pure a) .silent :=
  fun env henv => ⟨henv, hlaw.refl env⟩

/-- A failure follows every law, and nothing happens. -/
lemma throw (stop : Stop) : Follows P law (MonadExcept.throw stop : Eval α) .silent :=
  fun env henv => ⟨henv, hlaw.refl env⟩

/-- Looking something up follows every law, and nothing happens. -/
lemma find (look : Environment → Except RuntimeError α) :
    Follows P law (Eval.find look) .silent := by
  intro env henv
  rw [find_run]
  cases look env <;> exact ⟨henv, hlaw.refl env⟩

/-- Evaluation in two steps follows a law if both steps do. -/
theorem bind {x : Eval α} {next : α → Eval β} {course : Course} {courses : α → Course}
    (h : Follows P law x course) (hnext : ∀ a, Follows P law (next a) (courses a)) :
    Follows P law (x >>= next) (course.followedBy x courses) := by
  intro env henv
  obtain ⟨hmiddle, hfirst⟩ := h henv
  rw [bind_run]
  unfold Course.followedBy
  cases hx : x env with
  | ok a middle =>
    rw [hx] at hmiddle hfirst
    obtain ⟨hafter, hrest⟩ := hnext a hmiddle
    exact ⟨hafter, hlaw.trans hfirst hrest⟩
  | error stop after =>
    rw [hx] at hmiddle hfirst
    rw [List.append_nil]
    exact ⟨hmiddle, hfirst⟩

/-- What follows may be silent. -/
lemma bind_silent {x : Eval α} {next : α → Eval β} {course : Course}
    (h : Follows P law x course) (hnext : ∀ a, Follows P law (next a) .silent) :
    Follows P law (x >>= next) course := by
  rw [← Course.followedBy_silent course x]
  exact h.bind hlaw hnext

/-! ## The rules -/

section Rules

variable {f : Node → Eval Float} {course : Node → Course}

/-- Nodes that are evaluated one after the other follow a law if each of them does. -/
lemma values {nodes : List Node} (h : ∀ node ∈ nodes, Follows P law (f node) (course node)) :
    Follows P law (Eval.values f nodes) (Course.sequence f course nodes) := by
  induction nodes with
  | nil => exact pure hlaw []
  | cons node nodes ih =>
    obtain ⟨hnode, hnodes⟩ := List.forall_mem_cons.1 h
    exact hnode.bind hlaw fun _ => (ih hnodes).bind_silent hlaw fun _ => pure hlaw _

/-- A block follows a law if its statements do. -/
lemma block {body : Block} (h : ∀ node ∈ body, Follows P law (f node) (course node)) :
    Follows P law (Eval.block f body) (Course.sequence f course body) := by
  induction body with
  | nil => exact throw hlaw _
  | cons node body ih =>
    obtain ⟨hnode, hbody⟩ := List.forall_mem_cons.1 h
    cases body with
    | nil =>
      rw [Course.sequence, Course.sequence, Course.followedBy_silent]
      exact hnode
    | cons next body => exact hnode.bind hlaw fun _ => ih hbody

/-- A chain of operations follows a law if its operands do. -/
lemma applyLinks {links : List Link}
    (h : ∀ link ∈ links, Follows P law (f link.operand) (course link.operand)) :
    ∀ value, Follows P law (Eval.applyLinks f value links)
      (Course.sequence f course (links.map (·.operand))) := by
  induction links with
  | nil => exact pure hlaw
  | cons link links ih =>
    obtain ⟨hlink, hlinks⟩ := List.forall_mem_cons.1 h
    exact fun value => hlink.bind hlaw fun _ => ih hlinks _

/-- A condition follows a law if its node does. -/
lemma holds {condition : Node} (h : Follows P law (f condition) (course condition)) :
    Follows P law (Eval.holds f condition) (course condition) :=
  h.bind_silent hlaw fun _ => pure hlaw _

/-- Conditions follow a law if each of them does. -/
lemma allHold {conditions : List Node}
    (h : ∀ node ∈ conditions, Follows P law (f node) (course node)) :
    Follows P law (Eval.allHold f conditions) (Course.sequence f course conditions) := by
  induction conditions with
  | nil => exact pure hlaw true
  | cons condition conditions ih =>
    obtain ⟨hcondition, hconditions⟩ := List.forall_mem_cons.1 h
    rw [Course.sequence, ← Course.followedBy_holds]
    exact (holds hlaw hcondition).bind hlaw fun _ => (ih hconditions).bind_silent hlaw fun _ =>
      pure hlaw _

/-- A conditional follows a law if its conditions and blocks do. -/
lemma choose {otherwise : Option Block} {branches : List (Branch Node)}
    (hbranches : ∀ branch ∈ branches, ∀ node ∈ branch.condition :: branch.body,
      Follows P law (f node) (course node))
    (hotherwise : ∀ node ∈ otherwise.getD [], Follows P law (f node) (course node)) :
    Follows P law (Eval.choose f otherwise branches)
      (Course.choose f course otherwise branches) := by
  induction branches with
  | nil =>
    cases otherwise with
    | none => exact pure hlaw _
    | some body => exact block hlaw hotherwise
  | cons branch branches ih =>
    obtain ⟨hbranch, hothers⟩ := List.forall_mem_cons.1 hbranches
    obtain ⟨hcondition, hbody⟩ := List.forall_mem_cons.1 hbranch
    refine (holds hlaw hcondition).bind hlaw fun held => ?_
    cases held with
    | true => exact block hlaw hbody
    | false => exact ih hothers

/-- The rounds of a loop follow a law if its conditions and its body do. -/
lemma rounds (stop : Stop) {conditions : List Node} {body : Block}
    (hconditions : ∀ node ∈ conditions, Follows P law (f node) (course node))
    (hbody : ∀ node ∈ body, Follows P law (f node) (course node)) (count : Nat) :
    ∀ last, Follows P law (Eval.rounds f stop conditions body count last)
      (Course.rounds f course conditions body count) := by
  induction count with
  | zero =>
    refine fun last => (allHold hlaw hconditions).bind_silent hlaw fun held => ?_
    cases held with
    | true => exact throw hlaw stop
    | false => exact pure hlaw last
  | succ count ih =>
    refine fun last => (allHold hlaw hconditions).bind hlaw fun held => ?_
    cases held with
    | true => exact (block hlaw hbody).bind hlaw ih
    | false => exact pure hlaw last

/-- A loop follows a law if its conditions and its body do. -/
lemma loop (patience : Nat) {conditions : List Node} {body : Block}
    (hconditions : ∀ node ∈ conditions, Follows P law (f node) (course node))
    (hbody : ∀ node ∈ body, Follows P law (f node) (course node)) :
    Follows P law (Eval.loop f patience conditions body)
      (Course.loop f course patience conditions body) := by
  intro env henv
  rw [loop_run, Course.loop]
  exact rounds hlaw (roundsStop env) hconditions hbody _ 0 henv

end Rules

/-! ## Calls -/

/-- A call follows the law if its body follows a law of its own, inside the call, and if that one
gives the law of the whole call. -/
theorem insideCall {Q : Environment → Prop} {inner : Law} {calls : List Function} {fn : Function}
    {found : List Float} {body : Eval Float} {course : Course}
    (henter : ∀ ⦃env inside : Environment⦄, P env → env.enterCall fn found = .ok inside → Q inside)
    (hbody : Follows Q inner body course)
    (hleave : ∀ ⦃env inside last : Environment⦄ ⦃moments : List Moment⦄, P env →
      env.enterCall fn found = .ok inside → Q last → inner inside moments last →
        P (last.leaveCall fn) ∧
          law env (⟨.enter fn, calls, env⟩ :: ⟨.entered fn, fn :: calls, inside⟩ ::
            (moments ++ [⟨.leave fn, fn :: calls, last⟩])) (last.leaveCall fn)) :
    Follows P law (Eval.insideCall fn found body)
      (Course.insideCall calls fn found course body) := by
  intro env henv
  unfold Eval.insideCall Course.insideCall
  cases hentered : env.enterCall fn found with
  | error e => exact ⟨henv, hlaw.refl env⟩
  | ok inside =>
    obtain ⟨hlast, hinner⟩ := hbody (henter henv hentered)
    have hwhole := hleave henv hentered hlast hinner
    simp only
    generalize body inside = ended at hwhole ⊢
    cases ended <;> exact hwhole

/-- A call follows a law if its arguments do, and so do the bodies that may be run. -/
theorem call {f : Node → Eval Float} {course : List Function → Node → Course}
    {calls : List Function} {callee : String} {arguments : List Node}
    (harguments : ∀ node ∈ arguments, Follows P law (f node) (course calls node))
    (hbody : ∀ ⦃env : Environment⦄ ⦃fn : Function⦄, P env → env.functionOf callee = .ok fn →
      ∀ found, Follows P law (Eval.insideCall fn found (Eval.block f fn.body))
        (Course.insideCall calls fn found (Course.sequence f (course (fn :: calls)) fn.body)
          (Eval.block f fn.body))) :
    Follows P law (Eval.call f callee arguments)
      (Course.call f course calls callee arguments) := by
  intro env henv
  unfold Course.call
  rw [call_run]
  cases hfn : env.functionOf callee with
  | error e => exact ⟨henv, hlaw.refl env⟩
  | ok fn =>
    by_cases hlength : fn.params.length = arguments.length
    · simp only [if_pos hlength]
      exact (values hlaw harguments).bind hlaw (hbody henv hfn) henv
    · simp only [if_neg hlength]
      exact ⟨henv, hlaw.refl env⟩

end Follows

end Eval

namespace Node

open Eval

variable {P : Environment → Prop} {law : Law}

/-- **The rule of a node follows a law** if the evaluations of its parts do, and what the node
itself binds and calls. -/
theorem step_follows (hlaw : law.Composes) {f : Node → Eval Float}
    {course : List Function → Node → Course} {patience : Nat} {calls : List Function} {node : Node}
    (hparts : ∀ inner ∈ node.parts, Follows P law (f inner) (course calls inner))
    (hbind : ∀ id b, node.Binds id b → ∀ ⦃env : Environment⦄, P env →
      P (env.declare id b) ∧ law env [⟨.bind id, calls, env⟩] (env.declare id b))
    (hbody : ∀ ⦃env : Environment⦄ ⦃callee : String⦄ ⦃fn : Function⦄, P env →
      env.functionOf callee = .ok fn → ∀ found,
        Follows P law (Eval.insideCall fn found (Eval.block f fn.body))
          (Course.insideCall calls fn found (Course.sequence f (course (fn :: calls)) fn.body)
            (Eval.block f fn.body))) :
    Follows P law (step patience f node) (stepMoments patience f course calls node) := by
  cases node with
  | literal value => exact .pure hlaw value
  | name id => exact .find hlaw _
  | binary op left right =>
    obtain ⟨hleft, hlinks⟩ := List.forall_mem_cons.1 hparts
    exact hleft.bind hlaw (.applyLinks hlaw (List.forall_mem_map.1 hlinks))
  | call callee arguments => exact .call hlaw hparts fun env fn henv hfn => hbody henv hfn
  | declare id value =>
    refine (hparts value (List.mem_singleton_self _)).bind hlaw fun found env henv => ?_
    exact hbind id _ ⟨rfl, found, rfl⟩ henv
  | define fn => exact fun env henv => hbind fn.name _ ⟨rfl, rfl⟩ henv
  | choose branches otherwise =>
    obtain ⟨hbranches, hotherwise⟩ := List.forall_mem_append.1 hparts
    refine .choose hlaw (fun branch hbranch node hnode => hbranches node ?_) hotherwise
    exact List.mem_flatMap.2 ⟨branch, hbranch, hnode⟩
  | loop conditions body =>
    obtain ⟨hconditions, hbody⟩ := List.forall_mem_append.1 hparts
    exact .loop hlaw patience hconditions hbody
  | block body => exact .block hlaw hparts

/-- **The evaluation of a node follows a law** if its rule follows one that the moments in which the
evaluation starts and is done complete to that law. -/
theorem evaluate_follows {inner : Law} {patience depth : Nat} {calls : List Function} {node : Node}
    (h : Follows P inner (step patience (evaluate patience depth) node)
      (stepMoments patience (evaluate patience depth) (moments patience depth) calls node))
    (hwhole : ∀ ⦃env after : Environment⦄ ⦃between : List Moment⦄ ⦃result : Except Stop Float⦄,
      inner env between after → law env (⟨.start node, calls, env⟩ ::
        (between ++ [⟨.done node result, calls, after⟩])) after) :
    Follows P law (evaluate patience (depth + 1) node)
      (moments patience (depth + 1) calls node) := by
  intro env henv
  obtain ⟨hafter, hinner⟩ := h henv
  exact ⟨hafter, hwhole hinner⟩

/-- The moments of the evaluation of a node that a host asks for. -/
def runMoments (patience : Nat) (node : Node) : Course :=
  fun env => moments patience (env.reach [node]) [] node env

end Node

end Abacus
