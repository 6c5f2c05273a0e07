import Mathlib.Tactic.Common
import Abacus.Proofs.Termination

/-!
# Raising the limits

A limit is only ever noticed by the failure that it causes: nothing in the language catches a
failure, and no rule looks at a limit for any other purpose.  So an evaluation that ends in another
way than by a limit ends in the same way if calls may be nested deeper and loops may run more often.

The two evaluations are compared step by step.  Their environments differ in the limits alone, and
whatever evaluation does to an environment does not depend on them.  Where the evaluation with the
lower limits would exceed one of them, it is given up, and nothing is asked of the other one.

## Main definitions

* `Abacus.Limits.Below` — limits of which the other ones allow at least as much.
* `Abacus.Environment.withLimits` — the same bindings and calls with other limits.
* `Abacus.RuntimeError.IsLimit` — the failures that a limit causes.

## Main results

* `Abacus.Environment.declare_withLimits`, `inside_withLimits`, `leaveCall_withLimits` — limits have
  no part in what is bound.
* `Abacus.Node.evaluate_coupled_withLimits` — evaluations with lower and with higher limits.
* `Abacus.Node.raised_limits_keep_result` — raising the limits keeps every other result.
-/

namespace Abacus

/-- The raised limits allow at least as much.  Without a limit on rounds a loop may run as often as
it likes, so then the raised limits have none either. -/
structure Limits.Below (limits raised : Limits) : Prop where
  calls : limits.calls ≤ raised.calls
  rounds : ∀ more, raised.rounds = some more → ∃ most, limits.rounds = some most ∧ most ≤ more

/-- The failures that a limit causes. -/
def RuntimeError.IsLimit : RuntimeError → Prop
  | callDepth _ _ | iterationLimit _ => True
  | notDefined _ | argumentCount _ _ _ | emptyBlock => False

namespace Environment

/-! ## Limits have no part in what is bound -/

/-- The same bindings and calls in progress, with other limits. -/
def withLimits (env : Environment) (limits : Limits) : Environment := { env with limits := limits }

variable (env : Environment) (limits : Limits)

/-- The limits have no part in looking up a value. -/
private lemma valueOf_withLimits (name : String) :
    (env.withLimits limits).valueOf name = env.valueOf name := rfl

/-- The limits have no part in looking up a function. -/
private lemma functionOf_withLimits (name : String) :
    (env.withLimits limits).functionOf name = env.functionOf name := rfl

/-- The limits have no part in defining a name. -/
private lemma define_withLimits (name : String) (b : Binding) :
    (env.withLimits limits).define name b = (env.define name b).withLimits limits := by
  obtain ⟨globals, locals, scoping, before, callDepth⟩ := env
  cases locals <;> rfl

/-- The limits have no part in declaring a name. -/
theorem declare_withLimits (name : String) (b : Binding) :
    (env.withLimits limits).declare name b = (env.declare name b).withLimits limits := by
  obtain ⟨globals, locals, scoping, before, callDepth⟩ := env
  cases locals with
  | nil => rfl
  | cons frame outer =>
    simp only [declare, withLimits]
    split <;> rfl

/-- The limits have no part in removing a name. -/
private lemma remove_withLimits (name : String) :
    (env.withLimits limits).remove name = (env.remove name).withLimits limits := by
  simp only [remove, withLimits]
  split <;> rfl

/-- The limits have no part in the environment of a body. -/
theorem inside_withLimits (params : List String) (arguments : List Float) :
    (env.withLimits limits).inside params arguments =
      (env.inside params arguments).withLimits limits := by
  have hopened : (env.withLimits limits).opened = env.opened.withLimits limits := by
    simp only [opened, withLimits]
    split <;> rfl
  have hbound : ∀ opened : Environment, (opened.withLimits limits).bindParams params arguments =
      (opened.bindParams params arguments).withLimits limits := by
    unfold bindParams
    generalize params.zip arguments = bound
    induction bound with
    | nil => exact fun _ => rfl
    | cons first bound ih =>
      intro opened
      simp only [List.foldl_cons, define_withLimits, ih]
  simp only [inside, hopened, hbound]
  rfl

/-- The limits have no part in leaving a call. -/
theorem leaveCall_withLimits (f : Function) :
    (env.withLimits limits).leaveCall f = (env.leaveCall f).withLimits limits := by
  have hremoved : ∀ names : List String, ∀ env : Environment,
      names.foldl remove (env.withLimits limits) = (names.foldl remove env).withLimits limits := by
    intro names
    induction names with
    | nil => exact fun _ => rfl
    | cons name names ih =>
      intro env
      simp only [List.foldl_cons, remove_withLimits, ih]
  obtain ⟨globals, locals, scoping, before, callDepth⟩ := env
  cases scoping with
  | shared =>
    have hreleased := hremoved f.params ⟨globals, locals, .shared, before, callDepth⟩
    simp only [withLimits] at hreleased
    simp only [leaveCall, withLimits, hreleased]
  | frames => rfl

/-- With higher limits evaluations can be nested at least as deeply. -/
private lemma reach_le_withLimits {env : Environment} {raised : Limits}
    (h : env.limits.Below raised)
    (nodes : List Node) : env.reach nodes ≤ (env.withLimits raised).reach nodes := by
  have hcalls := h.calls
  have hroom : env.limits.calls - env.callDepth + 1 ≤ raised.calls - env.callDepth + 1 := by omega
  exact Nat.mul_le_mul_right _ hroom

/-- An environment with the lower limits, and the same one with the raised ones. -/
def Raised (limits raised : Limits) (env other : Environment) : Prop :=
  env.limits = limits ∧ other = env.withLimits raised

end Environment

/-! ## Evaluations with lower and with higher limits -/

open Environment Eval

/-- The reasons for which an evaluation with the lower limits is given up. -/
def Stop.Limited : Stop → Prop
  | .failure e => e.IsLimit
  | .tooDeep | .tooLong => True

variable {limits raised : Limits}

/-- **A call with the lower limits** is given up if it may not start.  Otherwise it may start with
the raised limits as well. -/
lemma Eval.insideCall_coupled_withLimits (h : limits.Below raised) {fn : Function}
    {found : List Float} {body body' : Eval Float}
    (hbody : Coupled (Raised limits raised) (fun _ => True) Stop.Limited body body') :
    Coupled (Raised limits raised) (fun _ => True) Stop.Limited
      (Eval.insideCall fn found body) (Eval.insideCall fn found body') := by
  refine .insideCall ?_ ?_ hbody ?_
  · rintro env _ entered ⟨rfl, rfl⟩ henter
    obtain ⟨hlimit, rfl⟩ := enterCall_eq_ok_iff.1 henter
    have hraised : env.callDepth < raised.calls := Nat.lt_of_lt_of_le hlimit h.calls
    have hinside := congrArg Shape.limits (shape_inside env fn.params found)
    rw [Shape.limits_entered] at hinside
    refine ⟨(env.inside fn.params found).withLimits raised, ?_, hinside, rfl⟩
    exact enterCall_eq_ok_iff.2 ⟨hraised, (inside_withLimits env raised fn.params found).symm⟩
  · rintro env _ e ⟨rfl, rfl⟩ henter
    right
    unfold enterCall at henter
    split at henter
    · cases henter
      trivial
    · cases henter
  · rintro env _ ⟨rfl, rfl⟩
    have hleft := congrArg Shape.limits (shape_leaveCall env fn)
    rw [Shape.limits_left] at hleft
    exact ⟨hleft, leaveCall_withLimits env raised fn⟩

/-- **Evaluations with lower and with higher limits** do the same unless the first is given up.

**Proof sketch.** Induction on how deeply evaluations may be nested.  Names and declarations do not
look at the limits.  A call that may start may start with the raised limits.  A loop may run at
least as often, and is given up where it would run more often than the lower limits allow. -/
theorem Node.evaluate_coupled_withLimits (h : limits.Below raised) {patience patience' : Nat}
    (hpatience : limits.rounds.getD patience ≤ patience') :
    ∀ {depth depth' : Nat}, depth ≤ depth' → ∀ node,
      Coupled (Raised limits raised) (fun _ => True) Stop.Limited
        (Node.evaluate patience depth node) (Node.evaluate patience' depth' node) := by
  intro depth
  induction depth with
  | zero => exact fun _ _ => .throw_lost trivial _
  | succ depth ih =>
    intro depth' hle node
    obtain ⟨depth', rfl⟩ : ∃ n, depth' = n + 1 := ⟨depth' - 1, by omega⟩
    have hinner : ∀ inner, Coupled (Raised limits raised) (fun _ => True) Stop.Limited
        (Node.evaluate patience depth inner) (Node.evaluate patience' depth' inner) :=
      ih (Nat.le_of_succ_le_succ hle)
    refine Node.step_coupled (fun inner _ => hinner inner) (fun _ => trivial) ?_ ?_ ?_ ?_
    · rintro id -
      refine .find ?_ fun _ _ _ _ _ => trivial
      rintro env _ ⟨-, rfl⟩
      exact (valueOf_withLimits env raised id).symm
    · rintro id b - env _ ⟨rfl, rfl⟩
      have hlimits := congrArg Shape.limits (shape_declare env id b)
      exact ⟨hlimits, declare_withLimits env raised id b⟩
    · rintro callee arguments -
      refine .call ?_ (fun _ _ _ _ _ => trivial) (fun _ _ _ _ _ _ => trivial)
        (fun inner _ => hinner inner) fun _ _ fn _ _ _ found => ?_
      · rintro env _ ⟨-, rfl⟩
        exact (functionOf_withLimits env raised callee).symm
      · exact Eval.insideCall_coupled_withLimits h
          (.block (fun _ => trivial) fun inner _ => hinner inner)
    · rintro conditions body -
      refine .loop (fun _ => trivial) (fun inner _ => hinner inner) (fun inner _ => hinner inner) ?_
      rintro env _ ⟨rfl, rfl⟩
      have hstop : (roundsStop env).Limited := by
        unfold roundsStop
        split <;> trivial
      refine .inr ⟨hstop, ?_⟩
      show env.limits.rounds.getD patience ≤ raised.rounds.getD patience'
      cases hrounds : raised.rounds with
      | none => exact hpatience
      | some more =>
        obtain ⟨most, hmost, hle⟩ := h.rounds more hrounds
        simpa [hmost] using hle

namespace Node

/-- **Raising the limits keeps every other result.**  Take two environments that differ in the
limits alone, where the limits of the second allow at least as many calls in progress and at least
as many rounds.  If a node ends in the first with a value, or with a failure that no limit causes,
then in the second it ends with the same value or failure, and leaves the same bindings in every
frame. -/
theorem raised_limits_keep_result {env after : Environment} {raised : Limits}
    (hraised : env.limits.Below raised) (node : Node) {patience : Nat}
    {result : Except RuntimeError Float} (hrun : node.run patience env = Eval.finished result after)
    (hlimit : ∀ e, result = .error e → ¬ e.IsLimit) :
    ∃ enough, ∀ patience', enough ≤ patience' →
      node.run patience' (env.withLimits raised) =
        Eval.finished result (after.withLimits raised) := by
  refine ⟨env.limits.rounds.getD patience, fun patience' hpatience => ?_⟩
  have hfits : Fits (Raised env.limits raised) (fun _ => True) Stop.Limited
      (node.run patience env) (node.run patience' (env.withLimits raised)) :=
    evaluate_coupled_withLimits hraised hpatience (reach_le_withLimits hraised [node]) node
      ⟨rfl, rfl⟩
  rw [hrun] at hfits
  generalize node.run patience' (env.withLimits raised) = other at hfits
  cases result with
  | ok value =>
    obtain ⟨-, rfl⟩ | _ | _ := hfits
    rfl
  | error e =>
    cases hfits with
    | error _ hafter => rw [hafter.2]; rfl
    | lost hlost => exact absurd hlost (hlimit e rfl)

/-- A call of a function that fails in its second round for want of another one, with just the calls
and the rounds that it needs: with more calls, and without a limit on rounds, it fails alike. -/
theorem raised_limits_keep_result_missing :
    let f : Function := ⟨"f", [], [.loop [.literal 1] [.declare "x" (.name "y"),
      .define ⟨"y", [], []⟩]]⟩
    let env : Environment :=
      ⟨⟨[⟨"f", .function f⟩, ⟨"y", .number 7⟩]⟩, [], .frames, ⟨1, 1, some 2⟩, 0⟩
    let raised : Limits := ⟨5, 0, none⟩
    env.limits.Below raised ∧ ∃ after,
      (Node.call "f" []).run 0 env = Eval.finished (.error (.notDefined "y")) after ∧
      ∃ enough, ∀ patience', enough ≤ patience' →
        (Node.call "f" []).run patience' (env.withLimits raised) =
          Eval.finished (.error (.notDefined "y")) (after.withLimits raised) := by
  intro f env raised
  have hbelow : env.limits.Below raised := ⟨by decide, nofun⟩
  obtain ⟨after, hrun⟩ : ∃ after, (Node.call "f" []).run 0 env =
      Eval.finished (.error (.notDefined "y")) after := ⟨_, rfl⟩
  have hlimit : ∀ e, (Except.error (.notDefined "y") : Except RuntimeError Float) = .error e →
      ¬ e.IsLimit := by
    rintro e ⟨⟩
    exact id
  exact ⟨hbelow, after, hrun, raised_limits_keep_result hbelow (.call "f" []) hrun hlimit⟩

end Node

end Abacus
