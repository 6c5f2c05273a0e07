import Mathlib.Tactic.Common
import Abacus.Proofs.Coupling

/-!
# Calls are balanced

Whatever is done with an environment, the frames on its stack and the number of calls in progress
stay in step, and an evaluation leaves both as it found them, also when it fails in the middle of
a call.

What matters of an environment for this is its shape: how many frames and calls there are, and the
scoping and limits, which never change.  Starting a call takes a shape to `Shape.entered` and ending
a call takes it back, so an evaluation ends in the shape it started from.

## Main definitions

* `Abacus.Environment.Shape`, `Abacus.Environment.shape` — what a call changes and undoes.
* `Abacus.Environment.Reachable` — the environments that a host can come to.

## Main results

* `Abacus.Node.shape_run` — an evaluation leaves the shape of the environment as it was.
* `Abacus.Environment.Reachable.calls_balanced` — frames and calls stay in step.
-/

namespace Abacus

namespace Environment

/-! ## Shapes -/

/-- What calls change of an environment, apart from what is bound, and what never changes. -/
@[ext]
structure Shape where
  depth : Nat
  callDepth : Nat
  scoping : Scoping
  limits : Limits

/-- The shape of an environment. -/
def shape (env : Environment) : Shape := ⟨env.depth, env.callDepth, env.scoping, env.limits⟩

namespace Shape

/-- The shape inside a call: one more call, and one more frame if calls have frames. -/
def entered (s : Shape) : Shape :=
  match s.scoping with
  | .shared => { s with callDepth := s.callDepth + 1 }
  | .frames => { s with depth := s.depth + 1, callDepth := s.callDepth + 1 }

/-- The shape after a call has ended.  The global frame is never dropped. -/
def left (s : Shape) : Shape :=
  match s.scoping with
  | .shared => { s with callDepth := s.callDepth - 1 }
  | .frames => { s with depth := s.depth - 2 + 1, callDepth := s.callDepth - 1 }

/-- Entering a call leaves the limits alone. -/
lemma limits_entered (s : Shape) : s.entered.limits = s.limits := by
  unfold entered
  split <;> rfl

/-- Entering a call leaves the way of scoping alone. -/
lemma scoping_entered (s : Shape) : s.entered.scoping = s.scoping := by
  unfold entered
  split <;> rfl

/-- Entering a call counts it. -/
lemma callDepth_entered (s : Shape) : s.entered.callDepth = s.callDepth + 1 := by
  unfold entered
  split <;> rfl

/-- There is still a frame after entering a call. -/
lemma depth_entered_pos {s : Shape} (h : 0 < s.depth) : 0 < s.entered.depth := by
  unfold entered
  split
  · exact h
  · exact Nat.succ_pos _

/-- Leaving a call leaves the limits alone. -/
lemma limits_left (s : Shape) : s.left.limits = s.limits := by
  unfold left
  split <;> rfl

/-- Leaving a call leaves the way of scoping alone. -/
lemma scoping_left (s : Shape) : s.left.scoping = s.scoping := by
  unfold left
  split <;> rfl

/-- Leaving undoes entering. -/
lemma left_entered {s : Shape} (h : 0 < s.depth) : s.entered.left = s := by
  obtain ⟨depth, callDepth, scoping, limits⟩ := s
  have hdepth : 0 < depth := h
  cases scoping with
  | shared => rfl
  | frames => exact Shape.ext (show depth + 1 - 2 + 1 = depth by omega) rfl rfl rfl

end Shape

/-- Defining a name keeps the shape. -/
lemma shape_define (env : Environment) (name : String) (b : Binding) :
    (env.define name b).shape = env.shape := by
  unfold define
  split
  · rfl
  · next frame outer hlocals => simp [shape, depth, hlocals]

/-- Declaring a name keeps the shape. -/
lemma shape_declare (env : Environment) (name : String) (b : Binding) :
    (env.declare name b).shape = env.shape := by
  unfold declare
  split
  · rfl
  · next frame outer hlocals =>
    split
    · simp [shape, depth, hlocals]
    · rfl

/-- Unbinding a name in some frames leaves as many frames. -/
private lemma length_eraseInnermost {name : String} {frames : List Frame} :
    ∀ {erased : List Frame}, eraseInnermost name frames = some erased →
      erased.length = frames.length := by
  induction frames with
  | nil =>
    intro erased h
    cases h
  | cons frame outer ih =>
    intro erased h
    unfold eraseInnermost at h
    split at h
    · cases h
      rfl
    · obtain ⟨others, hothers, rfl⟩ := Option.map_eq_some_iff.1 h
      rw [List.length_cons, List.length_cons, ih hothers]

/-- Removing a name keeps the shape. -/
lemma shape_remove (env : Environment) (name : String) : (env.remove name).shape = env.shape := by
  unfold remove
  split
  · next locals hlocals => simp [shape, depth, length_eraseInnermost hlocals]
  · rfl

/-- Removing several names keeps the shape. -/
private lemma shape_foldl_remove (names : List String) : ∀ env : Environment,
    (names.foldl remove env).shape = env.shape := by
  induction names with
  | nil => exact fun _ => rfl
  | cons name names ih => exact fun env => (ih _).trans (shape_remove env name)

/-- Binding parameters keeps the shape. -/
private lemma shape_bindParams (params : List String) (arguments : List Float) (env : Environment) :
    (env.bindParams params arguments).shape = env.shape := by
  unfold bindParams
  generalize params.zip arguments = bound
  induction bound generalizing env with
  | nil => rfl
  | cons first bound ih => exact (ih _).trans (shape_define env _ _)

/-- The environment in which the parameters of a call are bound: with a new frame, if calls have
frames. -/
def opened (env : Environment) : Environment :=
  match env.scoping with
  | .shared => env
  | .frames => { env with locals := .empty :: env.locals }

/-- The environment inside a call, with parameters bound to arguments. -/
def inside (env : Environment) (params : List String) (arguments : List Float) : Environment :=
  { env.opened.bindParams params arguments with callDepth := env.callDepth + 1 }

/-- A call starts exactly if the limit is not reached yet. -/
lemma enterCall_eq_ok_iff {env entered : Environment} {f : Function} {arguments : List Float} :
    env.enterCall f arguments = .ok entered ↔
      env.callDepth < env.limits.calls ∧ entered = env.inside f.params arguments := by
  unfold enterCall
  constructor
  · intro h
    split at h
    · cases h
    · next hlimit =>
      cases h
      exact ⟨by omega, rfl⟩
  · rintro ⟨hlimit, rfl⟩
    rw [if_neg (by omega)]
    rfl

/-- The environment of a body has the shape of an entered call. -/
lemma shape_inside (env : Environment) (params : List String) (arguments : List Float) :
    (env.inside params arguments).shape = env.shape.entered := by
  have hbound := shape_bindParams params arguments env.opened
  have hdepth := congrArg Shape.depth hbound
  have hscoping := congrArg Shape.scoping hbound
  have hlimits := congrArg Shape.limits hbound
  obtain ⟨globals, locals, scoping, limits, callDepth⟩ := env
  cases scoping <;> exact Shape.ext hdepth rfl hscoping hlimits

/-- Ending a call leaves it. -/
lemma shape_leaveCall (env : Environment) (f : Function) :
    (env.leaveCall f).shape = env.shape.left := by
  obtain ⟨globals, locals, scoping, limits, callDepth⟩ := env
  cases scoping with
  | shared =>
    have hremoved := shape_foldl_remove f.params ⟨globals, locals, .shared, limits, callDepth⟩
    have hdepth := congrArg Shape.depth hremoved
    have hscoping := congrArg Shape.scoping hremoved
    have hlimits := congrArg Shape.limits hremoved
    exact Shape.ext hdepth rfl hscoping hlimits
  | frames => simp [leaveCall, shape, depth, Shape.left]

end Environment

/-! ## Evaluation -/

open Environment Eval

/-- A call takes the shape of the environment back to what it was. -/
lemma Eval.keeps_shape_insideCall {s : Shape} (hs : 0 < s.depth) {fn : Function}
    {arguments : List Float} {body : Eval Float}
    (h : Keeps (·.shape = s.entered) (fun _ => True) body) :
    Keeps (·.shape = s) (fun _ => True) (Eval.insideCall fn arguments body) := by
  refine Agree.insideCall (fun _ => trivial) ?_ (fun _ _ _ _ => h) ?_
  · rintro env entered rfl henter
    obtain ⟨-, rfl⟩ := enterCall_eq_ok_iff.1 henter
    exact shape_inside env fn.params arguments
  · intro env hshape
    calc
      (env.leaveCall fn).shape = env.shape.left := shape_leaveCall env fn
      _ = s.entered.left := by rw [hshape]
      _ = s := Shape.left_entered hs

/-- **Evaluation keeps the shape of the environment**, whatever the node and however it ends.

**Proof sketch.** Induction on how deeply evaluations may be nested.  Only a call changes the shape,
and its body, being evaluated with less room, keeps the shape that the call has entered. -/
lemma Node.keeps_shape_evaluate (patience depth : Nat) : ∀ (node : Node) {s : Shape},
    0 < s.depth → Keeps (·.shape = s) (fun _ => True) (Node.evaluate patience depth node) := by
  induction depth with
  | zero => exact fun _ _ _ => .throw trivial
  | succ depth ih =>
    intro node s hs
    refine Node.step_agree (fun _ => trivial) (fun _ _ => trivial) (fun inner _ => ih inner hs)
      ?_ ?_
    · exact fun id b _ env hshape => (shape_declare env id b).trans hshape
    · intro env callee fn _ _ found
      exact Eval.keeps_shape_insideCall hs (.block (fun _ => trivial) fun inner _ =>
        ih inner (Shape.depth_entered_pos hs))

/-- An evaluation leaves the shape of the environment as it was. -/
theorem Node.shape_run (patience : Nat) (node : Node) (env : Environment) :
    (Eval.final (Node.run patience node env)).shape = env.shape :=
  (Node.keeps_shape_evaluate patience _ node (Nat.succ_pos _)).final rfl

/-! ## What a host can come to -/

namespace Environment

/-- The environments that a host can come to, with the calls that it has started and may still end,
innermost first.  An evaluation may end in any way.  A call may also be left open for good, so that
one outside it is ended next. -/
inductive Reachable : List Function → Environment → Prop
  | withScoping (scoping : Scoping) : Reachable [] (.withScoping scoping)
  | ofSettings (settings : Settings) : Reachable [] (.ofSettings settings)
  | define {active : List Function} {env : Environment} (name : String) (b : Binding) :
      Reachable active env → Reachable active (env.define name b)
  | declare {active : List Function} {env : Environment} (name : String) (b : Binding) :
      Reachable active env → Reachable active (env.declare name b)
  | remove {active : List Function} {env : Environment} (name : String) :
      Reachable active env → Reachable active (env.remove name)
  | enterCall {active : List Function} {env entered : Environment} {f : Function}
      {arguments : List Float} :
      Reachable active env → env.enterCall f arguments = .ok entered →
        Reachable (f :: active) entered
  | leaveCall {active : List Function} {env : Environment} {f : Function} :
      Reachable (f :: active) env → Reachable active (env.leaveCall f)
  | abandon {active : List Function} {env : Environment} {f : Function} :
      Reachable (f :: active) env → Reachable active env
  | evaluate {active : List Function} {env : Environment} (patience : Nat) (node : Node) :
      Reachable active env → Reachable active (Eval.final (node.run patience env))

/-- A shape in which frames and calls are in step, while a host may still end `active` calls. -/
structure Shape.Balanced (active : Nat) (s : Shape) : Prop where
  shared : s.scoping = .shared → s.depth = 1
  frames : s.scoping = .frames → s.depth = s.callDepth + 1
  limit : s.callDepth ≤ s.limits.calls
  active : active ≤ s.callDepth

/-- Defining constants keeps the shape. -/
private lemma shape_foldl_define (constants : List Constant) : ∀ env : Environment,
    (constants.foldl (fun env c => env.define c.name (.number c.value)) env).shape = env.shape := by
  induction constants with
  | nil => exact fun _ => rfl
  | cons c constants ih => exact fun env => (ih _).trans (shape_define env _ _)

/-- A new environment has one frame and no call in progress. -/
lemma shape_ofSettings (settings : Settings) :
    (ofSettings settings).shape = ⟨1, 0, settings.scoping, settings.limits⟩ :=
  shape_foldl_define _ _

/-- Starting a call below the limit keeps frames and calls in step. -/
lemma Shape.Balanced.entered {active : Nat} {s : Shape} (h : s.Balanced active)
    (hlimit : s.callDepth < s.limits.calls) : s.entered.Balanced (active + 1) := by
  obtain ⟨depth, callDepth, scoping, limits⟩ := s
  obtain ⟨hshared, hframes, -, hactive⟩ := h
  cases scoping with
  | shared => exact ⟨hshared, nofun, hlimit, Nat.succ_le_succ hactive⟩
  | frames =>
    refine ⟨nofun, fun _ => ?_, hlimit, Nat.succ_le_succ hactive⟩
    exact congrArg (· + 1) (hframes rfl)

/-- Ending a call that has been started keeps frames and calls in step. -/
lemma Shape.Balanced.left {active : Nat} {s : Shape} (h : s.Balanced (active + 1)) :
    s.left.Balanced active := by
  obtain ⟨depth, callDepth, scoping, limits⟩ := s
  obtain ⟨hshared, hframes, hlimit, hactive⟩ := h
  simp only at hshared hframes hlimit hactive
  cases scoping with
  | shared =>
    refine ⟨hshared, nofun, ?_, ?_⟩
    · show callDepth - 1 ≤ limits.calls
      omega
    · show active ≤ callDepth - 1
      omega
  | frames =>
    refine ⟨nofun, fun _ => ?_, ?_, ?_⟩
    · show depth - 2 + 1 = callDepth - 1 + 1
      have := hframes rfl
      omega
    · show callDepth - 1 ≤ limits.calls
      omega
    · show active ≤ callDepth - 1
      omega

/-- Whatever a host does, frames and calls stay in step. -/
lemma Reachable.shape_balanced {active : List Function} {env : Environment}
    (h : Reachable active env) : env.shape.Balanced active.length := by
  have hstart : ∀ settings, (Environment.ofSettings settings).shape.Balanced 0 := by
    intro settings
    rw [shape_ofSettings]
    exact ⟨fun _ => rfl, fun _ => rfl, Nat.zero_le _, Nat.le_refl _⟩
  induction h with
  | withScoping scoping => exact hstart _
  | ofSettings settings => exact hstart settings
  | define name b _ ih => rwa [shape_define]
  | declare name b _ ih => rwa [shape_declare]
  | remove name _ ih => rwa [shape_remove]
  | enterCall _ henter ih =>
    obtain ⟨hlimit, rfl⟩ := enterCall_eq_ok_iff.1 henter
    rw [shape_inside]
    exact ih.entered hlimit
  | leaveCall _ ih =>
    rw [shape_leaveCall]
    exact ih.left
  | abandon _ ih => exact ⟨ih.shared, ih.frames, ih.limit, Nat.le_of_succ_le ih.active⟩
  | evaluate patience node _ ih => rwa [Node.shape_run]

/-- **Calls are balanced.**  In every environment that a host can come to there is a frame, there is
just one if names are shared and one for every call besides the global one if calls have frames, and
no more calls are in progress than the limit allows, but at least those that the host may still end.
An evaluation of any node, however it ends, leaves frames, calls, scoping and limits as they
were. -/
theorem Reachable.calls_balanced {active : List Function} {env : Environment}
    (h : Reachable active env) :
    env.frames ≠ [] ∧
      (env.scoping = .shared → env.depth = 1) ∧
      (env.scoping = .frames → env.depth = env.callDepth + 1) ∧
      active.length ≤ env.callDepth ∧ env.callDepth ≤ env.limits.calls ∧
      ∀ (patience : Nat) (node : Node), let after := Eval.final (node.run patience env)
        after.depth = env.depth ∧ after.callDepth = env.callDepth ∧
          after.scoping = env.scoping ∧ after.limits = env.limits := by
  obtain ⟨hshared, hframes, hlimit, hactive⟩ := h.shape_balanced
  refine ⟨by simp [frames], hshared, hframes, hactive, hlimit, fun patience node => ?_⟩
  have hshape := Node.shape_run patience node env
  exact ⟨congrArg Shape.depth hshape, congrArg Shape.callDepth hshape,
    congrArg Shape.scoping hshape, congrArg Shape.limits hshape⟩

/-- Inside a call with a frame of its own there are two frames and one call, and a node that is
evaluated there, such as a call that fails for want of the function, leaves it so. -/
theorem Reachable.calls_balanced_inside_call :
    ∃ inside, (Environment.withScoping .frames).enterCall ⟨"f", ["x"], []⟩ [1] = .ok inside ∧
      Reachable [⟨"f", ["x"], []⟩] inside ∧ inside.depth = 2 ∧ inside.callDepth = 1 ∧
      ∀ patience, let after := Eval.final ((Node.call "g" [.name "x"]).run patience inside)
        after.depth = 2 ∧ after.callDepth = 1 := by
  obtain ⟨inside, hinside⟩ : ∃ inside,
      (Environment.withScoping .frames).enterCall ⟨"f", ["x"], []⟩ [1] = .ok inside := ⟨_, rfl⟩
  have hreach : Reachable [⟨"f", ["x"], []⟩] inside := .enterCall (.withScoping .frames) hinside
  obtain ⟨-, -, hframes, -, -, hrun⟩ := hreach.calls_balanced
  have hcalls : inside.callDepth = 1 ∧ inside.scoping = .frames := by
    cases hinside
    exact ⟨rfl, rfl⟩
  have hdepth : inside.depth = 2 := by rw [hframes hcalls.2, hcalls.1]
  refine ⟨inside, hinside, hreach, hdepth, hcalls.1, fun patience => ?_⟩
  obtain ⟨hdepth', hcalls', -, -⟩ := hrun patience (.call "g" [.name "x"])
  exact ⟨hdepth'.trans hdepth, hcalls'.trans hcalls.1⟩

end Environment

end Abacus
