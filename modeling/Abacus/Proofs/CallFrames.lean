import Mathlib.Tactic.Common
import Abacus.Proofs.Courses
import Abacus.Proofs.FrameUnion

/-!
# A call leaves the frames of its callers alone

If calls have frames, a call binds its parameters in a frame of its own, and what statements bind
inside the call goes to that frame or to the global one.  The frames in between belong to the
callers and stay as they are.  In the global frame nothing is unbound, and only those names stand
for something else that a statement or the host was made to bind.

This holds of everything that can be done inside a call, at any depth of calls and whether or not it
fails, and so it holds of the call as a whole.

## Main definitions

* `Abacus.Moment.targets` — the names that statements bind along a course.
* `Abacus.Environment.Spares` — what may be done inside a call.
* `Abacus.Environment.Passes` — what a host does inside a call.

## Main results

* `Abacus.Environment.Spares.leaveCall` — a call as a whole.
* `Abacus.Node.evaluate_spares` — evaluation leaves the frames of callers alone.
* `Abacus.Environment.Passes.callers_frames_kept` — and so does everything else.
-/

namespace Abacus

/-! ## The names that are bound along a course -/

/-- The name that a statement is about to bind. -/
def Event.target? : Event → Option String
  | bind name => some name
  | _ => none

/-- The names that statements bind at some moments. -/
def Moment.targets (moments : List Moment) : List String := moments.filterMap (·.event.target?)

/-- What is targeted in two courses one after the other is targeted in one of them. -/
lemma Moment.targets_append (moments more : List Moment) :
    targets (moments ++ more) = targets moments ++ targets more :=
  List.filterMap_append

/-- After an insertion a frame holds the inserted name and those that it held before. -/
lemma Frame.contains_insert (f : Frame) (name other : String) (b : Binding) :
    (f.insert name b).contains other = (decide (other = name) || f.contains other) := by
  rw [contains, get?_insert]
  by_cases h : other = name
  · simp [h]
  · simp [h, contains]

namespace Environment

/-! ## What may be done inside a call -/

/-- What may be done inside a call: the frames outside the innermost stay as they are, and in the
global frame names are bound only, and only the given ones. -/
structure Spares (targets : List String) (env after : Environment) : Prop where
  scoping_eq : after.scoping = env.scoping
  locals_eq_nil_iff : after.locals = [] ↔ env.locals = []
  outer : after.locals.tail = env.locals.tail
  kept : ∀ name, env.globals.contains name = true → after.globals.contains name = true
  changed : ∀ name, after.globals.get? name ≠ env.globals.get? name → name ∈ targets

/-- The innermost frame binds the same names as before. -/
def SameLocals (env after : Environment) : Prop :=
  ∀ name, after.locals.head?.any (·.contains name) = env.locals.head?.any (·.contains name)

variable {targets more : List String} {env inside middle after : Environment}

/-- Where nothing happens everything is spared. -/
lemma Spares.refl (env : Environment) : env.Spares [] env :=
  ⟨rfl, Iff.rfl, rfl, fun _ h => h, fun _ h => absurd rfl h⟩

/-- What spares all but some names, and then all but others, spares all but both. -/
lemma Spares.trans (h : env.Spares targets middle) (h' : middle.Spares more after) :
    env.Spares (targets ++ more) after where
  scoping_eq := h'.scoping_eq.trans h.scoping_eq
  locals_eq_nil_iff := h'.locals_eq_nil_iff.trans h.locals_eq_nil_iff
  outer := h'.outer.trans h.outer
  kept name hname := h'.kept name (h.kept name hname)
  changed name hname := by
    by_cases hfirst : middle.globals.get? name = env.globals.get? name
    · exact List.mem_append_right _ (h'.changed name (hfirst ▸ hname))
    · exact List.mem_append_left _ (h.changed name hfirst)

/-- Binding a global name spares all other names. -/
lemma spares_bindGlobal (env : Environment) (name : String) (b : Binding) :
    env.Spares [name] (env.bindGlobal name b) where
  scoping_eq := rfl
  locals_eq_nil_iff := Iff.rfl
  outer := rfl
  kept other hother := by
    show (env.globals.insert name b).contains other = true
    rw [Frame.contains_insert, hother, Bool.or_true]
  changed other hother := by
    by_contra hnot
    have hne : other ≠ name := fun heq => hnot (List.mem_singleton.2 heq)
    refine hother ?_
    show (env.globals.insert name b).get? other = _
    rw [Frame.get?_insert, if_neg hne]

/-- Binding a name in the innermost frame of a call. -/
lemma spares_locals {frame : Frame} {outer : List Frame} (h : env.locals = frame :: outer)
    (frame' : Frame) (targets : List String) :
    env.Spares targets { env with locals := frame' :: outer } where
  scoping_eq := rfl
  locals_eq_nil_iff := by simp [h]
  outer := by simp [h]
  kept _ hname := hname
  changed _ hname := absurd rfl hname

/-- Declaring a name spares all other names. -/
lemma spares_declare (env : Environment) (name : String) (b : Binding) :
    env.Spares [name] (env.declare name b) := by
  unfold declare
  split
  · exact spares_bindGlobal env name b
  · next frame outer hlocals =>
    split
    · exact spares_locals hlocals _ _
    · exact spares_bindGlobal env name b

/-- Inside a call the host binds names in the frame of the call. -/
private lemma spares_define (h : env.locals ≠ []) (name : String) (b : Binding) :
    env.Spares [] (env.define name b) := by
  unfold define
  split
  · next hlocals => exact absurd hlocals h
  · next frame outer hlocals => exact spares_locals hlocals _ _

/-- A statement binds no new names in the frame of a call. -/
private lemma sameLocals_declare (env : Environment) (name : String) (b : Binding) :
    env.SameLocals (env.declare name b) := by
  intro other
  unfold declare
  split
  · rfl
  · next frame outer hlocals =>
    split
    · next hcontains =>
      simp only [hlocals, List.head?_cons, Option.any_some, Frame.contains_insert]
      by_cases h : other = name
      · rw [h, hcontains, Bool.or_true]
      · rw [decide_eq_false h, Bool.false_or]
    · rfl

/-- Where calls have frames, a call starts with a new innermost frame. -/
lemma inside_of_frames (h : env.scoping = .frames) (params : List String)
    (arguments : List Float) :
    env.inside params arguments =
      { env with
        locals := Frame.empty.insertAll (params.zip arguments) :: env.locals
        callDepth := env.callDepth + 1 } := by
  have hopened : env.opened = { env with locals := .empty :: env.locals } := by rw [opened, h]
  rw [inside, hopened, bindParams_of_locals_cons _ _ rfl]

/-- **A call as a whole** leaves all frames of calls as they were, if what is done inside it spares
those of the callers. -/
theorem Spares.leaveCall {f : Function} {arguments : List Float} (hscoping : env.scoping = .frames)
    (henter : env.enterCall f arguments = .ok inside) (h : inside.Spares targets after) :
    (after.leaveCall f).locals = env.locals ∧ env.Spares targets (after.leaveCall f) := by
  obtain ⟨-, rfl⟩ := enterCall_eq_ok_iff.1 henter
  rw [inside_of_frames hscoping] at h
  have hafter : after.scoping = .frames := h.scoping_eq.trans hscoping
  have hleave : after.leaveCall f =
      { after with locals := after.locals.tail, callDepth := after.callDepth - 1 } := by
    simp only [Environment.leaveCall, hafter]
  have hlocals : (after.leaveCall f).locals = env.locals := by
    rw [hleave]
    exact h.outer
  rw [hleave] at hlocals ⊢
  exact ⟨hlocals, h.scoping_eq, by rw [hlocals], by rw [hlocals], h.kept, h.changed⟩

end Environment

/-! ## Evaluation -/

open Environment Eval

/-- What a script may do inside a call, by the names that its statements bind. -/
def Law.spares : Law :=
  fun env moments after => env.Spares (Moment.targets moments) after ∧ env.SameLocals after

/-- Sparing all but the targets holds of a course that is put together from others. -/
lemma Law.spares_composes : Law.spares.Composes where
  refl env := ⟨.refl env, fun _ => rfl⟩
  trans := by
    rintro env middle after first rest ⟨hfirst, hlocals⟩ ⟨hrest, hlocals'⟩
    refine ⟨?_, fun name => (hlocals' name).trans (hlocals name)⟩
    rw [Moment.targets_append]
    exact hfirst.trans hrest

/-- **Evaluation leaves the frames of callers alone**, and binds globally what its statements bind.

**Proof sketch.** Induction on how deeply evaluations may be nested.  What a statement binds goes to
the innermost frame if that knows the name, and to the global frame otherwise.  A call drops the one
frame that its body may have changed. -/
theorem Node.evaluate_spares (patience depth : Nat) : ∀ (calls : List Function) (node : Node),
    Follows (·.scoping = .frames) Law.spares (Node.evaluate patience depth node)
      (Node.moments patience depth calls node) := by
  induction depth with
  | zero => exact fun _ _ => .throw Law.spares_composes _
  | succ depth ih =>
    intro calls node
    have hstep : Follows (·.scoping = .frames) Law.spares
        (Node.step patience (Node.evaluate patience depth) node)
        (Node.stepMoments patience (Node.evaluate patience depth) (Node.moments patience depth)
          calls node) := by
      refine Node.step_follows Law.spares_composes (fun inner _ => ih calls inner) ?_ ?_
      · intro id b _ env henv
        have hdeclare := spares_declare env id b
        exact ⟨hdeclare.scoping_eq.trans henv, hdeclare, sameLocals_declare env id b⟩
      · intro env callee fn _ _ found
        have hbody : Follows (·.scoping = .frames) Law.spares
            (Eval.block (Node.evaluate patience depth) fn.body)
            (Course.sequence (Node.evaluate patience depth)
              (Node.moments patience depth (fn :: calls)) fn.body) :=
          .block Law.spares_composes fun inner _ => ih (fn :: calls) inner
        refine .insideCall Law.spares_composes ?_ hbody ?_
        · intro env inside henv henter
          obtain ⟨-, rfl⟩ := enterCall_eq_ok_iff.1 henter
          rw [inside_of_frames henv]
          exact henv
        · rintro env inside last moments henv henter - ⟨hinner, -⟩
          obtain ⟨hlocals, hwhole⟩ := hinner.leaveCall henv henter
          have htargets : Moment.targets (⟨.enter fn, calls, env⟩ ::
              ⟨.entered fn, fn :: calls, inside⟩ ::
                (moments ++ [⟨.leave fn, fn :: calls, last⟩])) = Moment.targets moments := by
            simp [Moment.targets, Event.target?]
          refine ⟨hwhole.scoping_eq.trans henv, htargets ▸ hwhole, fun name => ?_⟩
          rw [hlocals]
    refine Node.evaluate_follows hstep fun env after between result hinner => ?_
    have htargets : Moment.targets (⟨.start node, calls, env⟩ ::
        (between ++ [⟨.done node result, calls, after⟩])) = Moment.targets between := by
      simp [Moment.targets, Event.target?]
    unfold Law.spares
    rwa [htargets]

namespace Environment

/-! ## What a host does inside a call -/

/-- What a host does inside a call, step after step, with the names that statements and declarations
bind on the way.  A step may fail.  A call inside the call ends before the next step. -/
inductive Passes : Environment → List String → Environment → Prop
  | start (env : Environment) : Passes env [] env
  | evaluate {env middle : Environment} {targets : List String} (patience : Nat) (node : Node) :
      Passes env targets middle →
        Passes env (targets ++ Moment.targets (node.runMoments patience middle))
          (final (node.run patience middle))
  | define {env middle : Environment} {targets : List String} (name : String) (b : Binding) :
      Passes env targets middle → Passes env targets (middle.define name b)
  | declare {env middle : Environment} {targets : List String} (name : String) (b : Binding) :
      Passes env targets middle → Passes env (targets ++ [name]) (middle.declare name b)
  | call {env middle inside last : Environment} {targets more : List String} {f : Function}
      {arguments : List Float} :
      Passes env targets middle → middle.enterCall f arguments = .ok inside →
        Passes inside more last → Passes env (targets ++ more) (last.leaveCall f)

variable {targets : List String} {env inside last : Environment}

/-- What a host does inside a call spares the frames of the callers. -/
lemma Passes.spares (h : Passes env targets last) (hscoping : env.scoping = .frames)
    (hlocals : env.locals ≠ []) : env.Spares targets last := by
  induction h with
  | start env => exact .refl env
  | evaluate patience node _ ih =>
    have hmiddle := ih hscoping hlocals
    obtain ⟨-, hrun, -⟩ := Node.evaluate_spares patience _ [] node
      (hmiddle.scoping_eq.trans hscoping)
    exact hmiddle.trans hrun
  | @define _ middle targets name b _ ih =>
    have hmiddle := ih hscoping hlocals
    have hinside : middle.locals ≠ [] := fun hnil => hlocals (hmiddle.locals_eq_nil_iff.1 hnil)
    rw [← List.append_nil targets]
    exact hmiddle.trans (spares_define hinside name b)
  | declare name b _ ih => exact (ih hscoping hlocals).trans (spares_declare _ name b)
  | call _ henter _ ih ihinner =>
    have hmiddle := ih hscoping hlocals
    have hscoping' := hmiddle.scoping_eq.trans hscoping
    obtain ⟨-, rfl⟩ := enterCall_eq_ok_iff.1 henter
    have hinside := inside_of_frames hscoping'
    have hinner := ihinner (by rw [hinside]; exact hscoping') (by rw [hinside]; simp)
    exact hmiddle.trans (hinner.leaveCall hscoping' henter).2

/-- **A call leaves the frames of its callers alone.**  Take any environment in which calls have
frames, and any call that starts there.  Whatever is done inside the call, in any number of steps of
which each may fail, when the call has ended all frames of calls are what they were before it, no
global name has been unbound, and only those global names stand for something else that a statement
or a declaration bound inside the call or in a call inside it. -/
theorem Passes.callers_frames_kept {f : Function} {arguments : List Float}
    (hscoping : env.scoping = .frames) (henter : env.enterCall f arguments = .ok inside)
    (hsteps : Passes inside targets last) :
    let after := last.leaveCall f
    after.locals = env.locals ∧
      (∀ name, env.globals.contains name = true → after.globals.contains name = true) ∧
      ∀ name, after.globals.get? name ≠ env.globals.get? name → name ∈ targets := by
  have hinside : inside.scoping = .frames ∧ inside.locals ≠ [] := by
    obtain ⟨-, rfl⟩ := enterCall_eq_ok_iff.1 henter
    rw [inside_of_frames hscoping]
    exact ⟨hscoping, List.cons_ne_nil _ _⟩
  obtain ⟨hlocals, hwhole⟩ := (hsteps.spares hinside.1 hinside.2).leaveCall hscoping henter
  exact ⟨hlocals, hwhole.kept, hwhole.changed⟩

/-- A call inside a call with a parameter of the same name: an evaluation fails, the host declares
another name and binds the parameter anew.  Afterwards the caller's parameter is what it was, and at
most the declared name stands for something else. -/
theorem Passes.callers_frames_kept_nested :
    ∃ outer inside, (Environment.withScoping .frames).enterCall ⟨"f", ["x"], []⟩ [1] = .ok outer ∧
      outer.enterCall ⟨"g", ["x"], []⟩ [2] = .ok inside ∧
      outer.lookup "x" = some (.number 1) ∧ inside.lookup "x" = some (.number 2) ∧
      ∀ patience, let failed := final ((Node.name "y").run patience inside)
        let after := ((failed.declare "y" (.number 3)).define "x" (.number 4)).leaveCall
          ⟨"g", ["x"], []⟩
        after.locals = outer.locals ∧
          ∀ name, after.globals.get? name ≠ outer.globals.get? name → name = "y" := by
  obtain ⟨outer, inside, houter, hinside⟩ : ∃ outer inside,
      (Environment.withScoping .frames).enterCall ⟨"f", ["x"], []⟩ [1] = .ok outer ∧
        outer.enterCall ⟨"g", ["x"], []⟩ [2] = .ok inside := ⟨_, _, rfl, rfl⟩
  obtain ⟨hscoping, hcaller, hcallee⟩ : outer.scoping = .frames ∧
      outer.lookup "x" = some (.number 1) ∧ inside.lookup "x" = some (.number 2) := by
    cases houter
    cases hinside
    exact ⟨rfl, rfl, rfl⟩
  refine ⟨outer, inside, houter, hinside, hcaller, hcallee, fun patience => ?_⟩
  have hsilent : Moment.targets ((Node.name "y").runMoments patience inside) = [] := by
    unfold Node.runMoments
    cases inside.reach [Node.name "y"] <;> rfl
  have hsteps := ((((Passes.start inside).evaluate patience (.name "y")).declare "y"
    (.number 3)).define "x" (.number 4))
  obtain ⟨hlocals, -, hchanged⟩ := hsteps.callers_frames_kept hscoping hinside
  refine ⟨hlocals, fun name hname => ?_⟩
  have hmem := hchanged name hname
  rw [hsilent] at hmem
  exact List.mem_singleton.1 hmem

end Environment

end Abacus
