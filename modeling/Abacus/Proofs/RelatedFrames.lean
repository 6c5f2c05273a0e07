import Mathlib.Data.List.Forall2
import Mathlib.Tactic.Common
import Abacus.Proofs.Balance

/-!
# Environments whose frames are related

Two environments with the same scoping, limits and calls in progress are compared frame by frame.
Frames stay related when both environments do the same, provided that names are bound and unbound in
frames of the same place.  They also stay related when only one environment does something, provided
that what it binds or unbinds does not matter to the relation.

A call opens a frame and drops it, or binds parameters and unbinds them.  So when only one of the
environments makes a call, what is inside the call is compared with the inside of a call that binds
nothing.

## Main definitions

* `Abacus.Environment.FramesRelated` — environments whose frames are related one by one.

## Main results

* `Abacus.Environment.FramesRelated.declare`, `inside`, `leaveCall` — both do the same.
* `Abacus.Environment.FramesRelated.declare_right`, `inside_right`, `leaveCall_right` — the second
  does something.
-/

namespace Abacus

namespace Environment

/-- Environments that differ at most in what is bound, and whose frames are related one by one. -/
structure FramesRelated (R : Frame → Frame → Prop) (env other : Environment) : Prop where
  scoping_eq : env.scoping = other.scoping
  limits_eq : env.limits = other.limits
  callDepth_eq : env.callDepth = other.callDepth
  globals : R env.globals other.globals
  locals : List.Forall₂ R env.locals other.locals

/-- Unbinding a name in the innermost frame that binds it, in related frames. -/
private lemma eraseInnermost_related {R : Frame → Frame → Prop} {name : String}
    (hcontains : ∀ ⦃f g⦄, R f g → f.contains name = g.contains name)
    (herase : ∀ ⦃f g⦄, R f g → R (f.erase name) (g.erase name)) {frames others : List Frame}
    (h : List.Forall₂ R frames others) :
    (eraseInnermost name frames = none ∧ eraseInnermost name others = none) ∨
      ∃ erased erased', eraseInnermost name frames = some erased ∧
        eraseInnermost name others = some erased' ∧ List.Forall₂ R erased erased' := by
  induction h with
  | nil => exact .inl ⟨rfl, rfl⟩
  | cons hfirst hrest ih =>
    simp only [eraseInnermost, ← hcontains hfirst]
    split
    · exact .inr ⟨_, _, rfl, rfl, .cons (herase hfirst) hrest⟩
    · rcases ih with ⟨hnone, hnone'⟩ | ⟨erased, erased', hsome, hsome', herased⟩
      · exact .inl ⟨by rw [hnone]; rfl, by rw [hnone']; rfl⟩
      · exact .inr ⟨_, _, by rw [hsome]; rfl, by rw [hsome']; rfl, .cons hfirst herased⟩

namespace FramesRelated

variable {R : Frame → Frame → Prop} {env other third : Environment} {name : String} {b : Binding}

/-- An environment is related to itself if frames are. -/
lemma refl (hrefl : ∀ f, R f f) (env : Environment) : FramesRelated R env env :=
  ⟨rfl, rfl, rfl, hrefl _, List.forall₂_same.2 fun f _ => hrefl f⟩

/-- Frames that are related more closely are related. -/
lemma imp {S : Frame → Frame → Prop} (himp : ∀ f g, R f g → S f g)
    (h : FramesRelated R env other) : FramesRelated S env other :=
  { h with globals := himp _ _ h.globals, locals := h.locals.imp himp }

/-! ## In both environments -/

section Both

variable (h : FramesRelated R env other)

include h

/-- Defining a name on both sides keeps frames related if inserting it does. -/
lemma define (hinsert : ∀ ⦃f g⦄, R f g → R (f.insert name b) (g.insert name b)) :
    FramesRelated R (env.define name b) (other.define name b) := by
  obtain ⟨globals, locals, scoping, limits, callDepth⟩ := env
  obtain ⟨globals', locals', scoping', limits', callDepth'⟩ := other
  obtain ⟨hscoping, hlimits, hcalls, hglobals, hlocals⟩ := h
  cases hlocals with
  | nil => exact ⟨hscoping, hlimits, hcalls, hinsert hglobals, .nil⟩
  | cons hfirst hothers =>
    exact ⟨hscoping, hlimits, hcalls, hglobals, .cons (hinsert hfirst) hothers⟩

/-- A name is bound in frames of the same place if it is known in both or in none. -/
theorem declare (hcontains : ∀ ⦃f g⦄, R f g → f.contains name = g.contains name)
    (hinsert : ∀ ⦃f g⦄, R f g → R (f.insert name b) (g.insert name b)) :
    FramesRelated R (env.declare name b) (other.declare name b) := by
  obtain ⟨globals, locals, scoping, limits, callDepth⟩ := env
  obtain ⟨globals', locals', scoping', limits', callDepth'⟩ := other
  obtain ⟨hscoping, hlimits, hcalls, hglobals, hlocals⟩ := h
  cases hlocals with
  | nil => exact ⟨hscoping, hlimits, hcalls, hinsert hglobals, .nil⟩
  | cons hfirst hothers =>
    simp only [Environment.declare, ← hcontains hfirst]
    split
    · exact ⟨hscoping, hlimits, hcalls, hglobals, .cons (hinsert hfirst) hothers⟩
    · exact ⟨hscoping, hlimits, hcalls, hinsert hglobals, .cons hfirst hothers⟩

/-- A name is unbound in frames of the same place if it is known in both or in none. -/
lemma remove (hcontains : ∀ ⦃f g⦄, R f g → f.contains name = g.contains name)
    (herase : ∀ ⦃f g⦄, R f g → R (f.erase name) (g.erase name)) :
    FramesRelated R (env.remove name) (other.remove name) := by
  unfold Environment.remove
  rcases eraseInnermost_related hcontains herase h.locals with
    ⟨hnone, hnone'⟩ | ⟨erased, erased', hsome, hsome', herased⟩
  · rw [hnone, hnone']
    exact { h with globals := herase h.globals }
  · rw [hsome, hsome']
    exact { h with locals := herased }

/-- Removing names on both sides keeps frames related if erasing them does, and if related frames
hold the same of them. -/
private lemma foldl_remove {names : List String}
    (hcontains : ∀ name ∈ names, ∀ ⦃f g⦄, R f g → f.contains name = g.contains name)
    (herase : ∀ name, ∀ ⦃f g⦄, R f g → R (f.erase name) (g.erase name)) :
    FramesRelated R (names.foldl Environment.remove env)
      (names.foldl Environment.remove other) := by
  induction names generalizing env other with
  | nil => exact h
  | cons name names ih =>
    obtain ⟨hname, hnames⟩ := List.forall_mem_cons.1 hcontains
    exact ih (h.remove hname (herase name)) hnames

/-- A call starts with a new frame in both, or in none. -/
lemma opened (hempty : R .empty .empty) : FramesRelated R env.opened other.opened := by
  unfold Environment.opened
  rw [← h.scoping_eq]
  split
  · exact h
  · exact { h with scoping_eq := rfl, locals := .cons hempty h.locals }

/-- Binding parameters on both sides keeps frames related if inserting numbers does. -/
lemma bindParams (params : List String) (arguments : List Float)
    (hinsert : ∀ name value, ∀ ⦃f g⦄, R f g →
      R (f.insert name (.number value)) (g.insert name (.number value))) :
    FramesRelated R (env.bindParams params arguments) (other.bindParams params arguments) := by
  unfold Environment.bindParams
  generalize params.zip arguments = bound
  induction bound generalizing env other with
  | nil => exact h
  | cons first bound ih => exact ih (h.define (hinsert first.1 first.2))

/-- Starting a call in both. -/
theorem inside (hempty : R .empty .empty) (params : List String) (arguments : List Float)
    (hinsert : ∀ name value, ∀ ⦃f g⦄, R f g →
      R (f.insert name (.number value)) (g.insert name (.number value))) :
    FramesRelated R (env.inside params arguments) (other.inside params arguments) :=
  { (h.opened hempty).bindParams params arguments hinsert with
    callDepth_eq := congrArg (· + 1) h.callDepth_eq }

/-- Ending a call in both. -/
theorem leaveCall {fn : Function}
    (hcontains : ∀ name ∈ fn.params, ∀ ⦃f g⦄, R f g → f.contains name = g.contains name)
    (herase : ∀ name, ∀ ⦃f g⦄, R f g → R (f.erase name) (g.erase name)) :
    FramesRelated R (env.leaveCall fn) (other.leaveCall fn) := by
  have hcalls : env.callDepth - 1 = other.callDepth - 1 := congrArg (· - 1) h.callDepth_eq
  have htail : List.Forall₂ R env.locals.tail other.locals.tail := by
    simpa only [List.drop_one] using List.forall₂_drop 1 h.locals
  unfold Environment.leaveCall
  rw [← h.scoping_eq]
  split
  · exact { h.foldl_remove hcontains herase with callDepth_eq := hcalls }
  · exact { h with scoping_eq := rfl, locals := htail, callDepth_eq := hcalls }

/-- A call that may not start in one may not start in the other. -/
lemma enterCall_error {fn : Function} {arguments : List Float} {e : RuntimeError}
    (henter : env.enterCall fn arguments = .error e) : other.enterCall fn arguments = .error e := by
  unfold Environment.enterCall at henter ⊢
  rw [← h.limits_eq, ← h.callDepth_eq]
  split at henter
  · next hlimit => rwa [if_pos hlimit]
  · cases henter

end Both

/-! ## In the second environment only -/

section Second

variable (h : FramesRelated R env other)

include h

/-- Defining a name on one side keeps frames related if inserting it there does. -/
private lemma define_right (hinsert : ∀ ⦃f g⦄, R f g → R f (g.insert name b)) :
    FramesRelated R env (other.define name b) := by
  obtain ⟨globals, locals, scoping, limits, callDepth⟩ := env
  obtain ⟨globals', locals', scoping', limits', callDepth'⟩ := other
  obtain ⟨hscoping, hlimits, hcalls, hglobals, hlocals⟩ := h
  cases hlocals with
  | nil => exact ⟨hscoping, hlimits, hcalls, hinsert hglobals, .nil⟩
  | cons hfirst hothers =>
    exact ⟨hscoping, hlimits, hcalls, hglobals, .cons (hinsert hfirst) hothers⟩

/-- Declaring a name on one side keeps frames related if inserting it there does. -/
theorem declare_right (hinsert : ∀ ⦃f g⦄, R f g → R f (g.insert name b)) :
    FramesRelated R env (other.declare name b) := by
  obtain ⟨globals, locals, scoping, limits, callDepth⟩ := env
  obtain ⟨globals', locals', scoping', limits', callDepth'⟩ := other
  obtain ⟨hscoping, hlimits, hcalls, hglobals, hlocals⟩ := h
  cases hlocals with
  | nil => exact ⟨hscoping, hlimits, hcalls, hinsert hglobals, .nil⟩
  | cons hfirst hothers =>
    simp only [Environment.declare]
    split
    · exact ⟨hscoping, hlimits, hcalls, hglobals, .cons (hinsert hfirst) hothers⟩
    · exact ⟨hscoping, hlimits, hcalls, hinsert hglobals, .cons hfirst hothers⟩

/-- Removing a name on one side keeps frames related if erasing it there does. -/
private lemma remove_right (herase : ∀ ⦃f g⦄, R f g → R f (g.erase name)) :
    FramesRelated R env (other.remove name) := by
  have herased : ∀ {frames others : List Frame}, List.Forall₂ R frames others →
      ∀ {erased}, eraseInnermost name others = some erased → List.Forall₂ R frames erased := by
    intro frames others hframes
    induction hframes with
    | nil => exact nofun
    | cons hfirst hrest ih =>
      intro erased hsome
      unfold eraseInnermost at hsome
      split at hsome
      · cases hsome
        exact .cons (herase hfirst) hrest
      · obtain ⟨later, hlater, rfl⟩ := Option.map_eq_some_iff.1 hsome
        exact .cons hfirst (ih hlater)
  unfold Environment.remove
  split
  · next hsome => exact { h with locals := herased h.locals hsome }
  · exact { h with globals := herase h.globals }

/-- Binding parameters on one side keeps frames related if inserting them there does. -/
private lemma bindParams_right {params : List String} (arguments : List Float)
    (hinsert : ∀ name ∈ params, ∀ value, ∀ ⦃f g⦄, R f g → R f (g.insert name (.number value))) :
    FramesRelated R env (other.bindParams params arguments) := by
  have hzip : ∀ first ∈ params.zip arguments, first.1 ∈ params :=
    fun first hfirst => (List.of_mem_zip hfirst).1
  unfold Environment.bindParams
  generalize params.zip arguments = bound at hzip ⊢
  induction bound generalizing other with
  | nil => exact h
  | cons first bound ih =>
    obtain ⟨hfirst, hothers⟩ := List.forall_mem_cons.1 hzip
    exact ih (h.define_right (hinsert first.1 hfirst first.2)) hothers

/-- Inside a call of the second, compared with the inside of a call that binds nothing. -/
theorem inside_right (hempty : R .empty .empty) {params : List String} (arguments : List Float)
    (hinsert : ∀ name ∈ params, ∀ value, ∀ ⦃f g⦄, R f g → R f (g.insert name (.number value))) :
    FramesRelated R (env.inside [] []) (other.inside params arguments) :=
  { (h.opened hempty).bindParams_right arguments hinsert with
    callDepth_eq := congrArg (· + 1) h.callDepth_eq }

end Second

/-- Ending a call of the second, compared with the environment before a call that bound nothing. -/
theorem leaveCall_right {fn : Function} (h : FramesRelated R (env.inside [] []) other)
    (herase : ∀ name ∈ fn.params, ∀ ⦃f g⦄, R f g → R f (g.erase name)) :
    FramesRelated R env (other.leaveCall fn) := by
  have hcalls : env.callDepth = other.callDepth - 1 := by
    rw [← h.callDepth_eq]
    rfl
  have hremoved : ∀ (names : List String), (∀ name ∈ names, name ∈ fn.params) →
      ∀ {env other : Environment}, FramesRelated R env other →
        FramesRelated R env (names.foldl Environment.remove other) := by
    intro names
    induction names with
    | nil => exact fun _ _ _ h => h
    | cons name names ih =>
      intro hnames env other h
      obtain ⟨hname, hnames⟩ := List.forall_mem_cons.1 hnames
      exact ih hnames (h.remove_right (herase name hname))
  obtain ⟨globals, locals, scoping, limits, callDepth⟩ := env
  cases scoping with
  | shared =>
    have hscoping : other.scoping = .shared := h.scoping_eq.symm
    simp only [Environment.leaveCall, hscoping]
    exact { hremoved fn.params (fun _ h => h) h with callDepth_eq := hcalls }
  | frames =>
    have hscoping : other.scoping = .frames := h.scoping_eq.symm
    simp only [Environment.leaveCall, hscoping]
    have hlocals : List.Forall₂ R (.empty :: locals) other.locals := h.locals
    refine ⟨rfl, h.limits_eq, hcalls, h.globals, ?_⟩
    simpa only [List.drop_one, List.tail_cons] using List.forall₂_drop 1 hlocals

end FramesRelated

end Environment

end Abacus
