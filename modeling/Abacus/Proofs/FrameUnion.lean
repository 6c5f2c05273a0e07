import Mathlib.Data.List.Forall2
import Mathlib.Data.List.Pairwise
import Mathlib.Tactic.Common
import Abacus.Proofs.Balance

/-!
# Frames that bind different names

As long as no name is bound in two frames, it makes no difference in which frame a name is bound: a
single table with all bindings says the same.  An environment with a frame for every call and one
whose calls share a table are merged if the table is the union of the frames.  They stay so when a
name is bound, when a call starts and when it ends, provided that names do not clash.

## Main definitions

* `Abacus.Frame.IsUnion` — a table that is the union of frames that bind different names.
* `Abacus.Environment.Merged` — an environment with frames, and one with their union.

## Main results

* `Abacus.Frame.IsUnion.findSome?_eq` — the table says what the first frame that binds a name says.
* `Abacus.Environment.Merged.declare`, `enterCall`, `leaveCall` — environments stay merged.
-/

namespace Abacus

namespace Frame

/-! ## Unions -/

/-- No name is bound in both frames. -/
def Disjoint (f g : Frame) : Prop := ∀ name, f.get? name = none ∨ g.get? name = none

/-- Disjointness goes both ways. -/
lemma Disjoint.symm {f g : Frame} (h : f.Disjoint g) : g.Disjoint f := fun name => (h name).symm

instance : Std.Symm Disjoint := ⟨fun _ _ => Disjoint.symm⟩

/-- A frame does not hold a name if there is no binding to get. -/
lemma contains_eq_false_iff {f : Frame} {name : String} :
    f.contains name = false ↔ f.get? name = none := by
  rw [contains, Option.isSome_eq_false_iff, Option.isNone_iff_eq_none]

/-- Frames stay disjoint if a name is inserted that the other one does not have. -/
lemma Disjoint.insert {f g : Frame} (h : f.Disjoint g) {name : String} (b : Binding)
    (hname : g.get? name = none) : (f.insert name b).Disjoint g := by
  intro other
  by_cases hother : other = name
  · exact .inr (hother ▸ hname)
  · rw [get?_insert, if_neg hother]
    exact h other

/-- A table that holds all bindings of some frames, which bind different names. -/
structure IsUnion (frames : List Frame) (table : Frame) : Prop where
  disjoint : frames.Pairwise Disjoint
  get?_eq_some_iff : ∀ name b,
    table.get? name = some b ↔ ∃ frame ∈ frames, frame.get? name = some b

namespace IsUnion

variable {frame table : Frame} {frames after : List Frame}

/-- A frame is the union of itself alone. -/
lemma singleton (frame : Frame) : IsUnion [frame] frame :=
  ⟨List.pairwise_singleton _ _, by simp⟩

/-- A new frame without bindings adds nothing. -/
private lemma cons_empty (h : IsUnion frames table) : IsUnion (.empty :: frames) table := by
  constructor
  · exact List.pairwise_cons.2 ⟨fun _ _ name => .inl (get?_empty name), h.disjoint⟩
  · intro name b
    rw [h.get?_eq_some_iff]
    simp

/-- Binding a name that no other frame binds, in a frame and in the table. -/
lemma insert (before : List Frame) (h : IsUnion (before ++ frame :: after) table)
    {name : String} (b : Binding) (hothers : ∀ other ∈ before ++ after, other.get? name = none) :
    IsUnion (before ++ frame.insert name b :: after) (table.insert name b) := by
  constructor
  · have hdisjoint := h.disjoint
    rw [List.pairwise_middle Disjoint.symm, List.pairwise_cons] at hdisjoint ⊢
    exact ⟨fun g hg => (hdisjoint.1 g hg).insert b (hothers g hg), hdisjoint.2⟩
  · intro other c
    have hmem : ∀ {f g : Frame}, f ∈ before ++ g :: after ↔ f = g ∨ f ∈ before ++ after := by
      intro f g
      simp only [List.mem_append, List.mem_cons]
      exact or_left_comm
    have hunion := h.get?_eq_some_iff other c
    simp only [hmem, or_and_right, exists_or, exists_eq_left] at hunion ⊢
    rw [get?_insert, get?_insert]
    split
    · next heq =>
      refine ⟨.inl, fun hbound => hbound.resolve_right ?_⟩
      rintro ⟨g, hg, hbound⟩
      rw [heq, hothers g hg] at hbound
      cases hbound
    · exact hunion

/-- The first frame that binds a name decides, as the table does. -/
theorem findSome?_eq (h : IsUnion frames table) (name : String) :
    frames.findSome? (·.get? name) = table.get? name := by
  refine Option.ext fun b => ?_
  rw [h.get?_eq_some_iff]
  refine ⟨List.exists_of_findSome?_eq_some, ?_⟩
  rintro ⟨frame, hframe, hb⟩
  cases hfirst : frames.findSome? (·.get? name) with
  | none =>
    have hnone := List.findSome?_eq_none_iff.1 hfirst frame hframe
    rw [hb] at hnone
    cases hnone
  | some c =>
    obtain ⟨first, hmem, hc⟩ := List.exists_of_findSome?_eq_some hfirst
    by_cases heq : first = frame
    · rw [← hc, heq, hb]
    · rcases h.disjoint.forall hmem hframe heq name with hnone | hnone
      · rw [hc] at hnone
        cases hnone
      · rw [hb] at hnone
        cases hnone

end IsUnion

/-! ## Binding and unbinding several names -/

/-- A frame that binds just some names. -/
def BindsExactly (names : List String) (f : Frame) : Prop :=
  ∀ name, f.get? name = none ↔ name ∉ names

/-- Binding a name anew that a frame binds leaves it the same names. -/
lemma BindsExactly.insert {f : Frame} {names : List String} (h : f.BindsExactly names)
    {name : String} (hname : f.contains name = true) (b : Binding) :
    (f.insert name b).BindsExactly names := by
  intro other
  rw [get?_insert, ← h other]
  split
  · next heq =>
    rw [contains, Option.isSome_iff_ne_none] at hname
    simp [heq, hname]
  · rfl

/-- Binds names to numbers, one after the other. -/
def insertAll (f : Frame) (bound : List (String × Float)) : Frame :=
  bound.foldl (fun f (name, value) => f.insert name (.number value)) f

/-- Inserting names that no other frame has, into the first frame and into the table, keeps the
table the union. -/
lemma IsUnion.insertAll {frames : List Frame} {bound : List (String × Float)} :
    ∀ {frame table : Frame}, IsUnion (frame :: frames) table →
      (∀ name ∈ bound.map (·.1), ∀ other ∈ frames, other.get? name = none) →
        IsUnion (frame.insertAll bound :: frames) (table.insertAll bound) := by
  induction bound with
  | nil => exact fun h _ => h
  | cons first bound ih =>
    intro frame table h hfree
    have hinsert : IsUnion (frame.insert first.1 (.number first.2) :: frames)
        (table.insert first.1 (.number first.2)) :=
      h.insert [] _ (hfree first.1 (by simp))
    exact ih hinsert fun name hname => hfree name (by simp [hname])

/-- A name is not bound after insertions if it is not inserted and was not bound before. -/
private lemma get?_insertAll_eq_none_iff (name : String) {bound : List (String × Float)} :
    ∀ {f : Frame}, (f.insertAll bound).get? name = none ↔
      name ∉ bound.map (·.1) ∧ f.get? name = none := by
  induction bound with
  | nil => simp [insertAll]
  | cons first bound ih =>
    intro f
    have hcons : f.insertAll (first :: bound) =
      (f.insert first.1 (.number first.2)).insertAll bound := rfl
    rw [hcons, ih, get?_insert]
    by_cases h : name = first.1
    · simp [h]
    · simp [h]

/-- Names that are not bound stand for what they stood for. -/
lemma get?_insertAll_of_not_mem {name : String} {bound : List (String × Float)}
    (h : name ∉ bound.map (·.1)) (f : Frame) : (f.insertAll bound).get? name = f.get? name := by
  induction bound generalizing f with
  | nil => rfl
  | cons first bound ih =>
    rw [List.map_cons, List.mem_cons, not_or] at h
    calc
      (f.insertAll (first :: bound)).get? name
          = (f.insert first.1 (.number first.2)).get? name := ih h.2 _
      _ = f.get? name := by rw [get?_insert, if_neg h.1]

/-- Erasing several names leaves the others as they were. -/
lemma get?_foldl_erase (names : List String) (other : String) : ∀ f : Frame,
    (names.foldl erase f).get? other = if other ∈ names then none else f.get? other := by
  induction names with
  | nil => simp
  | cons name names ih =>
    intro f
    rw [List.foldl_cons, ih, get?_erase]
    by_cases h : other = name
    · simp [h]
    · simp [h]

/-- Dropping a frame is unbinding its names in the table. -/
lemma IsUnion.of_cons {frame table : Frame} {frames : List Frame} {names : List String}
    (h : IsUnion (frame :: frames) table) (hnames : frame.BindsExactly names) :
    IsUnion frames (names.foldl erase table) := by
  obtain ⟨hfirst, hdisjoint⟩ := List.pairwise_cons.1 h.disjoint
  refine ⟨hdisjoint, fun name b => ?_⟩
  have hunion := h.get?_eq_some_iff name b
  simp only [List.mem_cons, or_and_right, exists_or, exists_eq_left] at hunion
  rw [get?_foldl_erase]
  split
  · next hmem =>
    refine ⟨nofun, ?_⟩
    rintro ⟨other, hother, hb⟩
    rcases hfirst other hother name with hnone | hnone
    · exact absurd hmem ((hnames name).1 hnone)
    · rw [hb] at hnone
      cases hnone
  · next hmem =>
    rw [hunion, (hnames name).2 hmem]
    exact or_iff_right nofun

end Frame

namespace Environment

/-! ## Merged environments -/

/-- Without local frames parameters are bound among the globals. -/
lemma bindParams_of_locals_nil (params : List String) (arguments : List Float)
    {env : Environment} (h : env.locals = []) :
    env.bindParams params arguments =
      { env with globals := env.globals.insertAll (params.zip arguments) } := by
  unfold bindParams
  generalize params.zip arguments = bound
  induction bound generalizing env with
  | nil => rfl
  | cons first bound ih =>
    obtain ⟨name, value⟩ := first
    have hdefine : env.define name (.number value) = env.bindGlobal name (.number value) := by
      rw [define, h]
    simp only [List.foldl_cons, hdefine]
    exact ih h

/-- With local frames parameters are bound in the innermost one. -/
lemma bindParams_of_locals_cons (params : List String) (arguments : List Float)
    {env : Environment} {frame : Frame} {outer : List Frame} (h : env.locals = frame :: outer) :
    env.bindParams params arguments =
      { env with locals := frame.insertAll (params.zip arguments) :: outer } := by
  unfold bindParams
  generalize params.zip arguments = bound
  induction bound generalizing env frame with
  | nil =>
    obtain ⟨globals, locals, scoping, limits, callDepth⟩ := env
    cases h
    rfl
  | cons first bound ih =>
    obtain ⟨name, value⟩ := first
    have hdefine : env.define name (.number value) =
        { env with locals := frame.insert name (.number value) :: outer } := by
      rw [define, h]
    simp only [List.foldl_cons, hdefine]
    exact ih rfl

/-- Without local frames names are removed from the globals. -/
lemma foldl_remove_of_locals_nil (names : List String) {env : Environment} (h : env.locals = []) :
    names.foldl remove env = { env with globals := names.foldl Frame.erase env.globals } := by
  induction names generalizing env with
  | nil => rfl
  | cons name names ih =>
    have hremove : env.remove name = { env with globals := env.globals.erase name } := by
      rw [remove, h]
      rfl
    rw [List.foldl_cons, hremove]
    exact ih h

/-- An environment with a frame for each of the calls in progress, innermost first, and one whose
calls share the union of these frames. -/
structure Merged (calls : List Function) (framed shared : Environment) : Prop where
  scoping_framed : framed.scoping = .frames
  scoping_shared : shared.scoping = .shared
  limits_eq : framed.limits = shared.limits
  callDepth_eq : framed.callDepth = shared.callDepth
  locals_shared : shared.locals = []
  union : Frame.IsUnion framed.frames shared.globals
  params : List.Forall₂ (fun f => Frame.BindsExactly f.params) calls framed.locals

namespace Merged

variable {calls : List Function} {framed shared : Environment}

/-- The same bindings are found in merged environments. -/
lemma lookup (h : Merged calls framed shared) (name : String) :
    framed.lookup name = shared.lookup name := by
  have hshared : shared.lookup name = shared.globals.get? name := by
    simp [Environment.lookup, frames, h.locals_shared]
  rw [hshared]
  exact h.union.findSome?_eq name

/-- The same values are found in merged environments. -/
lemma valueOf (h : Merged calls framed shared) (name : String) :
    framed.valueOf name = shared.valueOf name := by
  rw [Environment.valueOf, Environment.valueOf, h.lookup]

/-- The same functions are found in merged environments. -/
lemma functionOf (h : Merged calls framed shared) (name : String) :
    framed.functionOf name = shared.functionOf name := by
  rw [Environment.functionOf, Environment.functionOf, h.lookup]

/-- Outside all calls the table is the global frame. -/
lemma get?_globals (h : Merged [] framed shared) (name : String) :
    framed.globals.get? name = shared.globals.get? name := by
  have hlocals : framed.locals = [] := List.forall₂_nil_left_iff.1 h.params
  rw [← h.union.findSome?_eq name, frames, hlocals]
  simp

/-- A name that is no parameter of some calls is free in their frames. -/
private lemma free_of_params {locals : List Frame} {name : String}
    (h : List.Forall₂ (fun f => Frame.BindsExactly f.params) calls locals)
    (hname : ∀ f ∈ calls, name ∉ f.params) : ∀ frame ∈ locals, frame.get? name = none := by
  induction h with
  | nil => simp
  | cons hfirst _ ih =>
    intro frame hframe
    rcases List.mem_cons.1 hframe with rfl | hframe
    · exact (hfirst name).2 (hname _ (by simp))
    · exact ih (fun f hf => hname f (by simp [hf])) frame hframe

/-- **Binding a name** keeps environments merged, unless it is a parameter of a call in progress
other than the innermost.

**Proof sketch.** A parameter of the innermost call is bound in its frame, and no other frame binds
it.  Any other name is bound globally, and is a parameter of no call at all. -/
theorem declare (h : Merged calls framed shared) {name : String} (b : Binding)
    (hname : ∀ f ∈ calls.tail, name ∉ f.params) :
    Merged calls (framed.declare name b) (shared.declare name b) := by
  have hshared : shared.declare name b = shared.bindGlobal name b := by
    rw [Environment.declare, h.locals_shared]
  have hglobal : (∀ frame ∈ framed.locals, frame.get? name = none) →
      Merged calls (framed.bindGlobal name b) (shared.bindGlobal name b) := fun hfree =>
    { h with union := h.union.insert framed.locals b (by simpa using hfree) }
  rw [hshared, Environment.declare]
  split
  · next hlocals => exact hglobal (by simp [hlocals])
  · next frame outer hlocals =>
    have hparams := h.params
    have hunion := h.union
    rw [frames, hlocals] at hunion
    rw [hlocals] at hparams
    cases hparams with
    | cons hfirst hothers =>
      have houter : ∀ other ∈ outer, other.get? name = none := free_of_params hothers hname
      split
      · next hcontains =>
        refine { h with
          union := hunion.insert [] b fun other hother => ?_
          params := .cons (hfirst.insert hcontains b) hothers }
        rcases (List.pairwise_cons.1 hunion.disjoint).1 other hother name with hnone | hnone
        · exact absurd hcontains (Bool.eq_false_iff.1 (Frame.contains_eq_false_iff.2 hnone))
        · exact hnone
      · next hcontains =>
        refine hglobal fun other hother => ?_
        rw [hlocals] at hother
        rcases List.mem_cons.1 hother with rfl | hother
        · exact Frame.contains_eq_false_iff.1 (Bool.eq_false_iff.2 hcontains)
        · exact houter other hother

/-- **Starting a call** keeps environments merged if the parameters are free. -/
theorem enterCall (h : Merged calls framed shared) {f : Function} {arguments : List Float}
    (hfree : ∀ name ∈ f.params, ∀ frame ∈ framed.frames, frame.get? name = none)
    (hlength : f.params.length = arguments.length) {entered : Environment}
    (henter : framed.enterCall f arguments = .ok entered) :
    ∃ entered', shared.enterCall f arguments = .ok entered' ∧
      Merged (f :: calls) entered entered' := by
  obtain ⟨hlimit, rfl⟩ := enterCall_eq_ok_iff.1 henter
  rw [h.callDepth_eq, h.limits_eq] at hlimit
  refine ⟨_, enterCall_eq_ok_iff.2 ⟨hlimit, rfl⟩, ?_⟩
  have hopened : framed.opened = { framed with locals := .empty :: framed.locals } := by
    rw [opened, h.scoping_framed]
  have hshared : shared.opened = shared := by rw [opened, h.scoping_shared]
  have hnames : (f.params.zip arguments).map (·.1) = f.params :=
    List.map_fst_zip (Nat.le_of_eq hlength)
  rw [inside, inside, hopened, hshared, bindParams_of_locals_cons _ _ rfl,
    bindParams_of_locals_nil _ _ h.locals_shared]
  refine { h with callDepth_eq := congrArg (· + 1) h.callDepth_eq, union := ?_, params := ?_ }
  · exact h.union.cons_empty.insertAll fun name hname => hfree name (hnames ▸ hname)
  · refine .cons (fun name => ?_) h.params
    rw [Frame.get?_insertAll_eq_none_iff, hnames]
    simp

/-- A call that cannot start fails in the same way. -/
lemma enterCall_error (h : Merged calls framed shared) {f : Function} {arguments : List Float}
    {e : RuntimeError} (henter : framed.enterCall f arguments = .error e) :
    shared.enterCall f arguments = .error e := by
  unfold Environment.enterCall at henter ⊢
  rw [← h.limits_eq, ← h.callDepth_eq]
  split at henter
  · next hlimit => rwa [if_pos hlimit]
  · cases henter

/-- **Ending a call** keeps environments merged: its frame binds the parameters, and these are
unbound in the table. -/
theorem leaveCall {f : Function} (h : Merged (f :: calls) framed shared) :
    Merged calls (framed.leaveCall f) (shared.leaveCall f) := by
  obtain ⟨globals, locals, scoping, limits, callDepth⟩ := framed
  obtain ⟨table, locals', scoping', limits', callDepth'⟩ := shared
  obtain ⟨rfl, rfl, rfl, rfl, rfl, hunion, hparams⟩ := h
  cases hparams with
  | cons hfirst hothers =>
    have hremoved := foldl_remove_of_locals_nil f.params
      (rfl : (⟨table, [], .shared, limits, callDepth⟩ : Environment).locals = [])
    simp only [Environment.leaveCall, hremoved]
    exact ⟨rfl, rfl, rfl, rfl, rfl, Frame.IsUnion.of_cons hunion hfirst, hothers⟩

end Merged

end Environment

end Abacus
