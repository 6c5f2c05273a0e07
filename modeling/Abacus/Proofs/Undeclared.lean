import Mathlib.Tactic.Common
import Abacus.Proofs.CallFrames
import Abacus.Proofs.Occurrences

/-!
# Names that are not declared

A script changes what a name stands for by declaring it or by defining a function of that name, and
for the time of a call by having it as a parameter.  All statements that can be run are in the node
that is evaluated or in the functions in play: those that the node defines, those that are bound
somewhere in the environment, and those that are defined in their bodies.  So a name that no such
statement targets is what it was when the evaluation has ended, however it has ended, unless names
are shared and a function in play has it as a parameter.  Then it may also have been unbound.

## Main definitions

* `Abacus.Environment.functionsInPlay` — the functions that an evaluation can come to.
* `Abacus.Environment.targetsInPlay`, `paramsInPlay` — the names that statements in play bind, and
  the parameters of functions in play.
* `Abacus.Environment.standing` — what a name stands for, frame by frame.
* `Abacus.Law.leaves` — what may become of a name that is not declared.

## Main results

* `Abacus.Environment.standing_declare`, `standing_leaveCall_of_frames`,
  `standing_leaveCall_of_shared` — what becomes of a name.
* `Abacus.Node.evaluate_leaves` — evaluation keeps to the law.
* `Abacus.Node.undeclared_names_kept` — names that are not declared.
-/

namespace Abacus

/-! ## What is in play -/

namespace Node

/-- The function that a node defines by itself. -/
def defined? : Node → Option Function
  | define fn => some fn
  | _ => none

/-- The name that a node declares or defines by itself. -/
def target? : Node → Option String
  | declare id _ => some id
  | define fn => some fn.name
  | _ => none

/-- The functions that are defined in a node, those in the bodies of others among them. -/
def functions (node : Node) : List Function := node.subnodes.filterMap defined?

/-- The names that are declared or defined in a node, also in the bodies of functions. -/
def targets (node : Node) : List String := node.subnodes.filterMap target?

/-- The functions of a node are those that are defined inside of it. -/
lemma mem_functions_iff {node : Node} {fn : Function} :
    fn ∈ node.functions ↔ define fn ∈ node.subnodes := by
  rw [functions, List.mem_filterMap]
  constructor
  · rintro ⟨inner, hinner, hfn⟩
    cases inner with
    | define fn' =>
      cases hfn
      exact hinner
    | _ => cases hfn
  · exact fun h => ⟨define fn, h, rfl⟩

end Node

/-- A function that is bound, with the functions that are defined in its body. -/
def Binding.functions : Binding → List Function
  | number _ => []
  | function fn => (Node.define fn).functions

namespace Environment

/-- The functions that are bound in any frame, with those that are defined in their bodies. -/
def functions (env : Environment) : List Function :=
  env.frames.flatMap fun frame => frame.entries.flatMap (·.binding.functions)

/-- The functions that the evaluation of a node can come to. -/
def functionsInPlay (env : Environment) (node : Node) : List Function :=
  node.functions ++ env.functions

/-- The names that are declared or defined in a node or in the body of a function in play. -/
def targetsInPlay (env : Environment) (node : Node) : List String :=
  node.targets ++ (env.functionsInPlay node).flatMap fun fn => fn.body.flatMap Node.targets

/-- The parameters of the functions in play. -/
def paramsInPlay (env : Environment) (node : Node) : List String :=
  (env.functionsInPlay node).flatMap (·.params)

/-! ## What a name stands for, frame by frame -/

/-- What a name stands for in every frame, innermost first. -/
def standing (env : Environment) (name : String) : List (Option Binding) :=
  env.frames.map (·.get? name)

variable {env : Environment} {name : String}

/-- A name is looked up among what stands under it, from the inside out. -/
lemma lookup_eq_findSome?_standing (env : Environment) (name : String) :
    env.lookup name = (env.standing name).findSome? id := by
  rw [lookup, standing, List.findSome?_map]
  rfl

/-- Under a name stand its bindings in the local frames, and then the global one. -/
lemma standing_eq (env : Environment) (name : String) :
    env.standing name = env.locals.map (·.get? name) ++ [env.globals.get? name] := by
  simp [standing, frames]

/-- Binding another name changes nothing. -/
theorem standing_declare {other : String} (h : name ≠ other) (b : Binding) :
    (env.declare other b).standing name = env.standing name := by
  unfold declare
  split
  · simp [standing_eq, bindGlobal, Frame.get?_insert, h]
  · next frame outer hlocals =>
    split
    · simp [standing_eq, hlocals, Frame.get?_insert, h]
    · simp [standing_eq, bindGlobal, Frame.get?_insert, h]

/-- Where calls have frames, a call puts a frame in front. -/
private lemma standing_inside_of_frames (h : env.scoping = .frames) (name : String)
    (params : List String) (arguments : List Float) :
    ∃ b, (env.inside params arguments).standing name = b :: env.standing name := by
  rw [inside_of_frames h]
  exact ⟨_, rfl⟩

/-- Where calls have frames, the end of a call takes the frame in front away. -/
theorem standing_leaveCall_of_frames (h : env.scoping = .frames) (fn : Function)
    {b : Option Binding} {outer : Environment}
    (hstanding : env.standing name = b :: outer.standing name) :
    (env.leaveCall fn).standing name = outer.standing name := by
  have hleave : (env.leaveCall fn).standing name =
      env.locals.tail.map (·.get? name) ++ [env.globals.get? name] := by
    simp [standing_eq, leaveCall, h]
  rw [standing_eq] at hstanding
  cases hlocals : env.locals with
  | nil =>
    -- the frame in front would be the global one, but there are frames outside
    rw [hlocals] at hstanding
    have hempty : outer.standing name = [] := (List.cons.inj hstanding).2.symm
    simp [standing, frames] at hempty
  | cons frame locals =>
    rw [hlocals] at hstanding
    rw [hleave, hlocals]
    exact (List.cons.inj hstanding).2

/-- Where names are shared, a call changes nothing but its parameters. -/
private lemma standing_inside_of_shared (h : env.scoping = .shared) (hlocals : env.locals = [])
    {params : List String} (hname : name ∉ params) (arguments : List Float) :
    (env.inside params arguments).standing name = env.standing name := by
  have hopened : env.opened = env := by rw [opened, h]
  have hzip : name ∉ (params.zip arguments).map (·.1) := by
    intro hmem
    obtain ⟨pair, hpair, rfl⟩ := List.mem_map.1 hmem
    exact hname (List.of_mem_zip hpair).1
  rw [inside, hopened, bindParams_of_locals_nil _ _ hlocals]
  simp [standing_eq, hlocals, Frame.get?_insertAll_of_not_mem hzip]

/-- Where names are shared, the end of a call unbinds its parameters. -/
theorem standing_leaveCall_of_shared (h : env.scoping = .shared) (hlocals : env.locals = [])
    (name : String) (fn : Function) :
    (env.leaveCall fn).standing name = if name ∈ fn.params then [none] else env.standing name := by
  have hleave : (env.leaveCall fn).standing name =
      [(fn.params.foldl Frame.erase env.globals).get? name] := by
    simp [standing_eq, leaveCall, h, foldl_remove_of_locals_nil _ hlocals, hlocals]
  rw [hleave, Frame.get?_foldl_erase, standing_eq, hlocals]
  split <;> rfl

end Environment

/-! ## What may become of a name -/

/-- Nothing in a node declares or defines the name, and a function in it has it as a parameter only
if it may be `dropped`. -/
def Node.Leaves (name : String) (dropped : Prop) (node : Node) : Prop :=
  ∀ inner ∈ node.subnodes, inner.target? ≠ some name ∧
    ∀ fn, inner = define fn → name ∈ fn.params → dropped

/-- The same of a function that is bound. -/
def Binding.Leaves (name : String) (dropped : Prop) : Binding → Prop
  | number _ => True
  | function fn => (name ∈ fn.params → dropped) ∧ ∀ node ∈ fn.body, node.Leaves name dropped

/-- A shape with just the global frame, if names are shared. -/
def Environment.Shape.Flat (s : Shape) : Prop := s.scoping = .shared → s.depth = 1

/-- An environment in which all functions leave a name alone.  If names are shared, there is just
the global frame. -/
structure Environment.Leaves (name : String) (dropped : Prop) (env : Environment) : Prop where
  every : env.Every (Binding.Leaves name dropped)
  flat : env.shape.Flat

/-- What may become of a name that is not declared: in every frame it stands for what it stood for,
or else names are shared, it may be `dropped`, and it is unbound. -/
def Law.leaves (name : String) (dropped : Prop) : Law :=
  fun env _ after => after.scoping = env.scoping ∧
    (after.standing name = env.standing name ∨
      env.scoping = .shared ∧ dropped ∧ after.standing name = [none])

variable {name : String} {dropped : Prop}

/-- Leaving a name as it stands holds of a course that is put together from others. -/
lemma Law.leaves_composes (name : String) (dropped : Prop) :
    (Law.leaves name dropped).Composes where
  refl _ := ⟨rfl, .inl rfl⟩
  trans := by
    rintro env middle after first rest ⟨hscoping, hfirst⟩ ⟨hscoping', hrest⟩
    refine ⟨hscoping'.trans hscoping, ?_⟩
    rcases hrest with hrest | ⟨hshared, hdropped, hnone⟩
    · rw [hrest]
      exact hfirst
    · exact .inr ⟨hscoping ▸ hshared, hdropped, hnone⟩

/-! ## Declarations and calls -/

namespace Environment

/-- There are no local frames under shared scoping, also inside of a call. -/
lemma Shape.Flat.entered {s : Shape} (h : s.Flat) : s.entered.Flat := by
  obtain ⟨depth, callDepth, scoping, limits⟩ := s
  cases scoping with
  | shared => exact h
  | frames =>
    intro hframes
    cases hframes

/-- There are no local frames under shared scoping, also after a call. -/
lemma Shape.Flat.left {s : Shape} (h : s.Flat) : s.left.Flat := by
  obtain ⟨depth, callDepth, scoping, limits⟩ := s
  cases scoping with
  | shared => exact h
  | frames =>
    intro hframes
    cases hframes

namespace Leaves

variable {env last : Environment}

/-- Under shared scoping there are no local frames. -/
lemma locals_eq_nil (h : env.Leaves name dropped) (hscoping : env.scoping = .shared) :
    env.locals = [] := by
  have hdepth : env.locals.length + 1 = 1 := h.flat hscoping
  exact List.length_eq_zero_iff.1 (by omega)

/-- Declaring something that leaves the name keeps the property. -/
lemma declare (h : env.Leaves name dropped) (id : String) {b : Binding}
    (hb : b.Leaves name dropped) : (env.declare id b).Leaves name dropped := by
  refine ⟨h.every.declare id hb, ?_⟩
  rw [shape_declare]
  exact h.flat

/-- Entering a body keeps the property. -/
lemma inside (h : env.Leaves name dropped) (params : List String) (arguments : List Float) :
    (env.inside params arguments).Leaves name dropped := by
  refine ⟨h.every.inside (fun _ => trivial) params arguments, ?_⟩
  rw [shape_inside]
  exact h.flat.entered

/-- Leaving a call keeps the property. -/
lemma leaveCall (h : env.Leaves name dropped) (fn : Function) :
    (env.leaveCall fn).Leaves name dropped := by
  refine ⟨h.every.leaveCall fn, ?_⟩
  rw [shape_leaveCall]
  exact h.flat.left

/-- **A call as a whole** keeps to the law if what is done inside it does, and if the name may be
dropped where it is a parameter.

**Proof sketch.** Where calls have frames, the parameters are in a frame that is gone after the
call.  Where names are shared, a parameter is unbound after the call, and every other name is what
the body has made of it. -/
private lemma whole_call (h : env.Leaves name dropped) {fn : Function} {arguments : List Float}
    (hfn : name ∈ fn.params → dropped) (hlast : last.Leaves name dropped) {moments : List Moment}
    (hbody : Law.leaves name dropped (env.inside fn.params arguments) moments last)
    (whole : List Moment) : Law.leaves name dropped env whole (last.leaveCall fn) := by
  obtain ⟨hscoping, hstanding⟩ := hbody
  have hinside : (env.inside fn.params arguments).scoping = env.scoping :=
    (congrArg Shape.scoping (shape_inside env _ _)).trans (Shape.scoping_entered _)
  have hleave : (last.leaveCall fn).scoping = last.scoping :=
    (congrArg Shape.scoping (shape_leaveCall last fn)).trans (Shape.scoping_left _)
  rw [hinside] at hscoping hstanding
  refine ⟨hleave.trans hscoping, ?_⟩
  cases henv : env.scoping with
  | frames =>
    obtain ⟨b, hb⟩ := standing_inside_of_frames henv name fn.params arguments
    rcases hstanding with hstanding | ⟨hshared, -⟩
    · exact .inl (standing_leaveCall_of_frames (hscoping.trans henv) fn (hstanding.trans hb))
    · rw [henv] at hshared
      cases hshared
  | shared =>
    have hleft := standing_leaveCall_of_shared (hscoping.trans henv)
      (hlast.locals_eq_nil (hscoping.trans henv)) name fn
    by_cases hparam : name ∈ fn.params
    · rw [if_pos hparam] at hleft
      exact .inr ⟨rfl, hfn hparam, hleft⟩
    · rw [if_neg hparam] at hleft
      rw [standing_inside_of_shared henv (h.locals_eq_nil henv) hparam] at hstanding
      rw [hleft]
      rcases hstanding with hstanding | ⟨-, hdropped, hnone⟩
      · exact .inl hstanding
      · exact .inr ⟨rfl, hdropped, hnone⟩

end Leaves

end Environment

/-! ## Evaluation -/

open Environment Eval

/-- The parts of a node that leaves a name leave it. -/
lemma Node.Leaves.part {node inner : Node} (h : node.Leaves name dropped)
    (hinner : inner ∈ node.parts) : inner.Leaves name dropped :=
  fun _ hnode => h _ (subnodes_subset_of_mem_parts hinner hnode)

/-- What a node binds is not the name, and leaves the name alone. -/
lemma Node.Leaves.binds {node : Node} (h : node.Leaves name dropped) {id : String} {b : Binding}
    (hbinds : node.Binds id b) : name ≠ id ∧ b.Leaves name dropped := by
  have hself := h node (mem_subnodes_self node)
  cases node with
  | declare bound value =>
    obtain ⟨rfl, number, rfl⟩ := hbinds
    exact ⟨fun heq => hself.1 (congrArg some heq.symm), trivial⟩
  | define fn =>
    obtain ⟨rfl, rfl⟩ := hbinds
    refine ⟨fun heq => hself.1 (congrArg some heq.symm), hself.2 fn rfl, ?_⟩
    exact fun inner hinner node hnode => h node (subnodes_subset_of_mem_body hinner hnode)
  | _ => exact hbinds.elim

/-- **Evaluation leaves a name alone** that is not declared in what can be run.

**Proof sketch.** Induction on how deeply evaluations may be nested.  Statements bind other names
only, and a function that is called leaves the name alone because all functions that are bound
do. -/
theorem Node.evaluate_leaves (patience depth : Nat) : ∀ (calls : List Function) {node : Node},
    node.Leaves name dropped →
      Follows (Environment.Leaves name dropped) (Law.leaves name dropped)
        (Node.evaluate patience depth node) (Node.moments patience depth calls node) := by
  have hlaw := Law.leaves_composes name dropped
  induction depth with
  | zero => exact fun _ _ _ => .throw hlaw _
  | succ depth ih =>
    intro calls node hnode
    have hstep : Follows (Environment.Leaves name dropped) (Law.leaves name dropped)
        (Node.step patience (Node.evaluate patience depth) node)
        (Node.stepMoments patience (Node.evaluate patience depth) (Node.moments patience depth)
          calls node) := by
      refine Node.step_follows hlaw (fun inner hinner => ih calls (hnode.part hinner)) ?_ ?_
      · intro id b hbinds env henv
        obtain ⟨hid, hb⟩ := hnode.binds hbinds
        refine ⟨henv.declare id hb, ?_, .inl (standing_declare hid b)⟩
        exact congrArg Shape.scoping (shape_declare env id b)
      · intro env callee fn henv hfn found
        obtain ⟨hparams, hbody⟩ : Binding.Leaves name dropped (.function fn) :=
          henv.every.functionOf hfn
        have hblock : Follows (Environment.Leaves name dropped) (Law.leaves name dropped)
            (Eval.block (Node.evaluate patience depth) fn.body)
            (Course.sequence (Node.evaluate patience depth)
              (Node.moments patience depth (fn :: calls)) fn.body) :=
          .block hlaw fun inner hinner => ih (fn :: calls) (hbody inner hinner)
        refine .insideCall hlaw ?_ hblock ?_
        · intro env inside henv henter
          obtain ⟨-, rfl⟩ := enterCall_eq_ok_iff.1 henter
          exact henv.inside fn.params found
        · intro env inside last moments henv henter hlast hinner
          obtain ⟨-, rfl⟩ := enterCall_eq_ok_iff.1 henter
          exact ⟨hlast.leaveCall fn, henv.whole_call hparams hlast hinner _⟩
    exact Node.evaluate_follows hstep fun _ _ _ _ hinner => hinner

namespace Node

variable {env : Environment} {node : Node}

/-- A name that no statement in play targets is left alone by the node, and may be dropped only if
it is a parameter in play. -/
private lemma leaves_of_not_mem_targets (h : name ∉ env.targetsInPlay node) :
    node.Leaves name (name ∈ env.paramsInPlay node) := by
  intro inner hinner
  refine ⟨fun htarget => h ?_, ?_⟩
  · exact List.mem_append_left _ (List.mem_filterMap.2 ⟨inner, hinner, htarget⟩)
  · rintro fn rfl hparam
    have hfn : fn ∈ env.functionsInPlay node :=
      List.mem_append_left _ (mem_functions_iff.2 hinner)
    exact List.mem_flatMap.2 ⟨fn, hfn, hparam⟩

/-- The same of all functions that are bound. -/
private lemma every_leaves_of_not_mem_targets (h : name ∉ env.targetsInPlay node) :
    env.Every (Binding.Leaves name (name ∈ env.paramsInPlay node)) := by
  intro frame hframe entry hentry
  cases hbinding : entry.binding with
  | number value => trivial
  | function bound =>
    have hplay : ∀ fn ∈ (define bound).functions, fn ∈ env.functionsInPlay node := by
      intro fn hfn
      refine List.mem_append_right _ (List.mem_flatMap.2 ⟨frame, hframe, ?_⟩)
      exact List.mem_flatMap.2 ⟨entry, hentry, by rw [hbinding]; exact hfn⟩
    have hbound := hplay bound (mem_functions_iff.2 (mem_subnodes_self _))
    refine ⟨fun hparam => List.mem_flatMap.2 ⟨bound, hbound, hparam⟩, ?_⟩
    intro statement hstatement inner hinner
    refine ⟨fun htarget => h (List.mem_append_right _ (List.mem_flatMap.2 ⟨bound, hbound, ?_⟩)), ?_⟩
    · exact List.mem_flatMap.2
        ⟨statement, hstatement, List.mem_filterMap.2 ⟨inner, hinner, htarget⟩⟩
    · rintro fn rfl hparam
      have hfn := hplay fn (mem_functions_iff.2 (subnodes_subset_of_mem_body hstatement hinner))
      exact List.mem_flatMap.2 ⟨fn, hfn, hparam⟩

/-- **Names that are not declared are kept, and no parameter is left behind.**  Take any environment
and any node, and a name that nothing in the node or in the functions in play declares or defines.
When the evaluation of the node has ended, with a value or with a failure, the name stands for what
it stood for before if calls have frames.  If names are shared, the name stands for what it stood
for or is unbound, and it is not unbound unless it is a parameter of a function in play.  Names are
shared in the global frame only: `Environment.Reachable.shape_balanced` says so of every environment
that a host can come to. -/
theorem undeclared_names_kept (hshared : env.scoping = .shared → env.depth = 1)
    (hname : name ∉ env.targetsInPlay node) (patience : Nat) :
    let after := final (node.run patience env)
    (env.scoping = .frames → after.lookup name = env.lookup name) ∧
      (env.scoping = .shared →
        (after.lookup name = env.lookup name ∨ after.lookup name = none) ∧
          (name ∉ env.paramsInPlay node → after.lookup name = env.lookup name)) := by
  intro after
  have henv : env.Leaves name (name ∈ env.paramsInPlay node) :=
    ⟨every_leaves_of_not_mem_targets hname, hshared⟩
  obtain ⟨-, -, hstanding⟩ := evaluate_leaves patience (env.reach [node]) []
    (leaves_of_not_mem_targets hname) henv
  have hlookup : ∀ {other : Environment}, other.standing name = env.standing name →
      other.lookup name = env.lookup name := by
    intro other h
    rw [lookup_eq_findSome?_standing, lookup_eq_findSome?_standing, h]
  rcases hstanding with hsame | ⟨hscoping, hparam, hnone⟩
  · have hkept : after.lookup name = env.lookup name := hlookup hsame
    exact ⟨fun _ => hkept, fun _ => ⟨.inl hkept, fun _ => hkept⟩⟩
  · have hdropped : after.lookup name = none := by
      rw [lookup_eq_findSome?_standing]
      exact congrArg (List.findSome? id) hnone
    refine ⟨fun hframes => ?_, fun _ => ⟨.inr hdropped, fun hnot => absurd hparam hnot⟩⟩
    rw [hscoping] at hframes
    cases hframes

/-- A call of a function with the parameter `x` that declares `y` and then fails.  With frames the
global `x` is kept; if names are shared it is unbound, and `z` is kept. -/
theorem undeclared_names_kept_failing_call :
    let fn : Function := ⟨"f", ["x"], [.declare "y" (.name "x"), .call "g" [.name "y"]]⟩
    let env : Scoping → Environment := fun scoping =>
      ⟨⟨[⟨"f", .function fn⟩, ⟨"x", .number 7⟩, ⟨"z", .number 8⟩]⟩, [], scoping, ⟨2, 1, none⟩, 0⟩
    let node : Node := .call "f" [.literal 3]
    let after : Scoping → Environment := fun scoping => final (node.run 0 (env scoping))
    ((env .shared).depth = 1 ∧ "x" ∉ (env .frames).targetsInPlay node ∧
        "x" ∉ (env .shared).targetsInPlay node ∧ "z" ∉ (env .shared).targetsInPlay node ∧
        "z" ∉ (env .shared).paramsInPlay node) ∧
      outcome (node.run 0 (env .shared)) = .error (.failure (.notDefined "g")) ∧
      (after .frames).lookup "x" = some (.number 7) ∧ (after .shared).lookup "x" = none ∧
      (after .shared).lookup "z" = some (.number 8) ∧ "y" ∈ (env .shared).targetsInPlay node ∧
      (after .shared).lookup "y" = some (.number 3) := by
  intro fn env node after
  have hdepth : (env .shared).depth = 1 := rfl
  have hframes : "x" ∉ (env .frames).targetsInPlay node := by decide
  have hx : "x" ∉ (env .shared).targetsInPlay node := by decide
  have hz : "z" ∉ (env .shared).targetsInPlay node := by decide
  have hparam : "z" ∉ (env .shared).paramsInPlay node := by decide
  have hfails : outcome (node.run 0 (env .shared)) = .error (.failure (.notDefined "g")) := rfl
  have hflat : (env .frames).scoping = .shared → (env .frames).depth = 1 := fun _ => rfl
  have hkept := (undeclared_names_kept hflat hframes 0).1 rfl
  have hshared := (undeclared_names_kept (fun _ => hdepth) hz 0).2 rfl
  -- the argument has taken the place of the global value, and the end of the call unbinds it
  have hdropped : (after .shared).lookup "x" = none := rfl
  exact ⟨⟨hdepth, hframes, hx, hz, hparam⟩, hfails, hkept, hdropped, hshared.2 hparam, by decide,
    rfl⟩

end Node

end Abacus
