import Mathlib.Tactic.Common
import Abacus.Proofs.CallFrames
import Abacus.Proofs.Termination

/-!
# Declarations that can be read back

A statement binds a name in the frame of the innermost call if that binds the name already, and
globally otherwise.  A name stands for what the innermost frame that binds it says.  The two rules
fit together unless an outer call binds the name and the innermost call does not: then the statement
binds the name globally, and the frame of the outer call hides what it binds.

Which names are hidden in this way does not change while something is evaluated, since evaluation
binds no new names in the frames of calls.  So it can be told before a declaration is evaluated
whether it can be read back.

## Main definitions

* `Abacus.Environment.hides` — the names that only outer calls bind.

## Main results

* `Abacus.Environment.lookup_declare`, `lookup_of_hides` — what a declared name stands for.
* `Abacus.Environment.Reachable.hides_run` — evaluation hides no more names.
* `Abacus.Environment.Reachable.declaration_read_back` — which declarations can be read back.
-/

namespace Abacus

namespace Environment

/-! ## Hidden names -/

/-- Whether the frame of a call binds a name that the frame of the innermost call does not bind. -/
def hides (env : Environment) (name : String) : Bool :=
  !env.locals.head?.any (·.contains name) && env.locals.tail.any (·.contains name)

/-- Without local frames no name is hidden. -/
lemma hides_of_locals_nil {env : Environment} (h : env.locals = []) (name : String) :
    env.hides name = false := by
  simp [hides, h]

/-- Where the local frames have the same names as before, the same names are hidden. -/
lemma Spares.hides_eq {targets : List String} {env after : Environment}
    (h : env.Spares targets after) (hlocals : env.SameLocals after) (name : String) :
    after.hides name = env.hides name := by
  rw [hides, hides, hlocals name, h.outer]

/-- A name is looked up in the local frames first, and then among the globals. -/
lemma lookup_eq (env : Environment) (name : String) :
    env.lookup name = (env.locals.findSome? (·.get? name)).or (env.globals.get? name) := by
  rw [lookup, frames, List.findSome?_append, List.findSome?_singleton]

/-- No frame knows a name that none of them binds. -/
private lemma findSome?_get?_eq_none {frames : List Frame} {name : String}
    (h : frames.any (·.contains name) = false) : frames.findSome? (·.get? name) = none := by
  refine List.findSome?_eq_none_iff.2 fun frame hframe => ?_
  have hnot := List.any_eq_false.1 h frame hframe
  exact Frame.contains_eq_false_iff.1 (Bool.eq_false_iff.2 hnot)

/-- A declared name that is not hidden stands for what was declared. -/
theorem lookup_declare {env : Environment} {name : String} (h : env.hides name = false)
    (b : Binding) : (env.declare name b).lookup name = some b := by
  unfold declare
  split
  · next hlocals =>
    rw [lookup_eq]
    simp [bindGlobal, hlocals, Frame.get?_insert]
  · next frame outer hlocals =>
    split
    · rw [lookup_eq]
      simp [Frame.get?_insert]
    · next hcontains =>
      have hframe := Bool.eq_false_iff.2 hcontains
      have houter : outer.any (·.contains name) = false := by
        simpa only [hides, hlocals, List.head?_cons, Option.any_some, hframe, Bool.not_false,
          List.tail_cons, Bool.true_and] using h
      have hnone : env.locals.findSome? (·.get? name) = none := by
        refine findSome?_get?_eq_none ?_
        rw [hlocals, List.any_cons, hframe, houter, Bool.or_false]
      rw [lookup_eq]
      simp [bindGlobal, hnone, Frame.get?_insert]

/-- A hidden name is declared globally. -/
lemma get?_globals_declare {env : Environment} {name : String} (h : env.hides name = true)
    (b : Binding) : (env.declare name b).globals.get? name = some b := by
  have hglobal : (env.bindGlobal name b).globals.get? name = some b := by
    rw [bindGlobal, Frame.get?_insert, if_pos rfl]
  unfold declare
  split
  · exact hglobal
  · next frame outer hlocals =>
    have hframe : frame.contains name = false := by
      have hhead := (Bool.and_eq_true_iff.1 h).1
      simpa only [hlocals, List.head?_cons, Option.any_some, Bool.not_eq_true'] using hhead
    rw [if_neg (by rw [hframe]; exact Bool.false_ne_true)]
    exact hglobal

/-- A hidden name stands for what the outer calls say. -/
theorem lookup_of_hides {env : Environment} {name : String} (h : env.hides name = true) :
    env.lookup name = env.locals.tail.findSome? (·.get? name) := by
  obtain ⟨hhead, htail⟩ := Bool.and_eq_true_iff.1 h
  cases hlocals : env.locals with
  | nil => simp [hlocals] at htail
  | cons frame outer =>
    simp only [hlocals, List.head?_cons, Option.any_some, Bool.not_eq_true', List.tail_cons]
      at hhead htail
    obtain ⟨binds, hbinds, hcontains⟩ := List.any_eq_true.1 htail
    obtain ⟨b, hb⟩ : ∃ b, outer.findSome? (·.get? name) = some b := by
      exact Option.isSome_iff_exists.1 (List.findSome?_isSome_iff.2 ⟨binds, hbinds, hcontains⟩)
    rw [lookup_eq, hlocals, List.findSome?_cons, Frame.contains_eq_false_iff.1 hhead,
      List.tail_cons, hb]
    rfl

/-! ## Evaluation -/

/-- Without frames of their own, calls add no frames. -/
lemma Reachable.locals_eq_nil {active : List Function} {env : Environment}
    (h : Reachable active env) (hscoping : env.scoping = .shared) : env.locals = [] := by
  have hdepth : env.locals.length + 1 = 1 := h.shape_balanced.shared hscoping
  exact List.length_eq_zero_iff.1 (by omega)

/-- **Evaluation hides no more names** and uncovers none, and it leaves the outer frames alone. -/
theorem Reachable.hides_run {active : List Function} {env : Environment} (h : Reachable active env)
    (patience : Nat) (node : Node) : let after := Eval.final (node.run patience env)
      after.locals.tail = env.locals.tail ∧ ∀ name, after.hides name = env.hides name := by
  intro after
  cases hscoping : env.scoping with
  | shared =>
    have hafter : after.locals = [] := by
      refine (h.evaluate patience node).locals_eq_nil ?_
      exact (congrArg Shape.scoping (Node.shape_run patience node env)).trans hscoping
    have hlocals := h.locals_eq_nil hscoping
    refine ⟨by rw [hafter, hlocals], fun name => ?_⟩
    rw [hides_of_locals_nil hafter, hides_of_locals_nil hlocals]
  | frames =>
    obtain ⟨-, hspares, hsame⟩ := Node.evaluate_spares patience _ [] node hscoping
    exact ⟨hspares.outer, hspares.hides_eq hsame⟩

end Environment

/-! ## Reading a declaration back -/

open Environment

/-- A declaration gives its value a name. -/
lemma Node.run_declare_eq_ok_iff {patience : Nat} {id : String} {value : Node} {v : Float}
    {env after : Environment} :
    (Node.declare id value).run patience env = .ok v after ↔
      ∃ middle, value.run patience env = .ok v middle ∧ after = middle.declare id (.number v) := by
  have hrun : (Node.declare id value).run patience env =
      ((value.run patience >>= fun found => do
        modify (·.declare id (.number found))
        return found) : Eval Float) env := Node.run_eq_step patience _ env
  rw [hrun, Eval.bind_run]
  cases value.run patience env with
  | error stop middle => simp
  | ok found middle =>
    constructor
    · intro h
      cases h
      exact ⟨middle, rfl, rfl⟩
    · rintro ⟨_, h, rfl⟩
      cases h
      rfl

/-- A function definition always succeeds. -/
lemma Node.run_define (patience : Nat) (f : Function) (env : Environment) :
    (Node.define f).run patience env = .ok 0 (env.declare f.name (.function f)) :=
  Node.run_eq_step patience _ env

/-- A name that stands for a number has it as its value. -/
lemma Node.run_name_of_lookup {patience : Nat} {id : String} {v : Float} {env : Environment}
    (h : env.lookup id = some (.number v)) : (Node.name id).run patience env = .ok v env := by
  have hrun : (Node.name id).run patience env = Eval.find (·.valueOf id) env :=
    Node.run_eq_step patience _ env
  rw [hrun, Eval.find_run, valueOf, h]

namespace Environment

/-- **Not every declaration can be read back.**  A call of `f` binds `x` to one, and inside it a
call of `g`, which has no parameter, declares `x` to be five.  The declaration succeeds with the
value five, and then `x` has the value one. -/
theorem Reachable.declaration_hidden_by_caller :
    let f : Function := ⟨"f", ["x"], []⟩
    let g : Function := ⟨"g", [], []⟩
    ∃ outer inside after, (Environment.withScoping .frames).enterCall f [1] = .ok outer ∧
      outer.enterCall g [] = .ok inside ∧ Reachable [g, f] inside ∧
      ∀ patience, (Node.declare "x" (.literal 5)).run patience inside = .ok 5 after ∧
        (Node.name "x").run patience after = .ok 1 after ∧ (1 : Float) ≠ 5 := by
  intro f g
  obtain ⟨outer, inside, houter, hinside⟩ : ∃ outer inside,
      (Environment.withScoping .frames).enterCall f [1] = .ok outer ∧
        outer.enterCall g [] = .ok inside := ⟨_, _, rfl, rfl⟩
  have hlookup : (inside.declare "x" (.number 5)).lookup "x" = some (.number 1) := by
    cases houter
    cases hinside
    rfl
  refine ⟨outer, inside, inside.declare "x" (.number 5), houter, hinside,
    .enterCall (.enterCall (.withScoping .frames) houter) hinside, fun patience => ⟨?_, ?_, ?_⟩⟩
  · exact Node.run_declare_eq_ok_iff.2 ⟨inside, Node.run_eq_step patience _ inside, rfl⟩
  · exact Node.run_name_of_lookup hlookup
  · decide

/-- **A declaration can be read back, unless a caller hides it.**  Take any environment that a host
can come to, and a variable that is declared there with success.  If the frame of the innermost call
binds the name, or if no frame of a call does, then the name has the value of the declaration from
there on.  Otherwise only outer calls bind the name: then the declaration binds it globally, and the
name stands for what it stood for.  The same holds of a function definition, which always succeeds.
Nothing is hidden if calls have no frames. -/
theorem Reachable.declaration_read_back {active : List Function} {env : Environment}
    (h : Reachable active env) :
    (∀ (patience : Nat) (x : String) (e : Node) (v : Float) (after : Environment),
      (Node.declare x e).run patience env = .ok v after →
        (env.hides x = false → ∀ patience, (Node.name x).run patience after = .ok v after) ∧
        (env.hides x = true →
          after.globals.get? x = some (.number v) ∧ after.lookup x = env.lookup x)) ∧
      (∀ (patience : Nat) (f : Function), ∃ after,
        (Node.define f).run patience env = .ok 0 after ∧
        (env.hides f.name = false → after.functionOf f.name = .ok f) ∧
        (env.hides f.name = true →
          after.globals.get? f.name = some (.function f) ∧
            after.lookup f.name = env.lookup f.name)) ∧
      (env.scoping = .shared → ∀ name, env.hides name = false) := by
  -- What is hidden stays so, and the outer frames that decide about it stay as they are.
  have hlookup : ∀ (patience : Nat) (node : Node) (name : String), env.hides name = true →
      (Eval.final (node.run patience env)).lookup name = env.lookup name := by
    intro patience node name hname
    obtain ⟨htail, hhides⟩ := h.hides_run patience node
    rw [lookup_of_hides hname, lookup_of_hides ((hhides name).trans hname), htail]
  refine ⟨fun patience x e v after hrun => ?_, fun patience f => ?_, fun hscoping => ?_⟩
  · have hafter := hlookup patience (.declare x e) x
    rw [hrun] at hafter
    obtain ⟨middle, hvalue, rfl⟩ := Node.run_declare_eq_ok_iff.1 hrun
    have hmiddle : middle.hides x = env.hides x := by
      have hhides := (h.hides_run patience e).2 x
      rwa [hvalue] at hhides
    refine ⟨fun hx _ => ?_, fun hx => ⟨?_, hafter hx⟩⟩
    · exact Node.run_name_of_lookup (lookup_declare (hmiddle.trans hx) _)
    · exact get?_globals_declare (hmiddle.trans hx) _
  · have hafter := hlookup patience (.define f) f.name
    rw [Node.run_define] at hafter
    refine ⟨_, Node.run_define patience f env, fun hf => ?_, fun hf => ⟨?_, hafter hf⟩⟩
    · rw [functionOf, lookup_declare hf]
    · exact get?_globals_declare hf _
  · exact hides_of_locals_nil (h.locals_eq_nil hscoping)

/-- Inside a call of `f` with a parameter `x` there is a call of `g` with a parameter `y`.  What is
declared as `y` can be read back, and what is declared as `x` cannot. -/
theorem Reachable.declaration_read_back_nested :
    let f : Function := ⟨"f", ["x"], []⟩
    let g : Function := ⟨"g", ["y"], []⟩
    ∃ outer inside, (Environment.withScoping .frames).enterCall f [1] = .ok outer ∧
      outer.enterCall g [2] = .ok inside ∧ Reachable [g, f] inside ∧
      inside.hides "y" = false ∧ inside.hides "x" = true ∧
      ∀ patience, (∃ after, (Node.declare "y" (.name "x")).run patience inside = .ok 1 after ∧
          (Node.name "y").run patience after = .ok 1 after) ∧
        ∃ after, (Node.declare "x" (.name "y")).run patience inside = .ok 2 after ∧
          after.globals.get? "x" = some (.number 2) ∧ after.lookup "x" = some (.number 1) := by
  intro f g
  obtain ⟨outer, inside, houter, hinside⟩ : ∃ outer inside,
      (Environment.withScoping .frames).enterCall f [1] = .ok outer ∧
        outer.enterCall g [2] = .ok inside := ⟨_, _, rfl, rfl⟩
  have hreach : Reachable [g, f] inside :=
    .enterCall (.enterCall (.withScoping .frames) houter) hinside
  have hlookup : inside.lookup "x" = some (.number 1) ∧ inside.lookup "y" = some (.number 2) ∧
      inside.hides "y" = false ∧ inside.hides "x" = true := by
    cases houter
    cases hinside
    exact ⟨rfl, rfl, rfl, rfl⟩
  obtain ⟨hx, hy, hfree, hhidden⟩ := hlookup
  refine ⟨outer, inside, houter, hinside, hreach, hfree, hhidden, fun patience => ⟨?_, ?_⟩⟩
  · have hrun : (Node.declare "y" (.name "x")).run patience inside =
        .ok 1 (inside.declare "y" (.number 1)) :=
      Node.run_declare_eq_ok_iff.2 ⟨inside, Node.run_name_of_lookup hx, rfl⟩
    have hback := hreach.declaration_read_back.1 patience _ _ _ _ hrun
    exact ⟨_, hrun, hback.1 hfree patience⟩
  · have hrun : (Node.declare "x" (.name "y")).run patience inside =
        .ok 2 (inside.declare "x" (.number 2)) :=
      Node.run_declare_eq_ok_iff.2 ⟨inside, Node.run_name_of_lookup hy, rfl⟩
    obtain ⟨hglobal, hsame⟩ := (hreach.declaration_read_back.1 patience _ _ _ _ hrun).2 hhidden
    exact ⟨_, hrun, hglobal, hsame.trans hx⟩

end Environment

end Abacus
