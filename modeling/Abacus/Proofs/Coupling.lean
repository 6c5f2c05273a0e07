import Mathlib.Tactic.Common
import Abacus.Evaluation

/-!
# Comparing evaluations

Much of what is to be said about evaluation compares two evaluations, step by step: of one node in
two environments, or with more and with less room to nest.  Two evaluations are coupled if they
take environments that fit together to one result and to environments that fit together again.
What an evaluation keeps by itself is the case where both environments are the same.

Every rule of evaluation couples if the evaluations of the inner nodes do.  `Node.step_coupled`
gathers the rules, so that a comparison only has to look at names, declarations, calls and loops.

## Main definitions

* `Abacus.Eval.Fits`, `Abacus.Eval.Coupled` — coupled results and coupled evaluations.
* `Abacus.Eval.Agree`, `Abacus.Eval.Keeps` — evaluations that do the same, and what one evaluation
  keeps.
* `Abacus.Node.parts` — the nodes that the rule of a node evaluates.

## Main results

* `Abacus.Eval.Coupled.bind` — one evaluation after the other.
* `Abacus.Eval.Coupled.call`, `loop`, `rounds` — the rules of calls and loops.
* `Abacus.Node.step_coupled` — all rules.
* `Abacus.Node.step_agree` — all rules, for evaluations that do the same.
-/

namespace Abacus

namespace Eval

variable {α β : Type}

/-- How two results fit together: the values are the same, or the reason to end early is the same
and among those that are expected.  Nothing is asked where the first evaluation was given up. -/
inductive Fits (inv : Environment → Environment → Prop) (ends lost : Stop → Prop) :
    EStateM.Result Stop Environment α → EStateM.Result Stop Environment α → Prop
  | ok {a : α} {env env' : Environment} :
      inv env env' → Fits inv ends lost (.ok a env) (.ok a env')
  | error {stop : Stop} {env env' : Environment} :
      ends stop → inv env env' → Fits inv ends lost (.error stop env) (.error stop env')
  | lost {stop : Stop} {env : Environment} {other : EStateM.Result Stop Environment α} :
      lost stop → Fits inv ends lost (.error stop env) other

/-- Two evaluations that take environments that fit together to results that fit together. -/
def Coupled (inv : Environment → Environment → Prop) (ends lost : Stop → Prop)
    (x y : Eval α) : Prop :=
  ∀ ⦃env env' : Environment⦄, inv env env' → Fits inv ends lost (x env) (y env')

/-- The environment that an evaluation leaves, however it ends. -/
def final : EStateM.Result Stop Environment α → Environment
  | .ok _ env => env
  | .error _ env => env

/-- How an evaluation ends: with a value, or early. -/
def outcome : EStateM.Result Stop Environment α → Except Stop α
  | .ok a _ => .ok a
  | .error stop _ => .error stop

/-- Two evaluations that do the same in every environment with a property, keep the property however
they end, and end early only for a reason that is expected. -/
abbrev Agree (P : Environment → Prop) (ends : Stop → Prop) (x y : Eval α) : Prop :=
  Coupled (fun env env' => env = env' ∧ P env) ends (fun _ => False) x y

/-- An evaluation that keeps a property of the environment however it ends, and that ends early
only for a reason that is expected. -/
abbrev Keeps (P : Environment → Prop) (ends : Stop → Prop) (x : Eval α) : Prop := Agree P ends x x

/-- Environments that evaluations leave fit together, unless the first was given up. -/
lemma Fits.final {inv : Environment → Environment → Prop} {ends : Stop → Prop}
    {r r' : EStateM.Result Stop Environment α} (h : Fits inv ends (fun _ => False) r r') :
    inv (final r) (final r') := by
  cases h with
  | ok hinv => exact hinv
  | error _ hinv => exact hinv
  | lost hlost => exact hlost.elim

/-- Results that fit without anything lost have one outcome. -/
lemma Fits.outcome_eq {inv : Environment → Environment → Prop} {ends : Stop → Prop}
    {r r' : EStateM.Result Stop Environment α} (h : Fits inv ends (fun _ => False) r r') :
    outcome r = outcome r' := by
  cases h with
  | ok => rfl
  | error => rfl
  | lost hlost => exact hlost.elim

/-- An error of a result that fits is one that evaluation may end with. -/
lemma Fits.ends_of_error {inv : Environment → Environment → Prop} {ends : Stop → Prop}
    {r r' : EStateM.Result Stop Environment α} (h : Fits inv ends (fun _ => False) r r')
    {stop : Stop} (hstop : outcome r = .error stop) : ends stop := by
  cases h with
  | ok => cases hstop
  | error hends =>
    cases hstop
    exact hends
  | lost hlost => exact hlost.elim

/-- Results that fit together are the same, unless the first evaluation was given up. -/
lemma Fits.eq {ends lost : Stop → Prop} {r r' : EStateM.Result Stop Environment α}
    (h : Fits Eq ends lost r r') (hr : ∀ stop, outcome r = .error stop → ¬ lost stop) : r = r' := by
  cases h with
  | ok hinv => rw [hinv]
  | error _ hinv => rw [hinv]
  | lost hlost => exact absurd hlost (hr _ rfl)

/-- Evaluation that keeps a property ends in an environment with it. -/
lemma Keeps.final {P : Environment → Prop} {ends : Stop → Prop} {x : Eval α}
    (h : Keeps P ends x) {env : Environment} (henv : P env) : P (final (x env)) :=
  (h ⟨rfl, henv⟩).final.2

/-- Evaluation that keeps a property fails only as it may. -/
lemma Keeps.ends {P : Environment → Prop} {ends : Stop → Prop} {x : Eval α}
    (h : Keeps P ends x) {env : Environment} (henv : P env) {stop : Stop}
    (hstop : outcome (x env) = .error stop) : ends stop :=
  (h ⟨rfl, henv⟩).ends_of_error hstop

/-- An evaluation agrees with one that does the same. -/
lemma Keeps.agree {P : Environment → Prop} {ends : Stop → Prop} {x y : Eval α}
    (h : Keeps P ends x) (hsame : ∀ env, P env → x env = y env) : Agree P ends x y := by
  rintro env _ ⟨rfl, henv⟩
  rw [← hsame env henv]
  exact h ⟨rfl, henv⟩

/-- Evaluations that agree give the same result. -/
lemma Agree.eq {P : Environment → Prop} {ends : Stop → Prop} {x y : Eval α}
    (h : Agree P ends x y) {env : Environment} (henv : P env) : x env = y env := by
  have hfits := h ⟨rfl, henv⟩
  generalize x env = r, y env = r' at hfits
  cases hfits with
  | ok hinv => rw [hinv.1]
  | error _ hinv => rw [hinv.1]
  | lost hlost => exact hlost.elim

/-- Evaluation goes on in the environment that it came to, unless it has failed. -/
lemma bind_run (x : Eval α) (next : α → Eval β) (env : Environment) :
    (x >>= next) env =
      match x env with
      | .ok a env => next a env
      | .error stop env => .error stop env := by
  change EStateM.bind x next env = _
  unfold EStateM.bind
  cases x env <;> rfl

/-- Looking something up leaves the environment alone. -/
lemma find_run (look : Environment → Except RuntimeError α) (env : Environment) :
    find look env =
      match look env with
      | .ok a => .ok a env
      | .error e => .error (.failure e) env := by
  change (match look env with
    | .ok a => pure a
    | .error e => fail e : Eval α) env = _
  cases look env <;> rfl

/-- How often a loop may run. -/
def mostRounds (patience : Nat) (env : Environment) : Nat := env.limits.rounds.getD patience

/-- Why a loop that would run more often ends. -/
def roundsStop (env : Environment) : Stop :=
  match env.limits.rounds with
  | some limit => .failure (.iterationLimit limit)
  | none => .tooLong

/-- A loop goes by the limit on rounds of the environment that it starts in. -/
lemma loop_run (f : Node → Eval Float) (patience : Nat) (conditions : List Node) (body : Block)
    (env : Environment) :
    loop f patience conditions body env =
      rounds f (roundsStop env) conditions body (mostRounds patience env) 0 env := by
  rw [loop, bind_run]
  simp only [mostRounds, roundsStop]
  change (match env.limits.rounds with
    | some limit => rounds f (.failure (.iterationLimit limit)) conditions body limit 0
    | none => rounds f .tooLong conditions body patience 0 : Eval Float) env = _
  cases env.limits.rounds <;> rfl

/-- A call looks its function up, compares the counts, evaluates the arguments and runs the body. -/
lemma call_run (f : Node → Eval Float) (callee : String) (arguments : List Node)
    (env : Environment) :
    call f callee arguments env =
      match env.functionOf callee with
      | .error e => .error (.failure e) env
      | .ok fn =>
        (if fn.params.length = arguments.length then
          values f arguments >>= fun found => insideCall fn found (block f fn.body)
        else fail (.argumentCount callee fn.params.length arguments.length) : Eval Float) env := by
  rw [call, bind_run, find_run]
  cases env.functionOf callee <;> rfl

namespace Coupled

variable {inv : Environment → Environment → Prop} {ends lost : Stop → Prop}

/-! ## Putting evaluations together -/

/-- A value is coupled with itself. -/
lemma pure (a : α) : Coupled inv ends lost (Pure.pure a : Eval α) (Pure.pure a) :=
  fun _ _ h => .ok h

/-- A failure that evaluation may end with is coupled with itself. -/
lemma throw {stop : Stop} (h : ends stop) :
    Coupled inv ends lost (MonadExcept.throw stop : Eval α) (MonadExcept.throw stop) :=
  fun _ _ henv => .error h henv

/-- What follows coupled evaluations is coupled. -/
theorem bind {x y : Eval α} {next next' : α → Eval β} (h : Coupled inv ends lost x y)
    (hnext : ∀ a, Coupled inv ends lost (next a) (next' a)) :
    Coupled inv ends lost (x >>= next) (y >>= next') := by
  intro env env' henv
  rw [bind_run, bind_run]
  have hxy := h henv
  generalize x env = r, y env' = r' at hxy
  cases hxy with
  | ok hinv => exact hnext _ hinv
  | error hends hinv => exact .error hends hinv
  | lost hlost => exact .lost hlost

/-- A failure that may be lost is coupled with anything. -/
lemma throw_lost {stop : Stop} (h : lost stop) (y : Eval α) :
    Coupled inv ends lost (MonadExcept.throw stop : Eval α) y :=
  fun _ _ _ => .lost h

/-- A choice is coupled if both alternatives are. -/
lemma ite {condition : Prop} [Decidable condition] {x y x' y' : Eval α}
    (h : Coupled inv ends lost x x') (h' : Coupled inv ends lost y y') :
    Coupled inv ends lost (if condition then x else y) (if condition then x' else y') := by
  split
  · exact h
  · exact h'

/-- A change of the environment that keeps environments fitting together. -/
lemma change {edit edit' : Environment → Environment}
    (h : ∀ ⦃env env' : Environment⦄, inv env env' → inv (edit env) (edit' env')) :
    Coupled inv ends lost (modify edit : Eval Unit) (modify edit') :=
  fun _ _ henv => .ok (h henv)

/-- Looking up the same thing in environments that fit together. -/
lemma find {look : Environment → Except RuntimeError α}
    (hsame : ∀ ⦃env env' : Environment⦄, inv env env' → look env = look env')
    (hends : ∀ ⦃env env' : Environment⦄ ⦃e : RuntimeError⦄, inv env env' → look env = .error e →
      ends (.failure e)) :
    Coupled inv ends lost (Eval.find look) (Eval.find look) := by
  intro env env' henv
  rw [find_run, find_run, ← hsame henv]
  cases hlook : look env with
  | ok a => exact .ok henv
  | error e => exact .error (hends henv hlook) henv

/-! ## The rules -/

section Rules

variable {f g : Node → Eval Float}

/-- Nodes that are evaluated one after the other are coupled if each of them is. -/
lemma values {nodes : List Node} (h : ∀ node ∈ nodes, Coupled inv ends lost (f node) (g node)) :
    Coupled inv ends lost (Eval.values f nodes) (Eval.values g nodes) := by
  induction nodes with
  | nil => exact pure []
  | cons node nodes ih =>
    refine bind (h node (by simp)) fun value => ?_
    exact bind (ih fun inner hinner => h inner (by simp [hinner])) fun values => pure _

/-- A block is coupled if its statements are. -/
lemma block {body : Block} (hempty : body = [] → ends (.failure .emptyBlock))
    (h : ∀ node ∈ body, Coupled inv ends lost (f node) (g node)) :
    Coupled inv ends lost (Eval.block f body) (Eval.block g body) := by
  induction body with
  | nil => exact throw (hempty rfl)
  | cons node body ih =>
    cases body with
    | nil => exact h node (by simp)
    | cons next body =>
      refine bind (h node (by simp)) fun _ => ?_
      exact ih (by simp) fun inner hinner => h inner (by simp [hinner])

/-- A chain of operations is coupled if its operands are. -/
lemma applyLinks {links : List Link}
    (h : ∀ link ∈ links, Coupled inv ends lost (f link.operand) (g link.operand)) :
    ∀ value, Coupled inv ends lost (Eval.applyLinks f value links)
      (Eval.applyLinks g value links) := by
  induction links with
  | nil => exact pure
  | cons link links ih =>
    intro value
    refine bind (h link (by simp)) fun right => ?_
    exact ih (fun inner hinner => h inner (by simp [hinner])) _

/-- A condition is coupled if its node is. -/
lemma holds {condition : Node} (h : Coupled inv ends lost (f condition) (g condition)) :
    Coupled inv ends lost (Eval.holds f condition) (Eval.holds g condition) :=
  bind h fun _ => pure _

/-- Conditions are coupled if each of them is. -/
lemma allHold {conditions : List Node}
    (h : ∀ node ∈ conditions, Coupled inv ends lost (f node) (g node)) :
    Coupled inv ends lost (Eval.allHold f conditions) (Eval.allHold g conditions) := by
  induction conditions with
  | nil => exact pure true
  | cons condition conditions ih =>
    refine bind (holds (h condition (by simp))) fun first => ?_
    exact bind (ih fun inner hinner => h inner (by simp [hinner])) fun others => pure _

/-- A conditional is coupled if its conditions and blocks are. -/
lemma choose {otherwise : Option Block} {branches : List (Branch Node)}
    (hempty : (otherwise = some [] ∨ ∃ branch ∈ branches, branch.body = []) →
      ends (.failure .emptyBlock))
    (hbranches : ∀ branch ∈ branches, Coupled inv ends lost (f branch.condition)
      (g branch.condition) ∧ ∀ node ∈ branch.body, Coupled inv ends lost (f node) (g node))
    (hotherwise : ∀ node ∈ otherwise.getD [], Coupled inv ends lost (f node) (g node)) :
    Coupled inv ends lost (Eval.choose f otherwise branches)
      (Eval.choose g otherwise branches) := by
  induction branches with
  | nil =>
    cases otherwise with
    | none => exact pure _
    | some body => exact block (fun h => hempty (.inl (by rw [h]))) hotherwise
  | cons branch branches ih =>
    obtain ⟨hcondition, hbody⟩ := hbranches branch (by simp)
    refine bind (holds hcondition) fun held => ite ?_ ?_
    · exact block (fun h => hempty (.inr ⟨branch, by simp, h⟩)) hbody
    · refine ih (fun h => hempty ?_) fun inner hinner => hbranches inner (by simp [hinner])
      rcases h with h | ⟨inner, hinner, h⟩
      · exact .inl h
      · exact .inr ⟨inner, by simp [hinner], h⟩

/-- Two loops couple that may run equally often, and so do loops of which the first gives up
earlier. -/
theorem rounds {conditions : List Node} {body : Block} {stop stop' : Stop}
    (hempty : body = [] → ends (.failure .emptyBlock))
    (hconditions : ∀ node ∈ conditions, Coupled inv ends lost (f node) (g node))
    (hbody : ∀ node ∈ body, Coupled inv ends lost (f node) (g node)) :
    ∀ {count count' : Nat}, ends stop ∧ stop = stop' ∧ count = count' ∨ lost stop ∧ count ≤ count' →
      ∀ last, Coupled inv ends lost (Eval.rounds f stop conditions body count last)
        (Eval.rounds g stop' conditions body count' last) := by
  intro count
  induction count with
  | zero =>
    intro count' hcount last
    rcases hcount with ⟨hends, rfl, rfl⟩ | ⟨hlost, -⟩
    · exact bind (allHold hconditions) fun held => ite (throw hends) (pure last)
    · cases count' with
      | zero => exact bind (allHold hconditions) fun held => ite (throw_lost hlost _) (pure last)
      | succ count' =>
        exact bind (allHold hconditions) fun held => ite (throw_lost hlost _) (pure last)
  | succ count ih =>
    intro count' hcount last
    obtain ⟨count', rfl⟩ : ∃ n, count' = n + 1 := ⟨count' - 1, by omega⟩
    refine bind (allHold hconditions) fun held => ite ?_ (pure last)
    refine bind (block hempty hbody) fun value => ih ?_ value
    rcases hcount with ⟨hends, hstop, heq⟩ | ⟨hlost, hle⟩
    · exact .inl ⟨hends, hstop, by omega⟩
    · exact .inr ⟨hlost, by omega⟩

/-- A loop is coupled if its conditions and its body are, and if the limits on its rounds are the
same or may be lost. -/
theorem loop {patience patience' : Nat} {conditions : List Node} {body : Block}
    (hempty : body = [] → ends (.failure .emptyBlock))
    (hconditions : ∀ node ∈ conditions, Coupled inv ends lost (f node) (g node))
    (hbody : ∀ node ∈ body, Coupled inv ends lost (f node) (g node))
    (hbudget : ∀ ⦃env env' : Environment⦄, inv env env' →
      ends (roundsStop env) ∧ roundsStop env = roundsStop env' ∧
          mostRounds patience env = mostRounds patience' env' ∨
        lost (roundsStop env) ∧ mostRounds patience env ≤ mostRounds patience' env') :
    Coupled inv ends lost (Eval.loop f patience conditions body)
      (Eval.loop g patience' conditions body) := by
  intro env env' henv
  rw [loop_run, loop_run]
  exact rounds hempty hconditions hbody (hbudget henv) 0 henv

/-- Calls couple if entering, the body and leaving do.  Inside the call, environments fit together
as `inner` says. -/
lemma insideCall {inner : Environment → Environment → Prop} {fn : Function}
    {arguments : List Float} {body body' : Eval Float}
    (hok : ∀ ⦃env env' entered : Environment⦄, inv env env' →
      env.enterCall fn arguments = .ok entered →
        ∃ entered', env'.enterCall fn arguments = .ok entered' ∧ inner entered entered')
    (herror : ∀ ⦃env env' : Environment⦄ ⦃e : RuntimeError⦄, inv env env' →
      env.enterCall fn arguments = .error e →
        ends (.failure e) ∧ env'.enterCall fn arguments = .error e ∨ lost (.failure e))
    (hbody : Coupled inner ends lost body body')
    (hleave : ∀ ⦃env env' : Environment⦄, inner env env' →
      inv (env.leaveCall fn) (env'.leaveCall fn)) :
    Coupled inv ends lost (Eval.insideCall fn arguments body)
      (Eval.insideCall fn arguments body') := by
  intro env env' henv
  cases henter : env.enterCall fn arguments with
  | error e =>
    rw [Eval.insideCall, henter]
    rcases herror henv henter with ⟨hends, henter'⟩ | hlost
    · rw [Eval.insideCall, henter']
      exact .error hends henv
    · exact .lost hlost
  | ok entered =>
    obtain ⟨entered', henter', hinner⟩ := hok henv henter
    simp only [Eval.insideCall, henter, henter']
    have hresult := hbody hinner
    generalize body entered = r, body' entered' = r' at hresult
    cases hresult with
    | ok hinv => exact .ok (hleave hinv)
    | error hends hinv => exact .error hends (hleave hinv)
    | lost hlost => exact .lost hlost

/-- A call is coupled if the same function is found, its arguments are coupled, and so are the
bodies that may be run. -/
theorem call {callee : String} {arguments : List Node}
    (hsame : ∀ ⦃env env' : Environment⦄, inv env env' →
      env.functionOf callee = env'.functionOf callee)
    (hmissing : ∀ ⦃env env' : Environment⦄ ⦃e : RuntimeError⦄, inv env env' →
      env.functionOf callee = .error e → ends (.failure e))
    (hcount : ∀ ⦃env env' : Environment⦄ ⦃fn : Function⦄, inv env env' →
      env.functionOf callee = .ok fn → fn.params.length ≠ arguments.length →
        ends (.failure (.argumentCount callee fn.params.length arguments.length)))
    (harguments : ∀ node ∈ arguments, Coupled inv ends lost (f node) (g node))
    (hbody : ∀ ⦃env env' : Environment⦄ ⦃fn : Function⦄, inv env env' →
      env.functionOf callee = .ok fn → fn.params.length = arguments.length →
        ∀ found, Coupled inv ends lost (Eval.insideCall fn found (Eval.block f fn.body))
          (Eval.insideCall fn found (Eval.block g fn.body))) :
    Coupled inv ends lost (Eval.call f callee arguments) (Eval.call g callee arguments) := by
  intro env env' henv
  rw [call_run, call_run, ← hsame henv]
  cases hfn : env.functionOf callee with
  | error e => exact .error (hmissing henv hfn) henv
  | ok fn =>
    by_cases hlength : fn.params.length = arguments.length
    · simp only [if_pos hlength]
      exact bind (values harguments) (hbody henv hfn hlength) henv
    · simp only [if_neg hlength]
      exact .error (hcount henv hfn hlength) henv

end Rules

end Coupled

/-- A call agrees if its body does, where the call can start.  Starting the call takes `P` to `Q`,
and ending it takes `Q` back. -/
lemma Agree.insideCall {P Q : Environment → Prop} {ends : Stop → Prop} {fn : Function}
    {arguments : List Float} {body body' : Eval Float} (hfailure : ∀ e, ends (.failure e))
    (henter : ∀ ⦃env entered : Environment⦄, P env → env.enterCall fn arguments = .ok entered →
      Q entered)
    (hbody : ∀ ⦃env entered : Environment⦄, P env → env.enterCall fn arguments = .ok entered →
      Agree Q ends body body')
    (hleave : ∀ ⦃env : Environment⦄, Q env → P (env.leaveCall fn)) :
    Agree P ends (Eval.insideCall fn arguments body) (Eval.insideCall fn arguments body') := by
  rintro env _ ⟨rfl, henv⟩
  cases hentered : env.enterCall fn arguments with
  | error e =>
    simp only [Eval.insideCall, hentered]
    exact .error (hfailure e) ⟨rfl, henv⟩
  | ok entered =>
    refine Coupled.insideCall ?_ ?_ (hbody henv hentered) ?_ ⟨rfl, henv⟩
    · rintro env _ entered ⟨rfl, henv⟩ hentered
      exact ⟨entered, hentered, rfl, henter henv hentered⟩
    · rintro env _ e ⟨rfl, -⟩ hfails
      exact .inl ⟨hfailure e, hfails⟩
    · rintro env _ ⟨rfl, henv⟩
      exact ⟨rfl, hleave henv⟩

end Eval

namespace Node

/-! ## All rules -/

/-- The nodes that the rule of a node evaluates.  The body of a function is not among them: it is
evaluated when the function is called. -/
def parts : Node → List Node
  | literal _ | name _ | define _ => []
  | binary op left right => left.leftmost :: (left.spine [⟨op, right⟩]).map (·.operand)
  | call _ arguments => arguments
  | declare _ value => [value]
  | choose branches otherwise =>
    branches.flatMap (fun branch => branch.condition :: branch.body) ++ otherwise.getD []
  | loop conditions body => conditions ++ body
  | block body => body

/-- The blocks that the rule of a node runs. -/
def blocks : Node → List Block
  | choose branches otherwise => branches.map (·.body) ++ otherwise.toList
  | loop _ body | block body => [body]
  | _ => []

/-- What a node binds, where it is a statement that binds a name. -/
def Binds : Node → String → Binding → Prop
  | declare id _, bound, b => bound = id ∧ ∃ value, b = .number value
  | define fn, bound, b => bound = fn.name ∧ b = .function fn
  | _, _, _ => False

open Eval in
/-- **The rule of a node couples** if the evaluations of its parts do, and what the node itself does
keeps environments fitting together. -/
theorem step_coupled {inv : Environment → Environment → Prop} {ends lost : Stop → Prop}
    {f g : Node → Eval Float} {patience patience' : Nat} {node : Node}
    (hparts : ∀ inner ∈ node.parts, Coupled inv ends lost (f inner) (g inner))
    (hempty : [] ∈ node.blocks → ends (.failure .emptyBlock))
    (hname : ∀ id, node = name id →
      Coupled inv ends lost (Eval.find (·.valueOf id)) (Eval.find (·.valueOf id)))
    (hbind : ∀ id b, node.Binds id b → ∀ ⦃env env' : Environment⦄, inv env env' →
      inv (env.declare id b) (env'.declare id b))
    (hcall : ∀ callee arguments, node = call callee arguments →
      Coupled inv ends lost (Eval.call f callee arguments) (Eval.call g callee arguments))
    (hloop : ∀ conditions body, node = loop conditions body →
      Coupled inv ends lost (Eval.loop f patience conditions body)
        (Eval.loop g patience' conditions body)) :
    Coupled inv ends lost (step patience f node) (step patience' g node) := by
  cases node with
  | literal value => exact .pure value
  | name id => exact hname id rfl
  | binary op left right =>
    refine .bind (hparts _ (by simp [parts])) fun value => ?_
    refine .applyLinks (fun link hlink => hparts _ ?_) value
    simp only [parts, List.mem_cons, List.mem_map]
    exact .inr ⟨link, hlink, rfl⟩
  | call callee arguments => exact hcall callee arguments rfl
  | declare id value =>
    refine .bind (hparts _ (by simp [parts])) fun found => ?_
    exact .bind (.change (hbind _ _ ⟨rfl, found, rfl⟩)) fun _ => .pure found
  | define fn => exact .bind (.change (hbind _ _ ⟨rfl, rfl⟩)) fun _ => .pure 0
  | choose branches otherwise =>
    refine .choose (fun h => hempty ?_) (fun branch hbranch => ⟨hparts _ ?_, fun inner hinner =>
      hparts _ ?_⟩) fun inner hinner => hparts _ ?_
    · rcases h with rfl | ⟨branch, hbranch, h⟩
      · simp [blocks]
      · exact List.mem_append_left _ (List.mem_map.2 ⟨branch, hbranch, h⟩)
    · exact List.mem_append_left _ (List.mem_flatMap.2 ⟨branch, hbranch, by simp⟩)
    · exact List.mem_append_left _ (List.mem_flatMap.2 ⟨branch, hbranch, by simp [hinner]⟩)
    · exact List.mem_append_right _ hinner
  | loop conditions body => exact hloop conditions body rfl
  | block body => exact .block (fun h => hempty (by simp [blocks, h])) hparts

open Eval in
/-- **The rule of a node agrees** with itself or with another, in every environment with a property,
if the evaluations of its parts and of the bodies that it calls do, and what it binds keeps the
property.  Failures are expected here. -/
theorem step_agree {P : Environment → Prop} {ends : Stop → Prop} {f g : Node → Eval Float}
    {patience : Nat} {node : Node} (hfailure : ∀ e, ends (.failure e))
    (hlong : ∀ ⦃env : Environment⦄, P env → ends (roundsStop env))
    (hparts : ∀ inner ∈ node.parts, Agree P ends (f inner) (g inner))
    (hbind : ∀ id b, node.Binds id b → ∀ ⦃env : Environment⦄, P env → P (env.declare id b))
    (hbody : ∀ ⦃env : Environment⦄ ⦃callee : String⦄ ⦃fn : Function⦄, P env →
      env.functionOf callee = .ok fn → ∀ found,
        Agree P ends (Eval.insideCall fn found (Eval.block f fn.body))
          (Eval.insideCall fn found (Eval.block g fn.body))) :
    Agree P ends (step patience f node) (step patience g node) := by
  refine step_coupled hparts (fun _ => hfailure _) ?_ ?_ ?_ ?_
  · rintro id -
    refine .find ?_ fun _ _ e _ _ => hfailure e
    rintro env _ ⟨rfl, -⟩
    rfl
  · rintro id b hbinds env _ ⟨rfl, henv⟩
    exact ⟨rfl, hbind id b hbinds henv⟩
  · rintro callee arguments rfl
    refine .call ?_ (fun _ _ e _ _ => hfailure e) (fun _ _ _ _ _ _ => hfailure _) hparts ?_
    · rintro env _ ⟨rfl, -⟩
      rfl
    · rintro env _ fn ⟨rfl, henv⟩ hfn - found
      exact hbody henv hfn found
  · rintro conditions body rfl
    refine .loop (fun _ => hfailure _) (fun inner h => hparts inner (List.mem_append_left _ h))
      (fun inner h => hparts inner (List.mem_append_right _ h)) ?_
    rintro env _ ⟨rfl, henv⟩
    exact .inl ⟨hlong henv, rfl, rfl⟩

end Node

end Abacus
