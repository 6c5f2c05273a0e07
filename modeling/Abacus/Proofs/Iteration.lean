import Mathlib.Tactic.Common
import Abacus.Proofs.Sessions

/-!
# Loops as bounded iteration

A loop goes through rounds.  In a round all conditions are evaluated, one after the other, each of
them even if one before it does not hold; if all hold, the body is run.  The loop ends with the
first round that is not complete: some condition does not hold, a condition or the body fails, or
the conditions hold once more after as many rounds as the limit allows.

Rounds are told here by how evaluations end, and not by the rule for loops.  Without a limit on
rounds an evaluation need not end, and whether it does is a matter of what every host gets that is
patient enough.

## Main definitions

* `Abacus.Eval.Ends` — how an evaluation ends, for a host that is patient enough.
* `Abacus.Node.Checks` — how the conditions of a loop are evaluated.
* `Abacus.Node.Rounds` — complete rounds of a loop.
* `Abacus.Node.LastRound` — how the round ends that is not complete.

## Main results

* `Abacus.Eval.Patient.ends_bind_iff` — how one evaluation after the other ends.
* `Abacus.Node.Rounds.ends`, `Abacus.Node.Rounds.exists_lastRound` — complete rounds of a loop, and
  the one after them.
* `Abacus.Node.loop_is_bounded_iteration` — a loop ends as its rounds say, and in no other way.
-/

namespace Abacus

namespace Eval

variable {α β : Type} {env after : Environment}

/-! ## How evaluations end -/

/-- An evaluation ends with a result, and leaves an environment, for every host that is patient
enough. -/
def Ends (x : Nat → Eval α) (env : Environment) (result : Except RuntimeError α)
    (after : Environment) : Prop :=
  ∃ enough, ∀ patience, enough ≤ patience → x patience env = finished result after

/-- More patience changes no result of an evaluation. -/
def Patient (x : Nat → Eval α) : Prop :=
  ∀ ⦃patience patience' : Nat⦄, patience ≤ patience' →
    Coupled Eq (fun _ => True) Unfinished (x patience) (x patience')

/-- What is finished has not stopped unfinished. -/
lemma not_unfinished_of_finished {r : EStateM.Result Stop Environment α}
    {result : Except RuntimeError α} (h : r = finished result after) {stop : Stop}
    (hstop : outcome r = .error stop) : ¬ Unfinished stop := by
  subst h
  cases result with
  | ok a => cases hstop
  | error e =>
    cases hstop
    rintro (h | h) <;> cases h

/-- A result that stopped is finished if it stopped with an error of evaluation. -/
lemma error_eq_finished_iff {stop : Stop} {result : Except RuntimeError α} :
    EStateM.Result.error stop env = finished result after ↔
      ∃ e, stop = .failure e ∧ result = .error e ∧ env = after := by
  cases result with
  | ok a => simp [finished]
  | error e =>
    simp only [finished, EStateM.Result.error.injEq, Except.error.injEq]
    constructor
    · rintro ⟨rfl, rfl⟩
      exact ⟨e, rfl, rfl, rfl⟩
    · rintro ⟨e', rfl, rfl, rfl⟩
      exact ⟨rfl, rfl⟩

/-- A value ends with itself at once. -/
lemma ends_pure_iff {a : α} {result : Except RuntimeError α} :
    Ends (fun _ => pure a) env result after ↔ result = .ok a ∧ env = after := by
  have hrun : (pure a : Eval α) env = finished result after ↔ result = .ok a ∧ env = after := by
    change EStateM.Result.ok a env = finished result after ↔ _
    cases result with
    | ok b => simp [finished, eq_comm]
    | error e => simp [finished]
  rw [← hrun]
  exact ⟨fun ⟨enough, h⟩ => h enough (Nat.le_refl _), fun h => ⟨0, fun _ _ => h⟩⟩

/-- A failure ends with itself at once, if it is an error of evaluation. -/
private lemma ends_throw_iff {stop : Stop} {result : Except RuntimeError α} :
    Ends (fun _ => throw stop) env result after ↔
      ∃ e, stop = .failure e ∧ result = .error e ∧ env = after := by
  rw [← error_eq_finished_iff]
  exact ⟨fun ⟨enough, h⟩ => h enough (Nat.le_refl _), fun h => ⟨0, fun _ _ => h⟩⟩

namespace Patient

variable {x : Nat → Eval α} {next : Nat → α → Eval β}

/-- More patience does not change a value. -/
lemma pure (a : α) : Patient (fun _ => Pure.pure a) := fun _ _ _ => .pure a

/-- More patience does not change a failure. -/
lemma throw (stop : Stop) : Patient (fun _ => MonadExcept.throw stop : Nat → Eval α) :=
  fun _ _ _ => .throw trivial

/-- Evaluation in two steps is patient if both steps are. -/
lemma bind (hx : Patient x) (hnext : ∀ a, Patient fun patience => next patience a) :
    Patient fun patience => x patience >>= next patience :=
  fun _ _ hle => (hx hle).bind fun a => hnext a hle

/-- An evaluation ends with a result if some host gets that result. -/
lemma ends_iff (hx : Patient x) {result : Except RuntimeError α} :
    Ends x env result after ↔ ∃ patience, x patience env = finished result after := by
  constructor
  · rintro ⟨enough, h⟩
    exact ⟨enough, h enough (Nat.le_refl _)⟩
  · rintro ⟨patience, h⟩
    refine ⟨patience, fun patience' hle => ?_⟩
    rw [← (hx hle rfl).eq fun stop => not_unfinished_of_finished h, h]

/-- **How one evaluation after the other ends**: as the second does in the environment that the
first leaves, or as the first does if it fails. -/
theorem ends_bind_iff (hx : Patient x) (hnext : ∀ a, Patient fun patience => next patience a)
    {result : Except RuntimeError β} :
    Ends (fun patience => x patience >>= next patience) env result after ↔
      (∃ a middle, Ends x env (.ok a) middle ∧
          Ends (fun patience => next patience a) middle result after) ∨
        ∃ e, Ends x env (.error e) after ∧ result = .error e := by
  constructor
  · rintro ⟨enough, h⟩
    have hboth : (x enough >>= next enough) env = finished result after := h enough (Nat.le_refl _)
    rw [bind_run] at hboth
    cases hfirst : x enough env with
    | ok a middle =>
      rw [hfirst] at hboth
      exact .inl ⟨a, middle, hx.ends_iff.2 ⟨enough, hfirst⟩, (hnext a).ends_iff.2 ⟨enough, hboth⟩⟩
    | error stop middle =>
      rw [hfirst] at hboth
      obtain ⟨e, rfl, rfl, rfl⟩ := error_eq_finished_iff.1 hboth
      exact .inr ⟨e, hx.ends_iff.2 ⟨enough, hfirst⟩, rfl⟩
  · rintro (⟨a, middle, ⟨enough, hfirst⟩, enough', hsecond⟩ | ⟨e, ⟨enough, hfirst⟩, rfl⟩)
    · refine ⟨max enough enough', fun patience hle => ?_⟩
      change (x patience >>= next patience) env = _
      rw [bind_run, hfirst patience (by omega)]
      exact hsecond patience (by omega)
    · refine ⟨enough, fun patience hle => ?_⟩
      change (x patience >>= next patience) env = _
      rw [bind_run, hfirst patience hle]
      rfl

/-- How an evaluation ends whose value is changed by a function. -/
lemma ends_map_iff (hx : Patient x) {f : α → β} {result : Except RuntimeError β} :
    Ends (fun patience => (do return f (← x patience) : Eval β)) env result after ↔
      (∃ a, Ends x env (.ok a) after ∧ result = .ok (f a)) ∨
        ∃ e, Ends x env (.error e) after ∧ result = .error e := by
  refine (hx.ends_bind_iff fun a => .pure (f a)).trans (or_congr_left ?_)
  simp only [ends_pure_iff]
  constructor
  · rintro ⟨a, _, ha, rfl, rfl⟩
    exact ⟨a, ha, rfl⟩
  · rintro ⟨a, ha, rfl⟩
    exact ⟨a, after, ha, rfl, rfl⟩

end Patient

end Eval

namespace Node

open Eval

variable {conditions : List Node} {body : Block} {env after : Environment}

/-- Evaluating a node is patient. -/
lemma run_patient (node : Node) : Patient fun patience => node.run patience := by
  rintro patience patience' hle env _ rfl
  exact evaluate_coupled_of_le Unfinished (.inl rfl) (.inr ⟨.inr rfl, hle⟩) (Nat.le_refl _) node rfl

/-- Evaluating a block is patient. -/
lemma runBlock_patient (body : Block) : Patient fun patience => runBlock patience body := by
  intro patience patience' hle
  simp only [runBlock_eq_block]
  exact .block (fun _ => trivial) fun node _ => node.run_patient hle

/-- Evaluating conditions is patient. -/
lemma allHold_patient (conditions : List Node) :
    Patient fun patience => allHold (run patience) conditions :=
  fun _ _ hle => .allHold fun node _ => node.run_patient hle

/-- A fixed number of rounds is patient. -/
lemma rounds_patient (stop : Stop) (conditions : List Node) (body : Block) (count : Nat)
    (last : Float) :
    Patient fun patience => rounds (run patience) stop conditions body count last :=
  fun _ _ hle => .rounds (fun _ => trivial) (fun node _ => node.run_patient hle)
    (fun node _ => node.run_patient hle) (.inl ⟨trivial, rfl, rfl⟩) last

/-! ## Conditions -/

/-- How the conditions of a loop are evaluated.  They are evaluated from left to right, each in the
environment that the one before it leaves, and all of them unless one fails.  The result tells
whether all hold. -/
inductive Checks : List Node → Environment → Except RuntimeError Bool → Environment → Prop
  | nil {env : Environment} : Checks [] env (.ok true) env
  | cons {condition : Node} {conditions : List Node} {env middle after : Environment}
      {value : Float} {held : Bool} :
      Ends condition.run env (.ok value) middle → Checks conditions middle (.ok held) after →
        Checks (condition :: conditions) env (.ok (Number.truthy value && held)) after
  | fails {condition : Node} {conditions : List Node} {env after : Environment} {e : RuntimeError} :
      Ends condition.run env (.error e) after →
        Checks (condition :: conditions) env (.error e) after
  | failsLater {condition : Node} {conditions : List Node} {env middle after : Environment}
      {value : Float} {e : RuntimeError} :
      Ends condition.run env (.ok value) middle → Checks conditions middle (.error e) after →
        Checks (condition :: conditions) env (.error e) after

/-- **All conditions are evaluated** by the rule for loops. -/
lemma ends_allHold_iff {result : Except RuntimeError Bool} :
    Ends (fun patience => allHold (run patience) conditions) env result after ↔
      Checks conditions env result after := by
  induction conditions generalizing env result after with
  | nil =>
    refine ends_pure_iff.trans ⟨?_, ?_⟩
    · rintro ⟨rfl, rfl⟩
      exact .nil
    · rintro ⟨⟩
      exact ⟨rfl, rfl⟩
  | cons condition conditions ih =>
    have hothers := allHold_patient conditions
    have hfirst : Patient fun patience => holds (run patience) condition :=
      condition.run_patient.bind fun _ => .pure _
    refine (hfirst.ends_bind_iff fun first => hothers.bind fun _ => .pure _).trans ?_
    simp only [holds, condition.run_patient.ends_map_iff, hothers.ends_map_iff, ih]
    constructor
    · rintro (⟨_, middle, ⟨value, hvalue, ⟨⟩⟩ | ⟨e, -, ⟨⟩⟩, hrest⟩ |
        ⟨e, ⟨value, -, ⟨⟩⟩ | ⟨_, hfails, ⟨⟩⟩, rfl⟩)
      · obtain ⟨others, hrest, rfl⟩ | ⟨e, hrest, rfl⟩ := hrest
        · exact .cons hvalue hrest
        · exact .failsLater hvalue hrest
      · exact .fails hfails
    · intro h
      cases h with
      | @cons _ _ _ middle _ value others hvalue hrest =>
        exact .inl ⟨_, middle, .inl ⟨value, hvalue, rfl⟩, .inl ⟨others, hrest, rfl⟩⟩
      | fails hfails => exact .inr ⟨_, .inr ⟨_, hfails, rfl⟩, rfl⟩
      | @failsLater _ _ _ middle _ value e hvalue hrest =>
        exact .inl ⟨_, middle, .inl ⟨value, hvalue, rfl⟩, .inr ⟨e, hrest, rfl⟩⟩

/-! ## Rounds -/

/-- Some complete rounds of a loop: every time all conditions hold and the body has a value.  The
number of rounds comes first, and then the environment at the start, the value of the last round,
which is zero if there is none, and the environment that is left. -/
inductive Rounds (conditions : List Node) (body : Block) :
    Nat → Environment → Float → Environment → Prop
  | none {env : Environment} : Rounds conditions body 0 env 0 env
  | another {count : Nat} {env before checked after : Environment} {last value : Float} :
      Rounds conditions body count env last before → Checks conditions before (.ok true) checked →
        Ends (fun patience => runBlock patience body) checked (.ok value) after →
          Rounds conditions body (count + 1) env value after

/-- How the round ends that is not complete, after `count` rounds the last of which has the value
`last`.  The first index is how often the body has been run, whether or not it had a value. -/
inductive LastRound (conditions : List Node) (body : Block) (limit : Option Nat) (count : Nat)
    (last : Float) (before : Environment) : Nat → Except RuntimeError Float → Environment → Prop
  /-- Some condition does not hold: the loop has the value of the round before. -/
  | exit {after : Environment} : Checks conditions before (.ok false) after →
      LastRound conditions body limit count last before count (.ok last) after
  /-- A condition fails, and so does the loop. -/
  | conditionFails {e : RuntimeError} {after : Environment} :
      Checks conditions before (.error e) after →
        LastRound conditions body limit count last before count (.error e) after
  /-- The body fails, and so does the loop. -/
  | bodyFails {e : RuntimeError} {checked after : Environment} :
      Checks conditions before (.ok true) checked →
        Ends (fun patience => runBlock patience body) checked (.error e) after →
          LastRound conditions body limit count last before (count + 1) (.error e) after
  /-- The conditions hold after as many rounds as the limit allows: the body is not run again. -/
  | exceeds {after : Environment} : limit = some count → Checks conditions before (.ok true) after →
      LastRound conditions body limit count last before count (.error (.iterationLimit count)) after

section Rounds

variable {stop : Stop} {last : Float} {result : Except RuntimeError Float}

/-- One round, which goes on with `more` if all conditions hold. -/
lemma ends_round_iff {more : Nat → Eval Float} (hmore : Patient more) :
    Ends (fun patience => do
        if ← allHold (run patience) conditions then more patience else return last)
        env result after ↔
      (Checks conditions env (.ok false) after ∧ result = .ok last) ∨
        (∃ checked, Checks conditions env (.ok true) checked ∧ Ends more checked result after) ∨
          ∃ e, Checks conditions env (.error e) after ∧ result = .error e := by
  have hnext : ∀ held : Bool,
      Patient fun patience => (if held then more patience else pure last : Eval Float) := by
    intro held
    cases held with
    | false => exact .pure last
    | true => exact hmore
  refine ((allHold_patient conditions).ends_bind_iff hnext).trans ?_
  rw [← or_assoc]
  refine or_congr ?_ (by simp only [ends_allHold_iff])
  simp only [ends_allHold_iff, Bool.exists_bool, Bool.false_eq_true, if_false, if_true,
    ends_pure_iff]
  refine or_congr_left ⟨?_, ?_⟩
  · rintro ⟨_, hchecks, rfl, rfl⟩
    exact ⟨hchecks, rfl⟩
  · rintro ⟨hchecks, rfl⟩
    exact ⟨after, hchecks, rfl, rfl⟩

/-- The rule for loops, where the body may not be run again. -/
lemma ends_rounds_zero_iff :
    Ends (fun patience => rounds (run patience) stop conditions body 0 last) env result after ↔
      (Checks conditions env (.ok false) after ∧ result = .ok last) ∨
        (∃ e, stop = .failure e ∧ Checks conditions env (.ok true) after ∧ result = .error e) ∨
          ∃ e, Checks conditions env (.error e) after ∧ result = .error e := by
  refine (ends_round_iff (.throw stop)).trans (or_congr_right (or_congr_left ?_))
  simp only [ends_throw_iff]
  constructor
  · rintro ⟨_, hchecks, e, hstop, hresult, rfl⟩
    exact ⟨e, hstop, hchecks, hresult⟩
  · rintro ⟨e, hstop, hchecks, hresult⟩
    exact ⟨after, hchecks, e, hstop, hresult, rfl⟩

/-- The rule for loops, where the body may be run again. -/
lemma ends_rounds_succ_iff {count : Nat} :
    Ends (fun patience => rounds (run patience) stop conditions body (count + 1) last)
        env result after ↔
      (Checks conditions env (.ok false) after ∧ result = .ok last) ∨
        (∃ checked, Checks conditions env (.ok true) checked ∧
          ((∃ value next, Ends (fun patience => runBlock patience body) checked (.ok value) next ∧
              Ends (fun patience => rounds (run patience) stop conditions body count value)
                next result after) ∨
            ∃ e, Ends (fun patience => runBlock patience body) checked (.error e) after ∧
              result = .error e)) ∨
          ∃ e, Checks conditions env (.error e) after ∧ result = .error e := by
  have hmore : Patient fun patience => (do
      let value ← runBlock patience body
      rounds (run patience) stop conditions body count value : Eval Float) :=
    (runBlock_patient body).bind fun value => rounds_patient stop conditions body count value
  simp only [rounds, ← runBlock_eq_block]
  refine (ends_round_iff hmore).trans ?_
  simp only [(runBlock_patient body).ends_bind_iff fun value =>
    rounds_patient stop conditions body count value]

/-- **After complete rounds a loop goes on** as one that may run its body less often, in the
environment that the rounds leave. -/
theorem Rounds.ends {count allowed : Nat} {before : Environment}
    (h : Rounds conditions body count env last before) (hle : count ≤ allowed)
    (hrest : Ends (fun patience =>
      rounds (run patience) stop conditions body (allowed - count) last) before result after) :
    Ends (fun patience => rounds (run patience) stop conditions body allowed 0)
      env result after := by
  induction h with
  | none => exact hrest
  | @another count env before checked next last value _ hchecks hbody ih =>
    have hleft : allowed - count = allowed - (count + 1) + 1 := by omega
    refine ih (by omega) ?_
    rw [hleft, ends_rounds_succ_iff]
    exact .inr (.inl ⟨checked, hchecks, .inl ⟨value, next, hbody, hrest⟩⟩)

/-- **How a loop ends after complete rounds**, if it may run its body `allowed` times in all. -/
lemma LastRound.ends {limit : Option Nat} {count runs allowed : Nat} {before : Environment}
    (hrounds : Rounds conditions body count env last before)
    (h : LastRound conditions body limit count last before runs result after)
    (hle : runs ≤ allowed)
    (hlimit : ∀ most, limit = some most → allowed = most ∧ stop = .failure (.iterationLimit most)) :
    Ends (fun patience => rounds (run patience) stop conditions body allowed 0)
      env result after := by
  cases h with
  | exit hchecks =>
    refine hrounds.ends hle ?_
    cases allowed - count with
    | zero => exact ends_rounds_zero_iff.2 (.inl ⟨hchecks, rfl⟩)
    | succ left => exact ends_rounds_succ_iff.2 (.inl ⟨hchecks, rfl⟩)
  | conditionFails hchecks =>
    refine hrounds.ends hle ?_
    cases allowed - count with
    | zero => exact ends_rounds_zero_iff.2 (.inr (.inr ⟨_, hchecks, rfl⟩))
    | succ left => exact ends_rounds_succ_iff.2 (.inr (.inr ⟨_, hchecks, rfl⟩))
  | bodyFails hchecks hbody =>
    have hleft : allowed - count = allowed - (count + 1) + 1 := by omega
    refine hrounds.ends (Nat.le_of_succ_le hle) ?_
    rw [hleft, ends_rounds_succ_iff]
    exact .inr (.inl ⟨_, hchecks, .inr ⟨_, hbody, rfl⟩⟩)
  | exceeds hmost hchecks =>
    obtain ⟨rfl, rfl⟩ := hlimit count hmost
    refine hrounds.ends (Nat.le_refl _) ?_
    rw [Nat.sub_self, ends_rounds_zero_iff]
    exact .inr (.inl ⟨_, rfl, hchecks, rfl⟩)

/-- **A loop ends after complete rounds with one that is not complete.**

**Proof sketch.** Induction on how often the body may still be run.  A round is complete, and then
the loop goes on after one more complete round, or it is the last one. -/
theorem Rounds.exists_lastRound (limit : Option Nat) {start : Environment} {allowed : Nat} :
    ∀ {left count : Nat} {env : Environment} {last : Float},
      Rounds conditions body count start last env → count + left = allowed →
      (∀ e, stop = .failure e → limit = some allowed ∧ e = .iterationLimit allowed) →
      Ends (fun patience => rounds (run patience) stop conditions body left last) env result after →
        ∃ count last before runs, Rounds conditions body count start last before ∧
          LastRound conditions body limit count last before runs result after ∧ runs ≤ allowed := by
  intro left
  induction left with
  | zero =>
    intro count env last hrounds hall hstop hends
    rcases ends_rounds_zero_iff.1 hends with
      ⟨hchecks, rfl⟩ | ⟨e, rfl, hchecks, rfl⟩ | ⟨e, hchecks, rfl⟩
    · exact ⟨count, last, env, count, hrounds, .exit hchecks, by omega⟩
    · obtain ⟨hlimit, rfl⟩ := hstop e rfl
      obtain rfl : count = allowed := hall
      exact ⟨count, last, env, count, hrounds, .exceeds hlimit hchecks, Nat.le_refl _⟩
    · exact ⟨count, last, env, count, hrounds, .conditionFails hchecks, by omega⟩
  | succ left ih =>
    intro count env last hrounds hall hstop hends
    rcases ends_rounds_succ_iff.1 hends with
      ⟨hchecks, rfl⟩ | ⟨checked, hchecks, ⟨value, next, hbody, hmore⟩ | ⟨e, hbody, rfl⟩⟩ |
        ⟨e, hchecks, rfl⟩
    · exact ⟨count, last, env, count, hrounds, .exit hchecks, by omega⟩
    · exact ih (hrounds.another hchecks hbody) (by omega) hstop hmore
    · exact ⟨count, last, env, count + 1, hrounds, .bodyFails hchecks hbody, by omega⟩
    · exact ⟨count, last, env, count, hrounds, .conditionFails hchecks, by omega⟩

end Rounds

/-! ## Loops -/

/-- A loop is evaluated round after round. -/
lemma run_loop (patience : Nat) (conditions : List Node) (body : Block) (env : Environment) :
    (loop conditions body).run patience env =
      rounds (run patience) (roundsStop env) conditions body (mostRounds patience env) 0 env := by
  rw [run_eq_step]
  exact loop_run (run patience) patience conditions body env

/-- A loop with a limit may run its body as often as that says. -/
private lemma ends_loop_iff_of_limit {limit : Nat} (h : env.limits.rounds = some limit)
    {result : Except RuntimeError Float} :
    Ends (loop conditions body).run env result after ↔
      Ends (fun patience => rounds (run patience) (.failure (.iterationLimit limit)) conditions body
        limit 0) env result after := by
  simp only [Ends, run_loop, roundsStop, mostRounds, h, Option.getD_some]

/-- A loop without a limit ends if it does so with some bound on how often its body is run. -/
private lemma ends_loop_iff_of_no_limit (h : env.limits.rounds = none)
    {result : Except RuntimeError Float} :
    Ends (loop conditions body).run env result after ↔
      ∃ allowed, Ends (fun patience => rounds (run patience) .tooLong conditions body allowed 0)
        env result after := by
  have hrun : ∀ patience, (loop conditions body).run patience env =
      rounds (run patience) .tooLong conditions body patience 0 env := by
    intro patience
    rw [run_loop, roundsStop, mostRounds, h]
    rfl
  constructor
  · rintro ⟨enough, hends⟩
    have hbound := (hrun enough).symm.trans (hends enough (Nat.le_refl _))
    exact ⟨enough, (rounds_patient _ _ _ _ _).ends_iff.2 ⟨enough, hbound⟩⟩
  · rintro ⟨allowed, enough, hends⟩
    refine ⟨max enough allowed, fun patience hle => ?_⟩
    have hbound := hends patience (by omega)
    have hmore : Coupled Eq (fun _ => True) Unfinished
        (rounds (run patience) .tooLong conditions body allowed 0)
        (rounds (run patience) .tooLong conditions body patience 0) :=
      .rounds (fun _ => trivial) (fun node _ => node.run_patient (Nat.le_refl _))
        (fun node _ => node.run_patient (Nat.le_refl _)) (.inr ⟨.inr rfl, by omega⟩) 0
    have hsame := (hmore rfl).eq fun stop => not_unfinished_of_finished hbound
    exact (hrun patience).trans (hsame.symm.trans hbound)

/-- **A loop is bounded iteration.**  A loop ends with a result, and leaves an environment, exactly
if it does so by its rounds: after some complete rounds, in each of which all conditions hold and
the body has a value, comes a round that is not complete.  Either some condition does not hold, and
the loop has the value of the last complete round, or zero if there is none.  Or a condition or the
body fails, and the loop fails with that, in the environment that is left.  Or the conditions hold
after as many rounds as the limit allows, and the loop fails for that in the environment that the
conditions leave.  In any case the body is run no more often than the limit allows. -/
theorem loop_is_bounded_iteration (conditions : List Node) (body : Block) (env : Environment)
    (result : Except RuntimeError Float) (after : Environment) :
    Ends (loop conditions body).run env result after ↔
      ∃ count last before runs, Rounds conditions body count env last before ∧
        LastRound conditions body env.limits.rounds count last before runs result after ∧
        ∀ limit, env.limits.rounds = some limit → runs ≤ limit := by
  cases hrounds : env.limits.rounds with
  | some limit =>
    rw [ends_loop_iff_of_limit hrounds]
    constructor
    · intro hends
      have hstop : ∀ e, Stop.failure (.iterationLimit limit) = .failure e →
          some limit = some limit ∧ e = .iterationLimit limit := by
        rintro e ⟨⟩
        exact ⟨rfl, rfl⟩
      obtain ⟨count, last, before, runs, hcomplete, hlast, hle⟩ :=
        Rounds.none.exists_lastRound (some limit) (Nat.zero_add limit) hstop hends
      refine ⟨count, last, before, runs, hcomplete, hlast, ?_⟩
      rintro most ⟨⟩
      exact hle
    · rintro ⟨count, last, before, runs, hcomplete, hlast, hle⟩
      refine hlast.ends hcomplete (hle limit rfl) ?_
      rintro most ⟨⟩
      exact ⟨rfl, rfl⟩
  | none =>
    rw [ends_loop_iff_of_no_limit hrounds]
    constructor
    · rintro ⟨allowed, hends⟩
      obtain ⟨count, last, before, runs, hcomplete, hlast, -⟩ :=
        Rounds.none.exists_lastRound none (Nat.zero_add allowed) (by rintro e ⟨⟩) hends
      exact ⟨count, last, before, runs, hcomplete, hlast, by rintro most ⟨⟩⟩
    · rintro ⟨count, last, before, runs, hcomplete, hlast, -⟩
      exact ⟨runs, hlast.ends hcomplete (Nat.le_refl _) (by rintro most ⟨⟩)⟩

end Node

end Abacus
