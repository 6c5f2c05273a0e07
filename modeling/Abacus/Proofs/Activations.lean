import Mathlib.Tactic.Common
import Abacus.Proofs.Courses
import Abacus.Proofs.Ranks
import Abacus.Proofs.Scanning
import Abacus.Proofs.Sessions

/-!
# How many evaluations are active at once

An evaluation is active from when it starts until it is done.  While one is active, those of its
parts and of the bodies that it calls start and end.  So as many are active at once as evaluations
are nested.  The limits of a session alone bound that number, however long its scripts are, and
whatever functions earlier scripts have defined: every call in progress, and the script itself, can
go as deep as the rank of a node that was read within the nesting limit.

## Main definitions

* `Abacus.Moment.active` — how many evaluations are active after some moments.
* `Abacus.Environment.Fitted` — environments in which the ranks of functions are bounded.
* `Abacus.Session.Served` — the sessions that a host can come to by running scripts.

## Main results

* `Abacus.Node.evaluate_nests` — evaluations are nested as deeply as the rank and calls allow.
* `Abacus.Node.keeps_fitted_evaluate` — with so much room no evaluation is given up.
* `Abacus.Session.Served.evaluations_bounded` — the bound for a session.
-/

namespace Abacus

/-! ## Active evaluations -/

/-- Whether the evaluation of a node starts. -/
def Event.starts : Event → Bool
  | start _ => true
  | _ => false

/-- Whether the evaluation of a node is done. -/
def Event.ends : Event → Bool
  | done _ _ => true
  | _ => false

namespace Moment

/-- How many evaluations have started. -/
def started (moments : List Moment) : Nat := moments.countP (·.event.starts)

/-- How many evaluations are done. -/
def ended (moments : List Moment) : Nat := moments.countP (·.event.ends)

/-- How many evaluations are active after some moments: they have started and are not done. -/
def active (moments : List Moment) : Nat := started moments - ended moments

/-- The first moment counts if an evaluation starts at it. -/
lemma started_cons (moment : Moment) (moments : List Moment) :
    started (moment :: moments) = started moments + if moment.event.starts then 1 else 0 :=
  List.countP_cons

/-- The first moment counts if an evaluation ends at it. -/
lemma ended_cons (moment : Moment) (moments : List Moment) :
    ended (moment :: moments) = ended moments + if moment.event.ends then 1 else 0 :=
  List.countP_cons

/-- What starts in two courses one after the other starts in one of them. -/
lemma started_append (moments more : List Moment) :
    started (moments ++ more) = started moments + started more :=
  List.countP_append

/-- What ends in two courses one after the other ends in one of them. -/
lemma ended_append (moments more : List Moment) :
    ended (moments ++ more) = ended moments + ended more :=
  List.countP_append

end Moment

/-- At no time are more than `bound` evaluations active, and at the end none is. -/
structure Law.Nests (bound : Nat) (moments : List Moment) : Prop where
  started_take_le : ∀ n, Moment.started (moments.take n) ≤ Moment.ended (moments.take n) + bound
  started_eq : Moment.started moments = Moment.ended moments

/-- At no time are more than `bound` evaluations active. -/
def Law.nests (bound : Nat) : Law := fun _ moments _ => Law.Nests bound moments

namespace Law.Nests

variable {bound bound' : Nat} {moments more : List Moment}

/-- Nothing is active where nothing happens. -/
lemma nil : Nests bound [] := by
  refine ⟨fun n => ?_, rfl⟩
  rw [List.take_nil]
  exact Nat.zero_le _

/-- A larger bound does as well. -/
lemma mono (h : Nests bound moments) (hle : bound ≤ bound') : Nests bound' moments :=
  ⟨fun n => Nat.le_trans (h.started_take_le n) (Nat.add_le_add_left hle _), h.started_eq⟩

/-- Courses one after the other are nested as deeply as the deeper of them. -/
lemma append (h : Nests bound moments) (h' : Nests bound more) :
    Nests bound (moments ++ more) := by
  constructor
  · intro n
    rw [List.take_append, Moment.started_append, Moment.ended_append]
    rcases Nat.le_total n moments.length with hn | hn
    · -- The rest has not begun.
      rw [Nat.sub_eq_zero_of_le hn, List.take_zero]
      exact h.started_take_le n
    · -- The first part is over, and its evaluations are done.
      rw [List.take_of_length_le hn, h.started_eq]
      have := h'.started_take_le (n - moments.length)
      omega
  · rw [Moment.started_append, Moment.ended_append, h.started_eq, h'.started_eq]

/-- A moment at which no evaluation starts or is done. -/
lemma singleton {moment : Moment} (hstarts : moment.event.starts = false)
    (hends : moment.event.ends = false) : Nests bound [moment] := by
  refine ⟨fun n => ?_, by simp [Moment.started, Moment.ended, hstarts, hends]⟩
  cases n with
  | zero => exact Nat.zero_le _
  | succ n => simp [Moment.started, hstarts]

/-- A moment at which no evaluation starts or ends does not change how deeply a course is nested. -/
lemma cons {moment : Moment} (hstarts : moment.event.starts = false)
    (hends : moment.event.ends = false) (h : Nests bound moments) :
    Nests bound (moment :: moments) :=
  (singleton hstarts hends).append h

/-- The evaluation of a node is active during all that it goes through. -/
private lemma evaluation (h : Nests bound moments) {node : Node} {result : Except Stop Float}
    {calls calls' : List Function} {env env' : Environment} :
    Nests (bound + 1)
      (⟨.start node, calls, env⟩ :: (moments ++ [⟨.done node result, calls', env'⟩])) := by
  constructor
  · intro n
    cases n with
    | zero => exact Nat.zero_le _
    | succ n =>
      have hinner := h.started_take_le n
      have hdone : Moment.started (List.take (n - moments.length)
          [⟨.done node result, calls', env'⟩]) = 0 := by
        refine List.countP_eq_zero.2 fun moment hmoment => ?_
        obtain rfl := List.mem_singleton.1 (List.mem_of_mem_take hmoment)
        exact Bool.false_ne_true
      rw [List.take_succ_cons, Moment.started_cons, Moment.ended_cons, List.take_append,
        Moment.started_append, Moment.ended_append, hdone]
      simp only [Event.starts, Event.ends, if_true, Bool.false_eq_true, if_false]
      omega
  · rw [Moment.started_cons, Moment.started_append, Moment.ended_cons, Moment.ended_append,
      h.started_eq]
    rfl

end Law.Nests

/-- A bound on the nesting holds of a course that is put together from others. -/
lemma Law.nests_composes (bound : Nat) : (Law.nests bound).Composes :=
  ⟨fun _ => .nil, fun h h' => h.append h'⟩

/-! ## Environments with bounded ranks -/

/-- The ranks in the body of a function are bounded.  A number has no body. -/
def Binding.Bounded (bound : Nat) (b : Binding) : Prop :=
  ∀ f, b = .function f → ∀ node ∈ f.body, node.Bounded bound

/-- A number holds no code that could exceed a bound. -/
lemma Binding.bounded_number (bound : Nat) (value : Float) : (number value).Bounded bound :=
  fun _ h => Binding.noConfusion h

/-- What a node binds is inside the node. -/
lemma Node.Bounded.binds {bound : Nat} {node : Node} (h : node.Bounded bound) {id : String}
    {b : Binding} (hbinds : node.Binds id b) : b.Bounded bound := by
  cases node with
  | declare _ value =>
    obtain ⟨-, number, rfl⟩ := hbinds
    exact Binding.bounded_number bound number
  | define fn =>
    obtain ⟨-, rfl⟩ := hbinds
    intro f hf node hnode
    cases hf
    exact fun inner hinner => h inner (Node.subnodes_subset_of_mem_body hnode hinner)
  | _ => exact hbinds.elim

/-- The parts of a node are bounded as the node is. -/
lemma Node.Bounded.part {bound : Nat} {node inner : Node} (h : node.Bounded bound)
    (hinner : inner ∈ node.parts) : inner.Bounded bound :=
  fun _ hnode => h _ (Node.subnodes_subset_of_mem_parts hinner hnode)

namespace Environment

/-- An environment of a given shape, in which the ranks of functions are bounded. -/
structure Fitted (s : Shape) (bound : Nat) (env : Environment) : Prop where
  shape_eq : env.shape = s
  every : env.Every (·.Bounded bound)

namespace Fitted

variable {s : Shape} {bound : Nat} {env : Environment}

/-- Declaring something bounded keeps an environment fitted. -/
lemma declare (h : env.Fitted s bound) (name : String) {b : Binding} (hb : b.Bounded bound) :
    (env.declare name b).Fitted s bound :=
  ⟨(shape_declare env name b).trans h.shape_eq, h.every.declare name hb⟩

/-- Defining something bounded keeps an environment fitted. -/
lemma define (h : env.Fitted s bound) (name : String) {b : Binding} (hb : b.Bounded bound) :
    (env.define name b).Fitted s bound :=
  ⟨(shape_define env name b).trans h.shape_eq, h.every.define name hb⟩

/-- Removing a name keeps an environment fitted. -/
lemma remove (h : env.Fitted s bound) (name : String) : (env.remove name).Fitted s bound :=
  ⟨(shape_remove env name).trans h.shape_eq, h.every.remove name⟩

/-- A call is entered only below the limit on calls, and its body starts in a fitted environment. -/
lemma enterCall (h : env.Fitted s bound) {f : Function} {arguments : List Float}
    {inside : Environment} (henter : env.enterCall f arguments = .ok inside) :
    s.callDepth < s.limits.calls ∧ inside.Fitted s.entered bound := by
  obtain ⟨hlimit, rfl⟩ := enterCall_eq_ok_iff.1 henter
  obtain ⟨rfl, hevery⟩ := h
  exact ⟨hlimit, shape_inside env f.params arguments,
    hevery.inside (Binding.bounded_number bound) f.params arguments⟩

/-- After a call the environment is fitted as before it. -/
lemma leaveCall (hs : 0 < s.depth) (h : env.Fitted s.entered bound) (f : Function) :
    (env.leaveCall f).Fitted s bound := by
  refine ⟨?_, h.every.leaveCall f⟩
  rw [shape_leaveCall, h.shape_eq, Shape.left_entered hs]

/-- A session starts without functions. -/
lemma ofSettings (settings : Settings) (bound : Nat) :
    (ofSettings settings).Fitted ⟨1, 0, settings.scoping, settings.limits⟩ bound := by
  have hdefine : ∀ (constants : List Constant) (env : Environment), env.Every (·.Bounded bound) →
      (constants.foldl (fun env c => env.define c.name (.number c.value)) env).Every
        (·.Bounded bound) := by
    intro constants
    induction constants with
    | nil => exact fun _ h => h
    | cons c constants ih =>
      exact fun env h => ih _ (h.define c.name (Binding.bounded_number bound c.value))
  refine ⟨shape_ofSettings settings, hdefine _ _ (every_iff.2 ⟨.empty, List.forall_mem_nil _⟩)⟩

end Fitted

end Environment

/-! ## How deeply evaluations are nested -/

open Environment Eval

/-- Inside a call one call less may be started, which pays for the body. -/
lemma Environment.Shape.room_entered {s : Shape} (h : s.callDepth < s.limits.calls)
    (bound : Nat) :
    s.entered.limits.room s.entered.callDepth bound + bound =
      s.limits.room s.callDepth bound := by
  rw [limits_entered, callDepth_entered, Limits.room_of_lt h]

namespace Node

variable {bound : Nat}

/-- **Evaluations are nested as deeply as the rank of the node and the calls that may still be
started allow.**

**Proof sketch.** Induction on how deeply evaluations may be nested.  The evaluation of a node is
active during those of its parts, which have smaller ranks.  A call spends one of the calls that may
still be started, which pays for a body of any rank up to the bound. -/
theorem evaluate_nests (patience depth : Nat) :
    ∀ {s : Shape} (calls : List Function) {node : Node}, 0 < s.depth → node.Bounded bound →
      Follows (Fitted s bound) (Law.nests (s.limits.room s.callDepth bound + node.rank))
        (evaluate patience depth node) (moments patience depth calls node) := by
  induction depth with
  | zero => exact fun _ _ _ _ => .throw (Law.nests_composes _) _
  | succ depth ih =>
    intro s calls node hs hnode
    obtain ⟨rank, hrank⟩ : ∃ rank, node.rank = rank + 1 :=
      ⟨node.rank - 1, by have := node.rank_pos; omega⟩
    have hstep : Follows (Fitted s bound) (Law.nests (s.limits.room s.callDepth bound + rank))
        (step patience (evaluate patience depth) node)
        (stepMoments patience (evaluate patience depth) (moments patience depth) calls node) := by
      refine step_follows (Law.nests_composes _) ?_ ?_ ?_
      · intro inner hinner
        have := rank_lt_of_mem_parts hinner
        exact (ih calls hs (hnode.part hinner)).imp fun _ _ _ h => h.mono (by omega)
      · intro id b hbinds env henv
        exact ⟨henv.declare id (hnode.binds hbinds), .singleton rfl rfl⟩
      · intro env callee fn henv hfn found
        have hbody : Follows (Fitted s.entered bound)
            (Law.nests (s.entered.limits.room s.entered.callDepth bound + bound))
            (Eval.block (evaluate patience depth) fn.body)
            (Course.sequence (evaluate patience depth) (moments patience depth (fn :: calls))
              fn.body) := by
          refine .block (Law.nests_composes _) fun inner hinner => ?_
          have hbounded := henv.every.functionOf hfn fn rfl inner hinner
          have := hbounded.rank_le
          exact (ih (fn :: calls) (Shape.depth_entered_pos hs) hbounded).imp fun _ _ _ h =>
            h.mono (by omega)
        refine .insideCall (Law.nests_composes _) (fun _ _ h henter => (h.enterCall henter).2)
          hbody ?_
        intro env inside last moments henv henter hlast hmoments
        have hroom := Shape.room_entered (henv.enterCall henter).1 bound
        have hinner : Law.Nests (s.limits.room s.callDepth bound + rank) moments :=
          hmoments.mono (by omega)
        refine ⟨hlast.leaveCall hs fn, .cons rfl rfl (.cons rfl rfl ?_)⟩
        exact hinner.append (.singleton rfl rfl)
    rw [hrank]
    exact evaluate_follows hstep fun _ _ _ _ h => h.evaluation

/-- **With so much room no evaluation is given up** for being nested too deeply. -/
theorem keeps_fitted_evaluate (patience : Nat) :
    ∀ {depth : Nat} {s : Shape} {node : Node}, 0 < s.depth → node.Bounded bound →
      s.limits.room s.callDepth bound + node.rank ≤ depth →
        Keeps (Fitted s bound) (· ≠ .tooDeep) (evaluate patience depth node) := by
  intro depth
  induction depth with
  | zero =>
    intro s node _ _ hdepth
    have := node.rank_pos
    omega
  | succ depth ih =>
    intro s node hs hnode hdepth
    refine step_agree (fun _ => Stop.noConfusion) (fun env _ => (Limits.expected_roundsStop env).1)
      ?_ ?_ ?_
    · intro inner hinner
      have := rank_lt_of_mem_parts hinner
      exact ih hs (hnode.part hinner) (by omega)
    · exact fun id b hbinds env henv => henv.declare id (hnode.binds hbinds)
    · intro env callee fn henv hfn found
      refine Agree.insideCall (fun _ => Stop.noConfusion)
        (fun _ _ h henter => (h.enterCall henter).2) ?_ fun _ h => h.leaveCall hs fn
      intro env' inside henv' henter
      refine .block (fun _ => Stop.noConfusion) fun inner hinner => ?_
      have hbounded := henv.every.functionOf hfn fn rfl inner hinner
      have hroom := Shape.room_entered (henv'.enterCall henter).1 bound
      have := hbounded.rank_le
      have := node.rank_pos
      exact ih (Shape.depth_entered_pos hs) hbounded (by omega)

/-! ## Programs -/

variable {s : Shape} {body : Block} {env : Environment}

/-- Between the calls and the ranks of its nodes, a program nests its evaluations no deeper. -/
lemma blockMoments_nests (hs : 0 < s.depth) (hbody : ∀ node ∈ body, node.Bounded bound)
    (henv : env.Fitted s bound) (patience : Nat) :
    (final (runBlock patience body env)).Fitted s bound ∧
      Law.Nests (s.limits.room s.callDepth bound + bound) (blockMoments patience body env) := by
  refine Follows.block (Law.nests_composes _) (fun node hnode => ?_) henv
  have := (hbody node hnode).rank_le
  exact (evaluate_nests patience _ [] hs (hbody node hnode)).imp fun _ _ _ h => h.mono (by omega)

/-- With room for the calls and the ranks of its nodes, a program ends as it does with any room. -/
private lemma block_evaluate_eq_runBlock (hs : 0 < s.depth)
    (hbody : ∀ node ∈ body, node.Bounded bound)
    (henv : env.Fitted s bound) (patience : Nat) {depth : Nat}
    (hdepth : s.limits.room s.callDepth bound + bound ≤ depth) :
    Eval.block (evaluate patience depth) body env = runBlock patience body env ∧
      outcome (runBlock patience body env) ≠ .error .tooDeep := by
  have hkeeps : ∀ node ∈ body,
      Keeps (Fitted s bound) (· ≠ .tooDeep) (evaluate patience depth node) := by
    intro node hnode
    have := (hbody node hnode).rank_le
    exact keeps_fitted_evaluate patience hs (hbody node hnode) (by omega)
  have hblock : Agree (Fitted s bound) (· ≠ .tooDeep) (Eval.block (evaluate patience depth) body)
      (Eval.block (run patience) body) :=
    .block (fun _ => Stop.noConfusion) fun node hnode => (hkeeps node hnode).agree fun env' henv' =>
      evaluate_eq_run_of_ends fun _ hstop => (hkeeps node hnode).ends henv' hstop
  have heq : Eval.block (evaluate patience depth) body env = runBlock patience body env :=
    (hblock.eq henv).trans (runBlock_within patience body env).1.symm
  refine ⟨heq, fun hdeep => ?_⟩
  rw [← heq] at hdeep
  exact (hblock ⟨rfl, henv⟩).ends_of_error hdeep rfl

end Node

/-! ## Sessions -/

namespace Session

/-- The sessions that a host can come to from given settings by running scripts, however these end,
and by binding and unbinding variables in between.  The host inserts no functions. -/
inductive Served (settings : Settings) : Session → Prop
  | start : Served settings (.ofSettings settings)
  | run {s : Session} (patience : Nat) (source : String) :
      Served settings s → Served settings (s.run patience source).2
  | define {s : Session} (name : String) (value : Float) :
      Served settings s → Served settings ⟨s.environment.define name (.number value)⟩
  | declare {s : Session} (name : String) (value : Float) :
      Served settings s → Served settings ⟨s.environment.declare name (.number value)⟩
  | remove {s : Session} (name : String) :
      Served settings s → Served settings ⟨s.environment.remove name⟩

/-- The environment of a session after a program is the one in which the program ended. -/
private lemma environment_runBlock (patience : Nat) (s : Session) (block : Block) :
    (s.runBlock patience block).2.environment =
      final (Node.runBlock patience block s.environment) := by
  unfold runBlock
  cases Node.runBlock patience block s.environment <;> rfl

/-- All functions of a session come from scripts that were read within the nesting limit. -/
lemma Served.fitted {settings : Settings} {s : Session} (h : Served settings s) :
    s.environment.Fitted ⟨1, 0, settings.scoping, settings.limits⟩
      (3 * settings.limits.nesting + 4) := by
  induction h with
  | start => exact .ofSettings settings _
  | @run s patience source _ ih =>
    cases hprogram : program s.environment.limits.nesting source with
    | error f =>
      rw [Session.run, hprogram]
      exact ih
    | ok block =>
      obtain ⟨tokens, -, hparse⟩ := program_eq_ok_iff.1 hprogram
      have hlimits : s.environment.limits = settings.limits := congrArg Shape.limits ih.shape_eq
      rw [hlimits] at hparse
      rw [run_of_program hprogram, environment_runBlock]
      exact (Node.blockMoments_nests Nat.one_pos (Node.bounded_of_parse hparse) ih patience).1
  | define name value _ ih => exact ih.define name (Binding.bounded_number _ value)
  | declare name value _ ih => exact ih.declare name (Binding.bounded_number _ value)
  | remove name _ ih => exact ih.remove name

/-- **The limits alone bound how deeply evaluations are nested.**  What is read within a nesting
limit has a rank of at most three for every level and four more.  Take any session that a host can
come to by running scripts, and one more script that can be read.  At no time while it is run are
more evaluations active than that rank allows once for the script itself and once for every call
that may be in progress.  If evaluations may be nested just as deeply and no deeper, the script ends
in the same way, and never for being nested too deeply. -/
theorem Served.evaluations_bounded {settings : Settings} {s : Session} (h : Served settings s) :
    (∀ (limit : Nat) (tokens : List Token) (block : Block), Node.parse limit tokens = .ok block →
      ∀ node ∈ block, node.rank ≤ 3 * limit + 4) ∧
    ∀ (patience : Nat) (source : String) (block : Block),
      program settings.limits.nesting source = .ok block →
        let bound := (settings.limits.calls + 1) * (3 * settings.limits.nesting + 4)
        s.run patience source = s.runBlock patience block ∧
        (∀ n, Moment.active ((Node.blockMoments patience block s.environment).take n) ≤ bound) ∧
        Eval.block (Node.evaluate patience bound) block s.environment =
          Node.runBlock patience block s.environment ∧
        outcome (Node.runBlock patience block s.environment) ≠ .error .tooDeep := by
  refine ⟨fun limit tokens block hparse node hnode =>
    (Node.bounded_of_parse hparse node hnode).rank_le, fun patience source block hprogram => ?_⟩
  intro bound
  have hfitted := h.fitted
  obtain ⟨tokens, -, hparse⟩ := program_eq_ok_iff.1 hprogram
  have hbody := Node.bounded_of_parse hparse
  have hbound : settings.limits.room 0 (3 * settings.limits.nesting + 4) +
      (3 * settings.limits.nesting + 4) = bound := (Nat.succ_mul _ _).symm
  have hlimits : s.environment.limits = settings.limits := congrArg Shape.limits hfitted.shape_eq
  refine ⟨run_of_program (hlimits.symm ▸ hprogram) patience, fun n => ?_,
    Node.block_evaluate_eq_runBlock Nat.one_pos hbody hfitted patience (Nat.le_of_eq hbound)⟩
  have hnests : Law.Nests bound (Node.blockMoments patience block s.environment) :=
    hbound ▸ (Node.blockMoments_nests Nat.one_pos hbody hfitted patience).2
  exact Nat.sub_le_iff_le_add'.2 (hnests.started_take_le n)

/-- One script defines a function that calls itself, and the next one calls it.  With two calls and
two levels allowed, the recursion ends at the limit on calls, and at no time are more than thirty
evaluations active. -/
theorem Served.evaluations_bounded_recursion :
    let settings : Settings := { Settings.initial with limits := ⟨2, 2, none⟩ }
    let s : Session := ((Session.ofSettings settings).run 0 "fn f(b) \x7bf(b)\x7d").2
    let block : Block := [.call "f" [.name "PI"]]
    Served settings s ∧ program settings.limits.nesting "f(PI)" = .ok block ∧
      (s.run 0 "f(PI)").1 = .error (.failure (.runtime (.callDepth "f" 2))) ∧
      (∀ n, Moment.active ((Node.blockMoments 0 block s.environment).take n) ≤ 30) ∧
      outcome (Node.runBlock 0 block s.environment) ≠ .error .tooDeep := by
  intro settings s block
  have hdefine : Token.tokenize "fn f(b) \x7bf(b)\x7d" =
      .ok [⟨.keyword .fn, "fn", ⟨0, 1, 0⟩⟩, ⟨.identifier "f", "f", ⟨3, 1, 3⟩⟩,
        ⟨.mark .leftParen, "(", ⟨4, 1, 4⟩⟩, ⟨.identifier "b", "b", ⟨5, 1, 5⟩⟩,
        ⟨.mark .rightParen, ")", ⟨6, 1, 6⟩⟩, ⟨.mark .leftBrace, "\x7b", ⟨8, 1, 8⟩⟩,
        ⟨.identifier "f", "f", ⟨9, 1, 9⟩⟩, ⟨.mark .leftParen, "(", ⟨10, 1, 10⟩⟩,
        ⟨.identifier "b", "b", ⟨11, 1, 11⟩⟩, ⟨.mark .rightParen, ")", ⟨12, 1, 12⟩⟩,
        ⟨.mark .rightBrace, "\x7d", ⟨13, 1, 13⟩⟩] := by
    rw [Token.tokenize_eq_scanWithin]
    rfl
  have hcall : Token.tokenize "f(PI)" =
      .ok [⟨.identifier "f", "f", ⟨0, 1, 0⟩⟩, ⟨.mark .leftParen, "(", ⟨1, 1, 1⟩⟩,
        ⟨.identifier "PI", "PI", ⟨2, 1, 2⟩⟩, ⟨.mark .rightParen, ")", ⟨4, 1, 4⟩⟩] := by
    rw [Token.tokenize_eq_scanWithin]
    rfl
  have hdefined : program settings.limits.nesting "fn f(b) \x7bf(b)\x7d" =
      .ok [.define ⟨"f", ["b"], [.call "f" [.name "b"]]⟩] := program_eq_ok_iff.2 ⟨_, hdefine, rfl⟩
  have hprogram : program settings.limits.nesting "f(PI)" = .ok block :=
    program_eq_ok_iff.2 ⟨_, hcall, rfl⟩
  have hserved : Served settings s := .run 0 _ .start
  obtain ⟨hrun, hactive, -, hdeep⟩ := hserved.evaluations_bounded.2 0 "f(PI)" block hprogram
  refine ⟨hserved, hprogram, ?_, hactive, hdeep⟩
  have hs : (Session.ofSettings settings).run 0 "fn f(b) \x7bf(b)\x7d" =
      (Session.ofSettings settings).runBlock 0
        [.define ⟨"f", ["b"], [.call "f" [.name "b"]]⟩] := by
    have hlimits : (Session.ofSettings settings).environment.limits = settings.limits := rfl
    refine run_of_program ?_ 0
    rw [hlimits]
    exact hdefined
  rw [hrun]
  simp only [s, hs]
  decide +kernel

end Session

end Abacus
