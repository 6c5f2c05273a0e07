import Mathlib.Tactic.Common
import Abacus.Proofs.Contents

/-!
# Evaluation ends

With a limit on the rounds of loops every evaluation ends, with a value or with a failure of the
program.  Loops end because of their limit.  Calls end because there is a limit on calls in
progress: each body that is entered spends one of them.  Between two calls evaluation descends in a
node, and no node that can come up, neither the one that is evaluated nor the body of a function
that is bound now or later, is higher than the highest of those there at the start.

## Main definitions

* `Abacus.Environment.Within` — environments in which no function is higher than a bound.
* `Abacus.Limits.room` — how deeply evaluations can be nested in the calls that may still start.
* `Abacus.Eval.finished` — an evaluation that ended as the program makes it end.

## Main results

* `Abacus.Node.height_lt_of_mem_parts` — evaluation descends.
* `Abacus.Node.keeps_within_evaluate` — evaluations are never nested too deeply.
* `Abacus.Node.evaluate_coupled_of_le` — more room changes no answer.
* `Abacus.Node.run_eq_step` — the value of a node by its rule, without a bound.
* `Abacus.Node.evaluation_ends` — with a limit on rounds every evaluation ends.
-/

namespace Abacus

namespace Node

/-! ## Heights -/

/-- The largest height of nodes is bounded if each of them is. -/
lemma heights_le_iff {nodes : List Node} {height : Nat} :
    heights nodes ≤ height ↔ ∀ node ∈ nodes, node.height ≤ height := by
  induction nodes with
  | nil => simp [heights]
  | cons node nodes ih => rw [heights, Nat.max_le, ih, List.forall_mem_cons]

/-- A node is no higher than the highest of several. -/
lemma height_le_heights {node : Node} {nodes : List Node} (h : node ∈ nodes) :
    node.height ≤ heights nodes :=
  heights_le_iff.1 (Nat.le_refl _) node h

/-- Every node has a height. -/
lemma height_pos (node : Node) : 0 < node.height := by
  cases node with
  | choose branches otherwise => cases otherwise <;> exact Nat.succ_pos _
  | _ => exact Nat.succ_pos _

/-- What an arm of a conditional evaluates is no higher than the arms. -/
private lemma height_le_branchHeights {branch : Branch Node} {branches : List (Branch Node)}
    (h : branch ∈ branches) {node : Node} (hnode : node ∈ branch.condition :: branch.body) :
    node.height ≤ branchHeights branches := by
  induction branches with
  | nil => cases h
  | cons first branches ih =>
    obtain ⟨condition, body⟩ := first
    rw [branchHeights]
    rcases List.mem_cons.1 h with rfl | h
    · rcases List.mem_cons.1 hnode with rfl | hnode
      · omega
      · have : node.height ≤ heights body := height_le_heights hnode
        omega
    · have := ih h
      omega

/-- The leftmost operand of a chain is no higher than the chain. -/
private lemma height_leftmost_le (node : Node) : node.leftmost.height ≤ node.height := by
  fun_induction leftmost node with
  | case1 op left right ih =>
    rw [height]
    omega
  | case2 => exact Nat.le_refl _

/-- The operands along a chain are lower than the chain. -/
private lemma height_lt_of_mem_spine {node : Node} {links : List Link} {link : Link}
    (h : link ∈ node.spine links) : link ∈ links ∨ link.operand.height < node.height := by
  fun_induction spine node links with
  | case1 links op left right ih =>
    rw [height]
    rcases ih h with h | h
    · rcases List.mem_cons.1 h with rfl | h
      · exact .inr (by simp only; omega)
      · exact .inl h
    · exact .inr (by omega)
  | case2 => exact .inl h

/-- **Evaluation descends**: the nodes that the rule of a node evaluates are lower than the node. -/
theorem height_lt_of_mem_parts {node inner : Node} (h : inner ∈ node.parts) :
    inner.height < node.height := by
  cases node with
  | literal value => cases h
  | name id => cases h
  | define fn => cases h
  | binary op left right =>
    rw [height]
    rcases List.mem_cons.1 h with rfl | h
    · have := height_leftmost_le left
      omega
    · obtain ⟨link, hlink, rfl⟩ := List.mem_map.1 h
      rcases height_lt_of_mem_spine hlink with hlink | hlink
      · obtain rfl := List.mem_singleton.1 hlink
        simp only
        omega
      · omega
  | call callee arguments =>
    rw [height]
    exact Nat.lt_succ_of_le (height_le_heights h)
  | declare id value =>
    obtain rfl := List.mem_singleton.1 h
    rw [height]
    exact Nat.lt_succ_self _
  | choose branches otherwise =>
    have hbranches : ∀ branch ∈ branches, ∀ node ∈ branch.condition :: branch.body,
        node.height ≤ branchHeights branches := fun _ h _ => height_le_branchHeights h
    rcases List.mem_append.1 h with h | h
    · obtain ⟨branch, hbranch, hinner⟩ := List.mem_flatMap.1 h
      have := hbranches branch hbranch inner hinner
      cases otherwise <;> rw [height] <;> omega
    · cases otherwise with
      | none => cases h
      | some body =>
        have : inner.height ≤ heights body := height_le_heights h
        rw [height]
        omega
  | loop conditions body =>
    rw [height]
    rcases List.mem_append.1 h with h | h
    · have := height_le_heights h
      omega
    · have := height_le_heights h
      omega
  | block body =>
    rw [height]
    exact Nat.lt_succ_of_le (height_le_heights h)

/-- What a node binds is lower than the node. -/
private lemma height_lt_of_binds {node : Node} {id : String} {b : Binding} (h : node.Binds id b) :
    b.height < node.height := by
  cases node with
  | declare _ value =>
    obtain ⟨-, number, rfl⟩ := h
    exact height_pos _
  | define fn =>
    obtain ⟨-, rfl⟩ := h
    obtain ⟨name, params, body⟩ := fn
    rw [height]
    exact Nat.lt_succ_self _
  | _ => exact h.elim

end Node

namespace Environment

/-- The largest of some numbers is bounded if each of them is. -/
lemma foldr_max_le_iff {numbers : List Nat} {bound : Nat} :
    numbers.foldr max 0 ≤ bound ↔ ∀ n ∈ numbers, n ≤ bound := by
  induction numbers with
  | nil => simp
  | cons n numbers ih => rw [List.foldr_cons, Nat.max_le, ih, List.forall_mem_cons]

/-- The height of an environment bounds that of every function in it. -/
lemma height_le_iff {env : Environment} {bound : Nat} :
    env.height ≤ bound ↔ env.Every (·.height ≤ bound) := by
  simp only [height, Frame.height, foldr_max_le_iff, List.mem_map, forall_exists_index, and_imp,
    forall_apply_eq_imp_iff₂, Every, Frame.Every]

/-- An environment with given limits and calls in progress, in which no function is higher than
`height`. -/
structure Within (limits : Limits) (callDepth height : Nat) (env : Environment) : Prop where
  limits_eq : env.limits = limits
  callDepth_eq : env.callDepth = callDepth
  every : env.Every (·.height ≤ height)

variable {limits : Limits} {callDepth height : Nat} {env : Environment}

/-- Declaring something within the height stays within the bounds. -/
lemma Within.declare (h : env.Within limits callDepth height) (name : String) {b : Binding}
    (hb : b.height ≤ height) : (env.declare name b).Within limits callDepth height := by
  have hshape := shape_declare env name b
  exact ⟨(congrArg Shape.limits hshape).trans h.limits_eq,
    (congrArg Shape.callDepth hshape).trans h.callDepth_eq, h.every.declare name hb⟩

/-- The body of a call is within the bounds of one more call. -/
lemma Within.inside (h : env.Within limits callDepth height) (params : List String)
    (arguments : List Float) :
    (env.inside params arguments).Within limits (callDepth + 1) height := by
  have hlimits := congrArg Shape.limits (shape_inside env params arguments)
  rw [Shape.limits_entered] at hlimits
  exact ⟨hlimits.trans h.limits_eq, congrArg (· + 1) h.callDepth_eq,
    h.every.inside (fun _ => Nat.zero_le _) params arguments⟩

/-- After a call the bounds are those before it. -/
lemma Within.leaveCall (h : env.Within limits (callDepth + 1) height) (f : Function) :
    (env.leaveCall f).Within limits callDepth height := by
  have hlimits := congrArg Shape.limits (shape_leaveCall env f)
  rw [Shape.limits_left] at hlimits
  exact ⟨hlimits.trans h.limits_eq, congrArg (· - 1) h.callDepth_eq, h.every.leaveCall f⟩

end Environment

/-! ## How deeply evaluations are nested -/

open Environment Eval

namespace Limits

/-- The reasons to end early that are expected with given limits: evaluations are never nested too
deeply, and only a loop without a limit can go on for too long. -/
def Expected (limits : Limits) (stop : Stop) : Prop :=
  stop ≠ .tooDeep ∧ (stop = .tooLong → limits.rounds = none)

/-- An error of evaluation is expected under all limits. -/
lemma expected_failure (limits : Limits) (e : RuntimeError) : limits.Expected (.failure e) :=
  ⟨nofun, nofun⟩

/-- Why a loop ends that would run more often is expected. -/
lemma expected_roundsStop (env : Environment) : env.limits.Expected (roundsStop env) := by
  unfold roundsStop
  split
  · exact expected_failure _ _
  · next hrounds => exact ⟨Stop.noConfusion, fun _ => hrounds⟩

/-- How deeply evaluations can be nested in the calls that may still be started, if no body is
higher than `height`. -/
def room (limits : Limits) (callDepth height : Nat) : Nat := (limits.calls - callDepth) * height

/-- A call that is started pays for its body. -/
lemma room_of_lt {limits : Limits} {callDepth : Nat} (h : callDepth < limits.calls)
    (height : Nat) :
    limits.room callDepth height = limits.room (callDepth + 1) height + height := by
  have hcalls : limits.calls - callDepth = limits.calls - (callDepth + 1) + 1 := by omega
  rw [room, room, hcalls, Nat.succ_mul]

end Limits

variable {limits : Limits} {callDepth height : Nat}

/-- Inside a call one call less may be started. -/
lemma Eval.agree_within_insideCall {fn : Function} {arguments : List Float}
    {body body' : Eval Float} (h : callDepth < limits.calls →
      Agree (Within limits (callDepth + 1) height) limits.Expected body body') :
    Agree (Within limits callDepth height) limits.Expected (Eval.insideCall fn arguments body)
      (Eval.insideCall fn arguments body') := by
  refine Agree.insideCall (Q := Within limits (callDepth + 1) height) limits.expected_failure
    ?_ ?_ ?_
  · intro env entered henv henter
    obtain ⟨-, rfl⟩ := enterCall_eq_ok_iff.1 henter
    exact henv.inside fn.params arguments
  · intro env entered henv henter
    obtain ⟨hlimit, -⟩ := enterCall_eq_ok_iff.1 henter
    rw [henv.limits_eq, henv.callDepth_eq] at hlimit
    exact h hlimit
  · exact fun env henv => henv.leaveCall fn

/-- **The rule of a node agrees** in environments with given limits if the evaluations of its parts
do, and those of the bodies that it can call. -/
lemma Node.step_within {f g : Node → Eval Float} {patience : Nat} {node : Node}
    (hnode : node.height ≤ height)
    (hparts : ∀ inner ∈ node.parts,
      Agree (Within limits callDepth height) limits.Expected (f inner) (g inner))
    (hbodies : callDepth < limits.calls → ∀ inner : Node, inner.height ≤ height →
      Agree (Within limits (callDepth + 1) height) limits.Expected (f inner) (g inner)) :
    Agree (Within limits callDepth height) limits.Expected (Node.step patience f node)
      (Node.step patience g node) := by
  refine Node.step_agree limits.expected_failure ?_ hparts ?_ ?_
  · intro env henv
    rw [← henv.limits_eq]
    exact Limits.expected_roundsStop env
  · intro id b hbinds env henv
    have := Node.height_lt_of_binds hbinds
    exact henv.declare id (by omega)
  · intro env callee fn henv hfn found
    have hbody : Node.heights fn.body ≤ height := henv.every.functionOf hfn
    refine Eval.agree_within_insideCall fun hlimit => ?_
    refine .block (fun _ => limits.expected_failure _) fun inner hinner => ?_
    exact hbodies hlimit inner (Node.heights_le_iff.1 hbody inner hinner)

/-- **Evaluations are never nested deeper than the limit on calls and the heights of nodes allow.**

**Proof sketch.** Induction on the room that is left.  Inside a node evaluation descends.  A call
spends one of the calls that may still be started, which pays for a body as high as any. -/
theorem Node.keeps_within_evaluate (patience : Nat) :
    ∀ {depth : Nat} {node : Node} {callDepth : Nat}, node.height ≤ height →
      limits.room callDepth height + node.height ≤ depth →
        Keeps (Within limits callDepth height) limits.Expected
          (Node.evaluate patience depth node) := by
  intro depth
  induction depth with
  | zero =>
    intro node callDepth _ hdepth
    have := node.height_pos
    omega
  | succ depth ih =>
    intro node callDepth hnode hdepth
    refine Node.step_within hnode (fun inner hinner => ?_) fun hlimit inner hinner => ?_
    · have := Node.height_lt_of_mem_parts hinner
      exact ih (by omega) (by omega)
    · have := Limits.room_of_lt hlimit height
      have := node.height_pos
      exact ih hinner (by omega)

/-! ## More room changes no answer -/

/-- **More room changes no answer**: an evaluation that was not given up ends in the same way if
evaluations may be nested deeper, and if loops without a limit may go on for longer. -/
theorem Node.evaluate_coupled_of_le (lost : Stop → Prop) {patience patience' : Nat}
    (hdeep : lost .tooDeep)
    (hpatience : patience = patience' ∨ lost .tooLong ∧ patience ≤ patience') :
    ∀ {depth depth' : Nat}, depth ≤ depth' → ∀ node,
      Coupled Eq (fun _ => True) lost (Node.evaluate patience depth node)
        (Node.evaluate patience' depth' node) := by
  intro depth
  induction depth with
  | zero => exact fun _ _ => .throw_lost hdeep _
  | succ depth ih =>
    intro depth' hle node
    obtain ⟨depth', rfl⟩ : ∃ n, depth' = n + 1 := ⟨depth' - 1, by omega⟩
    have hinner : ∀ inner, Coupled Eq (fun _ => True) lost (Node.evaluate patience depth inner)
        (Node.evaluate patience' depth' inner) := ih (Nat.le_of_succ_le_succ hle)
    refine Node.step_coupled (fun inner _ => hinner inner) (fun _ => trivial) ?_ ?_ ?_ ?_
    · exact fun id _ => .find (fun _ _ h => h ▸ rfl) fun _ _ _ _ _ => trivial
    · exact fun id b _ env env' h => h ▸ rfl
    · rintro callee arguments -
      refine .call (fun _ _ h => h ▸ rfl) (fun _ _ _ _ _ => trivial) (fun _ _ _ _ _ _ => trivial)
        (fun inner _ => hinner inner) fun _ _ fn _ _ _ found => ?_
      have hbody : Coupled Eq (fun _ => True) lost
          (Eval.block (Node.evaluate patience depth) fn.body)
          (Eval.block (Node.evaluate patience' depth') fn.body) :=
        .block (fun _ => trivial) fun inner _ => hinner inner
      refine .insideCall ?_ ?_ hbody fun _ _ h => h ▸ rfl
      · rintro env _ entered rfl henter
        exact ⟨entered, henter, rfl⟩
      · rintro env _ e rfl henter
        exact .inl ⟨trivial, henter⟩
    · rintro conditions body -
      refine .loop (fun _ => trivial) (fun inner _ => hinner inner) (fun inner _ => hinner inner) ?_
      rintro env _ rfl
      cases hrounds : env.limits.rounds with
      | some limit => exact .inl ⟨trivial, rfl, by rw [mostRounds, mostRounds, hrounds]; rfl⟩
      | none =>
        rcases hpatience with rfl | ⟨hlong, hle⟩
        · exact .inl ⟨trivial, rfl, rfl⟩
        · rw [roundsStop, mostRounds, mostRounds, hrounds]
          exact .inr ⟨hlong, hle⟩

namespace Node

/-- An environment is within its own bounds, and a node within its height. -/
lemma within_self (env : Environment) (node : Node) :
    env.Within env.limits env.callDepth (max node.height env.height) :=
  ⟨rfl, rfl, height_le_iff.1 (Nat.le_max_right _ _)⟩

/-- The reach of a node is enough for all calls that its environment has room for. -/
lemma room_le_reach (env : Environment) (node : Node) :
    env.limits.room env.callDepth (max node.height env.height) + node.height ≤
      env.reach [node] := by
  have hheights : heights [node] = node.height := by simp [heights]
  rw [reach, hheights, Limits.room, Nat.succ_mul]
  omega

/-- The evaluation of a node ends early for expected reasons only. -/
lemma expected_of_run {patience : Nat} {node : Node} {env : Environment} {stop : Stop}
    (h : outcome (node.run patience env) = .error stop) : env.limits.Expected stop :=
  (keeps_within_evaluate patience (Nat.le_max_left _ _) (room_le_reach env node)).ends
    (within_self env node) h

/-- **An evaluation that is not nested too deeply gives the value of the node.**

**Proof sketch.** Neither of the two evaluations is given up, so whichever has more room ends as the
other does. -/
lemma evaluate_eq_run_of_ends {patience depth : Nat} {node : Node} {env : Environment}
    (h : ∀ stop, outcome (evaluate patience depth node env) = .error stop → stop ≠ .tooDeep) :
    evaluate patience depth node env = node.run patience env := by
  rcases Nat.le_total depth (env.reach [node]) with hle | hle
  · exact (evaluate_coupled_of_le (· = .tooDeep) rfl (.inl rfl) hle node rfl).eq h
  · refine ((evaluate_coupled_of_le (· = .tooDeep) rfl (.inl rfl) hle node rfl).eq ?_).symm
    exact fun stop hstop => (expected_of_run hstop).1

/-- With enough room the value of a node is its value. -/
lemma evaluate_eq_run {patience depth : Nat} {node : Node} {env : Environment}
    (hnode : node.height ≤ height) (henv : env.Within limits callDepth height)
    (hdepth : limits.room callDepth height + node.height ≤ depth) :
    evaluate patience depth node env = node.run patience env :=
  evaluate_eq_run_of_ends fun _ hstop =>
    ((keeps_within_evaluate patience hnode hdepth).ends henv hstop).1

/-- **The value of a node** is what its rule makes of the values of its parts, and of the bodies of
the functions that it calls. -/
theorem run_eq_step (patience : Nat) (node : Node) (env : Environment) :
    node.run patience env = node.step patience (run patience) env := by
  have hreach := room_le_reach env node
  obtain ⟨depth, hdepth⟩ : ∃ depth, env.reach [node] = depth + 1 :=
    ⟨env.reach [node] - 1, by have := node.height_pos; omega⟩
  rw [hdepth] at hreach
  have hrun : node.run patience env = node.step patience (evaluate patience depth) env := by
    change evaluate patience (env.reach [node]) node env = _
    rw [hdepth]
    rfl
  rw [hrun]
  refine (step_within (Nat.le_max_left _ _) (fun inner hinner => ?_) fun hlimit inner hinner =>
    ?_).eq (within_self env node)
  · have hlt := height_lt_of_mem_parts hinner
    have hheight : inner.height ≤ max node.height env.height := by omega
    exact (keeps_within_evaluate patience hheight (by omega)).agree fun env henv =>
      evaluate_eq_run hheight henv (by omega)
  · have := Limits.room_of_lt hlimit (max node.height env.height)
    have := node.height_pos
    exact (keeps_within_evaluate patience hinner (by omega)).agree fun env henv =>
      evaluate_eq_run hinner henv (by omega)

end Node

/-! ## Evaluation ends -/

/-- An evaluation that has ended as the program makes it end: with a value, or with a failure. -/
def Eval.finished {α : Type} :
    Except RuntimeError α → Environment → EStateM.Result Stop Environment α
  | .ok a, env => .ok a env
  | .error e, env => .error (.failure e) env

/-- The reasons to end early that lie with the host, not with the program. -/
def Eval.Unfinished (stop : Stop) : Prop := stop = .tooDeep ∨ stop = .tooLong

/-- What has not stopped unfinished is finished. -/
lemma Eval.exists_finished {α : Type} {r : EStateM.Result Stop Environment α}
    (h : ∀ stop, outcome r = .error stop → ¬ Unfinished stop) :
    ∃ result after, r = finished result after := by
  cases r with
  | ok a after => exact ⟨.ok a, after, rfl⟩
  | error stop after =>
    cases stop with
    | failure e => exact ⟨.error e, after, rfl⟩
    | tooDeep => exact absurd (.inl rfl) (h _ rfl)
    | tooLong => exact absurd (.inr rfl) (h _ rfl)

/-- **Evaluation ends.**  In an environment with a limit on the rounds of loops, whatever is bound
and whichever scoping and limit on calls it has, every node has a result, a value or a failure of
the program.  It is the result that the rule of the node makes of the results of its parts and of
the bodies that it calls, and no bound on the evaluation has a part in it: neither the patience of
the host nor how much deeper evaluations could be nested. -/
theorem Node.evaluation_ends {env : Environment} {limit : Nat}
    (h : env.limits.rounds = some limit) (node : Node) :
    ∃ (result : Except RuntimeError Float) (after : Environment), ∀ patience,
      node.run patience env = Eval.finished result after ∧
        node.step patience (Node.run patience) env = Eval.finished result after ∧
        ∀ depth, env.reach [node] ≤ depth →
          node.evaluate patience depth env = Eval.finished result after := by
  have hends : ∀ stop, outcome (node.run 0 env) = .error stop → ¬ Unfinished stop := by
    rintro stop hstop (rfl | rfl)
    · exact (Node.expected_of_run hstop).1 rfl
    · have hnone := (Node.expected_of_run hstop).2 rfl
      rw [h] at hnone
      cases hnone
  obtain ⟨result, after, hresult⟩ := exists_finished hends
  have hmore : ∀ patience depth, env.reach [node] ≤ depth →
      node.evaluate patience depth env = Eval.finished result after := by
    intro patience depth hle
    have hfits := Node.evaluate_coupled_of_le Unfinished (.inl rfl)
      (.inr ⟨.inr rfl, Nat.zero_le patience⟩) hle node (rfl : env = env)
    exact (hfits.eq hends).symm.trans hresult
  refine ⟨result, after, fun patience => ?_⟩
  have hrun : node.run patience env = Eval.finished result after := hmore patience _ (Nat.le_refl _)
  exact ⟨hrun, (Node.run_eq_step patience node env).symm.trans hrun, hmore patience⟩

/-- A function that redefines itself and then calls the new one, which calls itself without end: the
limit on calls ends it. -/
theorem Node.evaluation_ends_redefined :
    let again : Function := ⟨"f", [], [.call "f" []]⟩
    let f : Function := ⟨"f", [], [.define again, .call "f" []]⟩
    let env : Environment := ⟨⟨[⟨"f", .function f⟩]⟩, [], .shared, ⟨3, 1, some 1⟩, 0⟩
    env.limits.rounds = some 1 ∧ ∃ after, ∀ patience,
      (Node.call "f" []).run patience env =
        Eval.finished (.error (.callDepth "f" 3)) after := by
  intro again f env
  have hrounds : env.limits.rounds = some 1 := rfl
  have hfails : outcome ((Node.call "f" []).run 0 env) =
      .error (.failure (.callDepth "f" 3)) := by rfl
  obtain ⟨result, after, hresult⟩ := Node.evaluation_ends hrounds (.call "f" [])
  refine ⟨hrounds, after, fun patience => ?_⟩
  rw [(hresult 0).1] at hfails
  rw [(hresult patience).1]
  cases result with
  | ok value => cases hfails
  | error e =>
    cases hfails
    rfl

end Abacus
