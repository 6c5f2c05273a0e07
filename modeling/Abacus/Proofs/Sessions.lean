import Mathlib.Tactic.Common
import Abacus.Session
import Abacus.Proofs.Programs
import Abacus.Proofs.Termination

/-!
# Scripts in a session

What a session does with a script, by its program: the script is read as a program of the grammar,
and the program is run node by node.  However it ends, the limits of the session stay as they are.

## Main results

* `Abacus.Node.runBlock_within` — the value of a block is that of its nodes.
* `Abacus.Session.program_eq_ok_iff` — the program of a script.
* `Abacus.Session.limits_runBlock` — running a program keeps the limits.
-/

namespace Abacus

/-! ## The value of a block -/

namespace Node

open Environment

/-- How deeply evaluations can be nested in a block is enough for each of its nodes, whatever the
nodes before it have bound. -/
lemma room_le_reach_block {body : Block} {node : Node} (h : node ∈ body) (env : Environment) :
    env.limits.room env.callDepth (max (heights body) env.height) + node.height ≤
      env.reach body := by
  have hnode := height_le_heights h
  rw [reach, Limits.room, Nat.succ_mul]
  omega

/-- **The value of a block** is that of its nodes, one after the other, and the limits stay. -/
theorem runBlock_within (patience : Nat) (body : Block) (env : Environment) :
    runBlock patience body env = Eval.block (run patience) body env ∧
      (Eval.final (runBlock patience body env)).limits = env.limits := by
  have henv : env.Within env.limits env.callDepth (max (heights body) env.height) :=
    ⟨rfl, rfl, height_le_iff.1 (Nat.le_max_right _ _)⟩
  have hnode : ∀ node ∈ body, node.height ≤ max (heights body) env.height := fun node h =>
    Nat.le_trans (height_le_heights h) (Nat.le_max_left _ _)
  constructor
  · refine Eval.Agree.eq (.block (fun _ => env.limits.expected_failure _) fun node h => ?_) henv
    exact (keeps_within_evaluate patience (hnode node h) (room_le_reach_block h env)).agree
      fun env' henv' => evaluate_eq_run (hnode node h) henv' (room_le_reach_block h env)
  · have hkeeps : Eval.Keeps (Within env.limits env.callDepth (max (heights body) env.height))
        env.limits.Expected (Eval.block (evaluate patience (env.reach body)) body) :=
      .block (fun _ => env.limits.expected_failure _) fun node h =>
        keeps_within_evaluate patience (hnode node h) (room_le_reach_block h env)
    exact (hkeeps.final henv).limits_eq

/-- A program is evaluated as a block is. -/
lemma runBlock_eq_block (patience : Nat) (body : Block) :
    runBlock patience body = Eval.block (run patience) body :=
  funext fun env => (runBlock_within patience body env).1

end Node

/-! ## Scripts -/

namespace Session

variable {s : Session} {limit : Nat} {block : Block}

/-- A script has a program if it can be read as tokens, and they can be parsed. -/
theorem program_eq_ok_iff {source : String} :
    program limit source = .ok block ↔
      ∃ tokens, Token.tokenize source = .ok tokens ∧ Node.parse limit tokens = .ok block := by
  unfold program
  cases Token.tokenize source with
  | error e => simp
  | ok tokens =>
    cases hparse : Node.parse limit tokens with
    | error e => simp [hparse]
    | ok found => simp [hparse]

/-- A program of some tokens is not empty. -/
lemma ne_nil_of_parse {tokens : List Token} (hne : tokens ≠ [])
    (h : Node.parse limit tokens = .ok block) : block ≠ [] := by
  rintro rfl
  obtain ⟨hprogram, -⟩ := Node.parse_ok_iff_nesting_le.1 h
  cases hprogram
  exact hne rfl

/-- A script is run by running its program. -/
lemma run_of_program {source : String}
    (h : program s.environment.limits.nesting source = .ok block) (patience : Nat) :
    s.run patience source = s.runBlock patience block := by
  rw [run, h]

/-- Running a program leaves the limits alone. -/
theorem limits_runBlock (patience : Nat) (s : Session) (block : Block) :
    (s.runBlock patience block).2.environment.limits = s.environment.limits := by
  have hlimits := (Node.runBlock_within patience block s.environment).2
  unfold runBlock
  cases hrun : Node.runBlock patience block s.environment with
  | ok value env => rwa [hrun] at hlimits
  | error stop env => rwa [hrun] at hlimits

end Session

end Abacus
