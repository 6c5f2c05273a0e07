import Mathlib.Tactic.Common
import Abacus.Proofs.Kinds
import Abacus.Proofs.Separators
import Abacus.Proofs.Sessions

/-!
# One script after the other

A session that runs two scripts does what it does with one script, in which the second stands below
the first.  Scripts can be put together so at three levels: their tokens, their programs, and the
evaluation of their programs.

At the seam nothing but a call can go wrong.  Where the first script ends in a name and the second
starts with a parenthesis, the two together call the function of that name.

## Main results

* `Abacus.Node.runBlock_append` — the value of one block after the other.
* `Abacus.Session.program_append_newline` — the program of one script after the other.
* `Abacus.Session.run_append_newline` — running one script after the other.
-/

namespace Abacus

/-! ## Blocks -/

/-- One block after the other, if neither is empty. -/
lemma Eval.block_append (evaluate : Node → Eval Float) {others : Block} (hothers : others ≠ []) :
    ∀ {body : Block}, body ≠ [] → block evaluate (body ++ others) =
      (block evaluate body >>= fun _ => block evaluate others)
  | [], hbody => absurd rfl hbody
  | [node], _ => by
    obtain ⟨next, rest, rfl⟩ := List.exists_cons_of_ne_nil hothers
    rfl
  | node :: next :: body, _ => by
    have ih := block_append evaluate hothers (List.cons_ne_nil next body)
    have hfirst : block evaluate (node :: next :: body ++ others) =
        evaluate node >>= fun _ => block evaluate (next :: body ++ others) := rfl
    rw [hfirst, ih]
    exact (bind_assoc _ _ _).symm

namespace Node

/-- **The value of one block after the other**, if neither is empty. -/
theorem runBlock_append (patience : Nat) {body others : Block} (hbody : body ≠ [])
    (hothers : others ≠ []) (env : Environment) :
    runBlock patience (body ++ others) env =
      (runBlock patience body >>= fun _ => runBlock patience others) env := by
  simp only [runBlock_eq_block, Eval.block_append _ hothers hbody]

end Node

/-! ## Scripts -/

namespace Session

open Grammar

variable {s s' : Session} {patience limit : Nat} {block others : Block}

/-- **The program of one script after the other.**  Between a name and a parenthesis the two would
not stay apart. -/
theorem program_append_newline {first second : String} {tokens more : List Token}
    (hfirst : Token.tokenize first = .ok tokens) (hsecond : Token.tokenize second = .ok more)
    (hblock : Node.parse limit tokens = .ok block) (hothers : Node.parse limit more = .ok others)
    (hseam : EndsInName tokens → ¬ Opens more.head?) :
    program limit (first ++ "\n" ++ second) = .ok (block ++ others) := by
  obtain ⟨more', htokens, hkinds⟩ := Token.tokenize_append_newline hfirst hsecond
  obtain ⟨hprogram, hdeep⟩ := Node.parse_ok_iff_nesting_le.1 hblock
  obtain ⟨hprogram', hdeep'⟩ := Node.parse_ok_iff_nesting_le.1 hothers
  refine program_eq_ok_iff.2 ⟨tokens ++ more', htokens, Node.parse_ok_iff_nesting_le.2 ⟨?_, ?_⟩⟩
  · refine (hprogram.transfer rfl fun hname hopens => ?_).append (hprogram'.transfer hkinds ?_)
    · rw [following, Option.or_none] at hopens
      exact absurd (opens_head?_of_kinds hkinds hopens) (hseam hname)
    · exact fun _ hopens => hopens
  · rw [nesting_append hprogram.bracketed, Token.nesting_of_kinds hkinds]
    exact Nat.max_le.2 ⟨hdeep, hdeep'⟩

/-- A block after one that has a value is run in the environment that the first one leaves. -/
private lemma runBlock_append_of_ok (hblock : block ≠ []) (hothers : others ≠ []) {value : Float}
    (h : s.runBlock patience block = (.ok value, s')) :
    s.runBlock patience (block ++ others) = s'.runBlock patience others := by
  unfold runBlock at h ⊢
  rw [Node.runBlock_append patience hblock hothers, Eval.bind_run]
  cases hrun : Node.runBlock patience block s.environment with
  | ok found env =>
    rw [hrun] at h
    cases h
    rfl
  | error stop env =>
    rw [hrun] at h
    cases h

/-- A block after one that halts is not run. -/
private lemma runBlock_append_of_error (hblock : block ≠ []) (hothers : others ≠ []) {halt : Halt}
    (h : s.runBlock patience block = (.error halt, s')) :
    s.runBlock patience (block ++ others) = (.error halt, s') := by
  unfold runBlock at h ⊢
  rw [Node.runBlock_append patience hblock hothers, Eval.bind_run]
  cases hrun : Node.runBlock patience block s.environment with
  | ok found env =>
    rw [hrun] at h
    cases h
  | error stop env =>
    rw [hrun] at h
    exact h

/-- **Running one script after the other is running both as one.**  The second script stands on the
line after the first; both have tokens and can be read, and it is not the case that the first ends
in a name and the second starts with a parenthesis.  If the first has a value, the two together do
what the second does after the first.  If the first halts, the two together halt as it does and
leave the same environment. -/
theorem run_append_newline {s : Session} {first second : String} {tokens more : List Token}
    (hfirst : Token.tokenize first = .ok tokens) (hsecond : Token.tokenize second = .ok more)
    (hne : tokens ≠ []) (hne' : more ≠ [])
    (hblock : ∃ block, Node.parse s.environment.limits.nesting tokens = .ok block)
    (hothers : ∃ others, Node.parse s.environment.limits.nesting more = .ok others)
    (hseam : ¬ (EndsInName tokens ∧ Opens more.head?)) (patience : Nat) :
    (∀ value s', s.run patience first = (.ok value, s') →
        s.run patience (first ++ "\n" ++ second) = s'.run patience second) ∧
      ∀ halt s', s.run patience first = (.error halt, s') →
        s.run patience (first ++ "\n" ++ second) = (.error halt, s') := by
  obtain ⟨block, hblock⟩ := hblock
  obtain ⟨others, hothers⟩ := hothers
  have hprogram := program_append_newline hfirst hsecond hblock hothers fun hname hopens =>
    hseam ⟨hname, hopens⟩
  have hblock_ne := ne_nil_of_parse hne hblock
  have hothers_ne := ne_nil_of_parse hne' hothers
  rw [run_of_program hprogram, run_of_program (program_eq_ok_iff.2 ⟨tokens, hfirst, hblock⟩)]
  constructor
  · intro value s' h
    have hlimits : s'.environment.limits = s.environment.limits := by
      have hlimits := limits_runBlock patience s block
      rwa [h] at hlimits
    rw [runBlock_append_of_ok hblock_ne hothers_ne h, run_of_program]
    rw [hlimits]
    exact program_eq_ok_iff.2 ⟨more, hsecond, hothers⟩
  · intro halt s' h
    exact runBlock_append_of_error hblock_ne hothers_ne h

/-- A comment that ends with its script, in front of a parenthesis, and a name that is not bound, in
front of another name. -/
theorem run_append_newline_comment :
    let same : Function := ⟨"f", ["b"], [.name "b"]⟩
    let s : Session := ⟨⟨⟨[⟨"a", .number 5⟩]⟩, [], .shared, ⟨2, 2, some 1⟩, 0⟩⟩
    let s' : Session :=
      ⟨⟨⟨[⟨"f", .function same⟩, ⟨"a", .number 5⟩]⟩, [], .shared, ⟨2, 2, some 1⟩, 0⟩⟩
    s.run 0 "fn f(b) \x7bb\x7d // same" = (.ok 0, s') ∧
      s.run 0 ("fn f(b) \x7bb\x7d // same" ++ "\n" ++ "(f(a))") = s'.run 0 "(f(a))" ∧
      s.run 0 "b" = (.error (.failure (.runtime (.notDefined "b"))), s) ∧
      s.run 0 ("b" ++ "\n" ++ "a") = (.error (.failure (.runtime (.notDefined "b"))), s) := by
  intro same s s'
  have hdefine : Token.tokenize "fn f(b) \x7bb\x7d // same" =
      .ok [⟨.keyword .fn, "fn", ⟨0, 1, 0⟩⟩, ⟨.identifier "f", "f", ⟨3, 1, 3⟩⟩,
        ⟨.mark .leftParen, "(", ⟨4, 1, 4⟩⟩, ⟨.identifier "b", "b", ⟨5, 1, 5⟩⟩,
        ⟨.mark .rightParen, ")", ⟨6, 1, 6⟩⟩, ⟨.mark .leftBrace, "\x7b", ⟨8, 1, 8⟩⟩,
        ⟨.identifier "b", "b", ⟨9, 1, 9⟩⟩, ⟨.mark .rightBrace, "\x7d", ⟨10, 1, 10⟩⟩] := by
    rw [Token.tokenize_eq_scanWithin]
    rfl
  have hcall : Token.tokenize "(f(a))" =
      .ok [⟨.mark .leftParen, "(", ⟨0, 1, 0⟩⟩, ⟨.identifier "f", "f", ⟨1, 1, 1⟩⟩,
        ⟨.mark .leftParen, "(", ⟨2, 1, 2⟩⟩, ⟨.identifier "a", "a", ⟨3, 1, 3⟩⟩,
        ⟨.mark .rightParen, ")", ⟨4, 1, 4⟩⟩, ⟨.mark .rightParen, ")", ⟨5, 1, 5⟩⟩] := by
    rw [Token.tokenize_eq_scanWithin]
    rfl
  have hb : Token.tokenize "b" = .ok [⟨.identifier "b", "b", ⟨0, 1, 0⟩⟩] := by
    rw [Token.tokenize_eq_scanWithin]
    rfl
  have ha : Token.tokenize "a" = .ok [⟨.identifier "a", "a", ⟨0, 1, 0⟩⟩] := by
    rw [Token.tokenize_eq_scanWithin]
    rfl
  have hsame : program s.environment.limits.nesting "fn f(b) \x7bb\x7d // same" =
      .ok [.define same] := program_eq_ok_iff.2 ⟨_, hdefine, rfl⟩
  have hname : program s.environment.limits.nesting "b" = .ok [.name "b"] :=
    program_eq_ok_iff.2 ⟨_, hb, rfl⟩
  have hvalue : s.run 0 "fn f(b) \x7bb\x7d // same" = (.ok 0, s') := run_of_program hsame 0
  have hhalt : s.run 0 "b" = (.error (.failure (.runtime (.notDefined "b"))), s) :=
    run_of_program hname 0
  refine ⟨hvalue, ?_, hhalt, ?_⟩
  · refine (run_append_newline hdefine hcall (List.cons_ne_nil _ _) (List.cons_ne_nil _ _)
      ⟨_, rfl⟩ ⟨_, rfl⟩ ?_ 0).1 0 s' hvalue
    rintro ⟨⟨t, id, hlast, ht⟩, -⟩
    cases hlast
    cases ht
  · refine (run_append_newline hb ha (List.cons_ne_nil _ _) (List.cons_ne_nil _ _)
      ⟨_, rfl⟩ ⟨_, rfl⟩ ?_ 0).2 _ s hhalt
    rintro ⟨-, hopens⟩
    cases hopens

end Session

end Abacus
