import Mathlib.Tactic.Common
import Abacus.Proofs.Programs

/-!
# Rules make progress

Whatever a rule of the parser does, it leaves tokens from the end of those that it was given, and as
many levels are open after it as before, whether it succeeds or fails.  Entries of a list that are
tried and given up, levels that are opened and closed again, and blocks whose contents are read as a
slice of their own make no exception: the parser that counts levels keeps beside a plain reader.

What is read as an expression, a statement or a block is of a category of the grammar, and no text
of these categories is empty.  So a rule for one of them that succeeds has taken a token.

## Main definitions

* `Abacus.Parse.Takes` — a rule that takes a token at least.
* `Abacus.Parse.Method` — the rules that a host may run one by one.
* `Abacus.Place.Moves` — how a rule may move the parser.

## Main results

* `Abacus.Parse.expression_takes`, `statement_takes`, `block_takes` — the rules of the language take
  tokens.
* `Abacus.Parse.Method.moves` — no rule moves back, and every rule restores the open levels.
-/

namespace Abacus

namespace Parse

open Grammar Reading

/-! ## Rules that take tokens -/

section Takes

variable {σ : Type} [Reading σ] {α β : Type}

/-- A rule that takes a token at least, where it succeeds. -/
def Takes (rule : ParseOver σ α) : Prop :=
  ∀ ⦃s : Slice⦄ ⦃st ended : σ⦄ ⦃a : α⦄, rule s st = .ok a ended →
    (left ended).length < (left st).length

/-- A plain rule takes a token if it is sound for a category without empty texts. -/
lemma Sound.takes {rule : Plain α} {category : List Token → Option Token → α → Prop} {levels : Nat}
    (h : Sound rule category levels)
    (hne : ∀ {tokens : List Token} {next : Option Token} {a : α}, category tokens next a →
      tokens ≠ []) : Takes rule := by
  intro s tokens rest a hread
  obtain ⟨taken, rfl, -, hcategory⟩ := h hread
  have hlength := List.length_pos_iff.2 (hne (hcategory rest.head? id))
  rw [left_list, left_list, List.length_append]
  omega

/-- A rule of the parser takes a token if the plain rule beside it does. -/
lemma Takes.of_run {rule : Nat → Parse α} {rule' : Nat → Plain α}
    (hrun : ∀ s depth tokens,
      here rule s ⟨tokens, depth⟩ = restored depth (rule' (s.limit - depth) s tokens))
    (h : ∀ levels, Takes (rule' levels)) : Takes (here rule) := by
  intro s p ended a hread
  rw [hrun s p.depth p.rest, restored_eq_ok_iff] at hread
  exact h _ hread.1

/-- Accepting a token gives none back. -/
lemma accept_shrinks (kind : Kind) : Shrinks (accept kind : ParseOver σ Bool) :=
  .of_alone fun _ => accept_pairs kind

/-- An entry takes a token if the expression does. -/
lemma entry_takes {expression : ParseOver σ Node} (h : Takes expression) :
    Takes (entry expression) := by
  intro s st ended found hread
  obtain ⟨next, middle, hnext, hentry⟩ := bind_eq_ok_iff.1 hread
  cases hnext
  cases hhead : (left st).head? with
  | none =>
    rw [hhead] at hentry
    cases hentry
  | some t =>
    rw [hhead] at hentry
    obtain ⟨node, last, hnode, hend⟩ := bind_eq_ok_iff.1 hentry
    cases hend
    exact h hnode

/-- A condition with its body takes a token if the condition does. -/
lemma branch_takes {expression : ParseOver σ Node} {block : ParseOver σ Block}
    (he : Takes expression) (hb : Takes block) : Takes (branch expression block) := by
  intro s st ended arm hread
  obtain ⟨condition, middle, hcondition, hbody⟩ := bind_eq_ok_iff.1 hread
  obtain ⟨body, last, hlast, hend⟩ := bind_eq_ok_iff.1 hbody
  cases hend
  exact Nat.lt_trans (hb hlast) (he hcondition)

end Takes

/-! ## The rules of the language -/

/-- A text that starts with a token is not empty. -/
lemma ne_nil_of_head {tokens : List Token} {P : Kind → Prop}
    (h : ∃ t rest, tokens = t :: rest ∧ P t.kind) : tokens ≠ [] := by
  obtain ⟨t, rest, rfl, -⟩ := h
  exact List.cons_ne_nil t rest

/-- **An expression takes a token at least.** -/
theorem expression_takes : Takes (here expression) :=
  .of_run expression_run fun levels =>
    (expression_sound levels).takes fun h => ne_nil_of_head h.head

/-- **A statement takes a token at least.** -/
theorem statement_takes : Takes (here statement) :=
  .of_run statement_run fun levels =>
    (statement_sound levels).takes fun h => ne_nil_of_head h.head

/-- **A block takes a token at least.** -/
theorem block_takes : Takes (here block) := by
  refine .of_run block_run fun levels => (block_sound levels).takes ?_
  rintro _ _ _ ⟨_, _, _⟩
  exact List.cons_ne_nil _ _

/-! ## Rules that a host runs -/

/-- What a host may run. -/
inductive Method where
  | peek
  | peekKind
  | peekOperator
  | advance
  | atEnd
  | check (kind : Kind)
  | accept (kind : Kind)
  | acceptKeyword (word : Keyword)
  | expect (kind : Kind) (description : String)
  | expectIdentifier
  | expectNumber
  | expectOperator
  | expectedExpression
  | expression
  | statement
  | block
  | program

/-- The rule that is run, where at most `levels` levels may be opened.  Its result is dropped. -/
def Method.rule (m : Method) (levels : Nat) : Parse Unit := do
  match m with
  | peek => let _ ← Parse.peek
  | peekKind => let _ ← Parse.peekKind
  | peekOperator => let _ ← Parse.peekOperator
  | advance => let _ ← Parse.advance
  | atEnd => let _ ← Parse.atEnd
  | check kind => let _ ← Parse.check kind
  | accept kind => let _ ← Parse.accept kind
  | acceptKeyword word => let _ ← Parse.acceptKeyword word
  | expect kind description => let _ ← Parse.expect kind description
  | expectIdentifier => let _ ← Parse.expectIdentifier
  | expectNumber => let _ ← Parse.expectNumber
  | expectOperator => let _ ← Parse.expectOperator
  | expectedExpression => let _ ← Parse.expectedExpression
  | expression => let _ ← Parse.expression levels
  | statement => let _ ← Parse.statement levels
  | block => let _ ← Parse.block levels
  | program => let _ ← Parse.program levels

/-- A rule still takes a token if its result is dropped. -/
lemma Takes.drop {α : Type} {rule : Nat → Parse α} (h : Takes (here rule)) :
    Takes (here fun levels => (do let _ ← rule levels : Parse Unit)) := by
  intro s p ended _ hread
  obtain ⟨a, middle, hrule, hend⟩ := bind_eq_ok_iff.1 hread
  cases hend
  exact h hrule

/-- **Reading an expression, a statement or a block takes a token at least.** -/
lemma Method.takes {m : Method} (hm : m = .expression ∨ m = .statement ∨ m = .block) :
    Takes (here m.rule) := by
  rcases hm with rfl | rfl | rfl
  · exact expression_takes.drop
  · exact statement_takes.drop
  · exact block_takes.drop

end Parse

/-- How a rule may move the parser: forward within its tokens, and with as many levels open as
before. -/
structure Place.Moves (p moved : Place) : Prop where
  depth_eq : moved.depth = p.depth
  rest_suffix : moved.rest <:+ p.rest

namespace Parse

open Reading

/-- The state in which a rule ends, whether it succeeds or fails. -/
def stateAfter {α : Type} : EStateM.Result ParseError Place α → Place
  | .ok _ p | .error _ p => p

/-- A rule that counts levels beside a plain one moves the parser. -/
lemma Pairs.moves {α : Type} {s : Slice} {p : Place} {need : Nat} {good : α → Prop}
    {rule : Parse α} {rule' : Plain α} (h : Pairs (counting s p.depth) need rule rule' good) :
    p.Moves (stateAfter (rule s p)) := by
  have hmeets : Meets _ _ _ _ (rule s p) (rule' s p.rest) := h rfl
  generalize rule s p = r, rule' s p.rest = r' at hmeets
  cases hmeets with
  | ok _ hstart hleft =>
    cases hstart
    exact ⟨rfl, hleft⟩
  | error hfails hleft =>
    cases hfails
    exact ⟨rfl, hleft⟩
  | cut hcut => exact hcut.elim

/-- **No rule moves back, and every rule restores the open levels**, whether it succeeds or fails.
-/
theorem Method.moves (m : Method) (s : Slice) (p : Place) :
    p.Moves (stateAfter (here m.rule s p)) := by
  have hrule : ∃ rule', Pairs (counting s p.depth) 0 (m.rule (s.limit - p.depth)) rule' Any := by
    cases m with
    | peek => exact ⟨_, peek_pairs.map⟩
    | peekKind => exact ⟨_, peekKind_pairs.map⟩
    | peekOperator => exact ⟨_, peekOperator_pairs.map⟩
    | advance => exact ⟨_, advance_pairs.map⟩
    | atEnd => exact ⟨_, atEnd_pairs.map⟩
    | check kind => exact ⟨_, (check_pairs kind).map⟩
    | accept kind => exact ⟨_, (accept_pairs kind).map⟩
    | acceptKeyword word => exact ⟨_, (accept_pairs (.keyword word)).map⟩
    | expect kind description =>
      exact ⟨_, (expect_pairs (failExpected_counting (.text description))).map⟩
    | expectIdentifier => exact ⟨_, expectIdentifier_pairs.map⟩
    | expectNumber => exact ⟨_, expectNumber_pairs.map⟩
    | expectOperator => exact ⟨_, expectOperator_pairs.map⟩
    | expectedExpression => exact ⟨_, expectedExpression_pairs.map⟩
    | expression => exact ⟨_, (expression_counting rfl).map⟩
    | statement => exact ⟨_, (statement_counting rfl).map⟩
    | block => exact ⟨_, (block_counting _ rfl).map⟩
    | program => exact ⟨_, (program_counting rfl).map⟩
  obtain ⟨rule', hpairs⟩ := hrule
  exact hpairs.moves

end Parse

end Abacus
