import Mathlib.Tactic.Common
import Abacus.Proofs.SideBySide

/-!
# Levels that are counted and levels that are given

The parser counts the levels of nesting that are open, and compares the count to the limit where it
opens one.  A plain reader need not count: it is given how many levels it may open, and each level
that it opens is one level less for the rules inside.  Both readers do the same from wherever they
start.  So the parser restores its count however a rule ends, and what is to be said about reading
can be said of plain rules.

## Main definitions

* `Abacus.Plain.value`, `expression`, `block`, `statement`, `program` — the plain reader.
* `Abacus.Parse.counting` — a parser with so many open levels beside a plain reader.
* `Abacus.Parse.restored` — a plain result, with the count of open levels put back.

## Main results

* `Abacus.Parse.expression_counting`, `statement_counting`, `block_counting`, `program_counting` —
  the parser does what the plain reader does, and restores its count.
* `Abacus.Parse.here_value`, `here_expression`, `here_statement`, `here_program`, `here_block` — the
  rules of the parser without a bound on recursion.
* `Abacus.Node.parse_eq_plain` — programs.
-/

namespace Abacus

open Parse

/-! ## The plain reader -/

namespace Plain

/-- One operand that opens at most `levels` levels. -/
def value : Nat → Plain Node
  | 0 => operand failTooDeep failTooDeep
  | levels + 1 =>
    operand (parenthesized (climbing (value levels)))
      (arguments (commaList (climbing (value levels))))

/-- An expression that opens at most `levels` levels. -/
def expression (levels : Nat) : Plain Node := climbing (value levels)

/-- A block that opens at most `levels` levels, its own among them. -/
def block : Nat → Plain Block
  | 0 => failTooDeep
  | levels + 1 =>
    braced (allStatements
      (statementWith (expression levels) (commaList (expression levels)) (block levels)))

/-- A statement that opens at most `levels` levels. -/
def statement (levels : Nat) : Plain Node :=
  statementWith (expression levels) (commaList (expression levels)) (block levels)

/-- All statements of the slice, which open at most `levels` levels. -/
def program (levels : Nat) : Plain Block := allStatements (statement levels)

end Plain

namespace Parse

open Reading

/-! ## Plain rules side by side -/

section Plain

variable {c : Pairing (List Token) (List Token)} {need : Nat}

/-- Operands, where failing at the limit is among what a pairing expects. -/
lemma value_pairs (hcuts : ¬ c.Cuts)
    (hdeep : ∀ α : Type, Pairs c need (failTooDeep : Plain α) failTooDeep Any) (levels : Nat) :
    Pairs c need (Plain.value levels) (Plain.value levels) Any := by
  induction levels with
  | zero =>
    have hoperand : Pairs c (need + 1) (Plain.value 0) (Plain.value 0) Any :=
      operand_pairs (fun hstart _ _ => (hdeep Node).of_not_cuts hcuts hstart) (hdeep (List Node))
    exact hoperand.mono (Nat.le_succ _)
  | succ levels ih =>
    have hexpression := climbing_pairs ih
    have hlist := commaList_pairs (fun hcut => absurd hcut hcuts) hexpression
    have hoperand : Pairs c (need + 1) (Plain.value (levels + 1)) (Plain.value (levels + 1)) Any :=
      operand_pairs
        (fun hstart _ _ => (parenthesized_pairs hexpression).of_not_cuts hcuts hstart)
        (arguments_pairs hlist)
    exact hoperand.mono (Nat.le_succ _)

/-- Expressions, where failing at the limit is among what a pairing expects. -/
lemma expression_pairs (hcuts : ¬ c.Cuts)
    (hdeep : ∀ α : Type, Pairs c need (failTooDeep : Plain α) failTooDeep Any) (levels : Nat) :
    Pairs c need (Plain.expression levels) (Plain.expression levels) Any :=
  climbing_pairs (value_pairs hcuts hdeep levels)

/-- Plain operands give no tokens back. -/
lemma value_shrinks (levels : Nat) : Shrinks (Plain.value levels) := by
  refine .of_alone fun s => value_pairs id (fun α => ?_) levels
  rintro tokens _ rfl
  exact .error rfl List.suffix_rfl

end Plain

/-! ## Counting levels -/

section Counting

variable {α : Type} {s : Slice} {depth need : Nat} {good : α → Prop}

/-- A parser in whose slice `depth` levels are open, beside a plain reader: they have the same
tokens left, and the count is as it was, also when both have failed. -/
def counting (s : Slice) (depth : Nat) : Pairing Place (List Token) where
  slice := s
  slice' := s
  Start p tokens := p = ⟨tokens, depth⟩
  Fails p tokens _ := p = ⟨tokens, depth⟩
  Seen _ := True
  Cuts := False
  same_slice := rfl
  left_eq := by
    rintro _ _ rfl
    rfl
  moved := by
    rintro _ _ _ rfl _
    rfl
  seen _ _ := trivial
  expected hstart _ := hstart
  unnamed hstart _ := hstart
  back := by
    rintro _ _ _ _ _ rfl rfl
    exact ⟨rfl, rfl⟩

/-- Both readers fail alike for want of anything. -/
lemma failExpected_counting (what : Expectation) :
    Pairs (counting s depth) need (failExpected what : Parse α) (failExpected what) good := by
  rintro _ _ rfl
  exact .error rfl List.suffix_rfl

/-- Where a further level may be opened, a rule goes on after the check. -/
lemma checkDepth_counting {rule : Parse α} {rule' : Plain α} (hdepth : depth < s.limit)
    (h : Pairs (counting s depth) need rule rule' good) :
    Pairs (counting s depth) need (do checkDepth; rule) rule' good := by
  rintro _ tokens rfl
  have hcheck : checkDepth s ⟨tokens, depth⟩ = .ok () ⟨tokens, depth⟩ := if_pos hdepth
  change Meets _ _ _ _ ((do checkDepth; rule : Parse α) s ⟨tokens, depth⟩) _
  rw [bind_run, hcheck]
  exact h rfl

/-- Where no further level may be opened, that is reported, whatever rule follows the check. -/
lemma checkDepth_counting_full (rule : Parse α) (hdepth : s.limit ≤ depth) :
    Pairs (counting s depth) need (do checkDepth; rule) failTooDeep good := by
  rintro _ tokens rfl
  have hcheck : checkDepth s ⟨tokens, depth⟩ = failTooDeep s ⟨tokens, depth⟩ :=
    if_neg (Nat.not_lt.2 hdepth)
  change Meets _ _ _ _ ((do checkDepth; rule : Parse α) s ⟨tokens, depth⟩) (failTooDeep s tokens)
  rw [bind_run, hcheck]
  exact .error rfl List.suffix_rfl

/-- A rule that is run one level deeper does what a plain rule does if it does so inside, and the
level is closed after it. -/
private lemma deeper_counting {rule : Parse α} {rule' : Plain α}
    (h : Pairs (counting s (depth + 1)) need rule rule' good) :
    Pairs (counting s depth) need (deeper rule) rule' good := by
  rintro _ tokens rfl
  have hrule : Meets _ _ _ _ (rule s ⟨tokens, depth + 1⟩) (rule' s tokens) := h rfl
  change Meets _ _ _ _ (deeper rule s ⟨tokens, depth⟩) (rule' s tokens)
  simp only [deeper]
  generalize rule s ⟨tokens, depth + 1⟩ = r, rule' s tokens = r' at hrule ⊢
  cases hrule with
  | ok ha hended hleft =>
    cases hended
    exact .ok ha rfl hleft
  | error hfails hleft =>
    cases hfails
    exact .error rfl hleft
  | cut hcut => exact hcut.elim

/-- Where a further level may be opened, a rule that descends does what a plain rule does if it does
so inside. -/
lemma descend_counting {rule : Parse α} {rule' : Plain α} (hdepth : depth < s.limit)
    (h : Pairs (counting s (depth + 1)) need rule rule' good) :
    Pairs (counting s depth) need (descend rule) rule' good :=
  checkDepth_counting hdepth (deeper_counting h)

/-- Where no further level may be opened, a rule does not descend. -/
lemma descend_counting_full (rule : Parse α) (hdepth : s.limit ≤ depth) :
    Pairs (counting s depth) need (descend rule) failTooDeep good :=
  checkDepth_counting_full _ hdepth

/-- What the parser comes to is what the plain reader does, with the count put back. -/
def restored (depth : Nat) :
    EStateM.Result ParseError (List Token) α → EStateM.Result ParseError Place α
  | .ok a rest => .ok a ⟨rest, depth⟩
  | .error e rest => .error e ⟨rest, depth⟩

/-- The parser has read what the plain reader has. -/
lemma restored_eq_ok_iff {r : EStateM.Result ParseError (List Token) α} {a : α} {ended : Place} :
    restored depth r = .ok a ended ↔ r = .ok a ended.rest ∧ ended.depth = depth := by
  obtain ⟨rest, depth'⟩ := ended
  cases r <;> simp [restored, eq_comm, and_assoc]

/-- The parser has failed as the plain reader has. -/
lemma restored_eq_error_iff {r : EStateM.Result ParseError (List Token) α} {e : ParseError}
    {failed : Place} :
    restored depth r = .error e failed ↔ r = .error e failed.rest ∧ failed.depth = depth := by
  obtain ⟨rest, depth'⟩ := failed
  cases r <;> simp [restored, eq_comm, and_assoc]

/-- **The count is restored.**  A rule that counts levels beside a plain one comes to what that one
comes to, and leaves the count as it was, whether it succeeds or fails. -/
lemma Pairs.eq_restored {rule : Parse α} {rule' : Plain α}
    (h : Pairs (counting s depth) need rule rule' good) (tokens : List Token) :
    rule s ⟨tokens, depth⟩ = restored depth (rule' s tokens) := by
  have hrule : Meets _ _ _ _ (rule s ⟨tokens, depth⟩) (rule' s tokens) := h rfl
  generalize rule s ⟨tokens, depth⟩ = r, rule' s tokens = r' at hrule ⊢
  cases hrule with
  | ok _ hended =>
    cases hended
    rfl
  | error hfails =>
    cases hfails
    rfl
  | cut hcut => exact hcut.elim

end Counting

/-! ## The rules of the language -/

section Rules

variable {s : Slice} {depth levels need : Nat}

/-- **Operands.**

**Proof sketch.** Induction on the levels that may be opened.  If there are none, both readers
refuse what stands in parentheses.  Otherwise the parser reads it with one level more in its count,
and so with one level less that may be opened. -/
lemma value_counting (levels : Nat) : ∀ {s : Slice} {depth need : Nat}, s.limit - depth = levels →
    Pairs (counting s depth) need (value levels) (Plain.value levels) Any := by
  induction levels with
  | zero =>
    intro s depth need hlevels
    have hdepth : s.limit ≤ depth := by omega
    have hoperand : Pairs (counting s depth) (need + 1)
        (operand (descend failTooDeep) (descend failTooDeep)) (Plain.value 0) Any :=
      operand_pairs (fun hstart _ _ => descend_counting_full _ hdepth hstart)
        (descend_counting_full _ hdepth)
    exact hoperand.of_not_cuts id
  | succ levels ih =>
    intro s depth need hlevels
    have hdepth : depth < s.limit := by omega
    have hinner : Pairs (counting s (depth + 1)) (need + 1) (climbing (value levels))
        (climbing (Plain.value levels)) Any :=
      climbing_pairs (ih (by omega))
    have hlist := commaList_pairs (fun hcut => absurd hcut id) hinner
    have hoperand : Pairs (counting s depth) (need + 1)
        (operand (descend (parenthesized (climbing (value levels))))
          (descend (arguments (commaList (climbing (value levels)))))) (Plain.value (levels + 1))
        Any := by
      refine operand_pairs (fun hstart _ _ => ?_) ?_
      · exact descend_counting hdepth (parenthesized_pairs hinner) hstart
      · exact (descend_counting hdepth (arguments_pairs hlist)).of_not_cuts id
    exact hoperand.of_not_cuts id

/-- **Expressions.** -/
theorem expression_counting (hlevels : s.limit - depth = levels) :
    Pairs (counting s depth) need (expression levels) (Plain.expression levels) Any :=
  climbing_pairs (value_counting levels hlevels)

/-- Lists of expressions. -/
private lemma commaList_counting (hlevels : s.limit - depth = levels) :
    Pairs (counting s depth) need (commaList (expression levels))
      (commaList (Plain.expression levels)) fun found => ∀ entry ∈ found, True :=
  commaList_pairs (fun hcut => hcut.elim) (expression_counting hlevels)

/-- Statements, from the rule for blocks. -/
lemma statementWith_counting {block : Parse Block} {block' : Plain Block}
    (hlevels : s.limit - depth = levels) (hb : Pairs (counting s depth) need block block' Any) :
    Pairs (counting s depth) need
      (statementWith (expression levels) (commaList (expression levels)) block)
      (statementWith (Plain.expression levels) (commaList (Plain.expression levels)) block')
      Any :=
  have hstatement :=
    statementWith_pairs (expression_counting hlevels) (commaList_counting hlevels) hb
  hstatement.of_not_cuts id

/-- The contents of a block are read one level deeper, by a parser of their own. -/
lemma braced_counting {contents : Parse Block} {contents' : Plain Block}
    (h : ∀ {s' : Slice}, s'.limit = s.limit →
      Pairs (counting s' (depth + 1)) need contents contents' Any) :
    Pairs (counting s depth) need (braced contents) (braced contents') Any := by
  refine braced_pairs ?_ ?_
  · rintro _ _ l rest rfl _ _ _
    rfl
  · rintro _ tokens found rfl _
    refine ⟨counting ⟨s.limit, found.body.getLast?, some found.closing⟩ (depth + 1), ?_, h rfl⟩
    exact ⟨rfl, rfl, rfl, fun _ => rfl, id⟩

/-- **Blocks.** -/
theorem block_counting (levels : Nat) : ∀ {s : Slice} {depth : Nat}, s.limit - depth = levels →
    Pairs (counting s depth) need (block levels) (Plain.block levels) Any := by
  induction levels with
  | zero =>
    intro s depth hlevels
    exact checkDepth_counting_full failTooDeep (by omega)
  | succ levels ih =>
    intro s depth hlevels
    have hbraced : Pairs (counting s depth) need (braced (allStatements
        (statementWith (expression levels) (commaList (expression levels)) (block levels))))
        (Plain.block (levels + 1)) Any := by
      refine braced_counting fun {s'} hlimit => allStatements_pairs ?_
      have hinside : s'.limit - (depth + 1) = levels := by omega
      exact statementWith_counting hinside (ih hinside)
    exact checkDepth_counting (by omega) hbraced

/-- **Statements.** -/
theorem statement_counting (hlevels : s.limit - depth = levels) :
    Pairs (counting s depth) need (statement levels) (Plain.statement levels) Any :=
  statementWith_counting hlevels (block_counting levels hlevels)

/-- **Programs.** -/
theorem program_counting (hlevels : s.limit - depth = levels) :
    Pairs (counting s depth) need (program levels) (Plain.program levels) Any :=
  allStatements_pairs (statement_counting hlevels)

end Rules

/-! ## Rules without a bound on recursion -/

section Here

variable {α : Type} {s : Slice} {depth need : Nat} {good : α → Prop}

/-- A rule that is given the levels that may be opened where it starts. -/
lemma here_counting {rule : Nat → Parse α} {rule' : Plain α}
    (h : Pairs (counting s depth) need (rule (s.limit - depth)) rule' good) :
    Pairs (counting s depth) need (here rule) rule' good := by
  rintro _ tokens rfl
  exact h rfl

/-- A rule that counts levels beside a plain one comes to what the plain one does, with the levels
restored. -/
lemma Pairs.here_run {rule : Nat → Parse α} {rule' : Plain α}
    (h : Pairs (counting s depth) 0 (rule (s.limit - depth)) rule' Any) (tokens : List Token) :
    here rule s ⟨tokens, depth⟩ = restored depth (rule' s tokens) :=
  (here_counting h).eq_restored tokens

/-- Wherever it starts, the parser reads an expression as the plain reader does. -/
lemma expression_run (s : Slice) (depth : Nat) (tokens : List Token) :
    here expression s ⟨tokens, depth⟩ =
      restored depth (Plain.expression (s.limit - depth) s tokens) :=
  (expression_counting rfl).here_run tokens

/-- Wherever it starts, the parser reads a block as the plain reader does. -/
lemma block_run (s : Slice) (depth : Nat) (tokens : List Token) :
    here block s ⟨tokens, depth⟩ = restored depth (Plain.block (s.limit - depth) s tokens) :=
  (block_counting _ rfl).here_run tokens

/-- Wherever it starts, the parser reads a statement as the plain reader does. -/
lemma statement_run (s : Slice) (depth : Nat) (tokens : List Token) :
    here statement s ⟨tokens, depth⟩ =
      restored depth (Plain.statement (s.limit - depth) s tokens) :=
  (statement_counting rfl).here_run tokens

/-- Wherever it starts, the parser reads a program as the plain reader does. -/
private lemma program_run (s : Slice) (depth : Nat) (tokens : List Token) :
    here program s ⟨tokens, depth⟩ = restored depth (Plain.program (s.limit - depth) s tokens) :=
  (program_counting rfl).here_run tokens

/-- The parser reads operands in step with itself. -/
lemma here_value_alone (s : Slice) : Pairs (alone s) 0 (here value) (here value) Any :=
  .alone_of fun p => ⟨counting s p.depth, 0, _, p.rest, rfl, rfl,
    here_counting (value_counting _ rfl)⟩

/-- Two rules that count levels beside one plain rule are the same. -/
lemma eq_of_counting {rule other : Parse α}
    (h : ∀ s depth, ∃ rule' : Plain α, Pairs (counting s depth) 0 rule rule' Any ∧
      Pairs (counting s depth) 0 other rule' Any) : rule = other := by
  funext s p
  obtain ⟨rule', hrule, hother⟩ := h s p.depth
  exact (hrule.eq_restored p.rest).trans (hother.eq_restored p.rest).symm

/-- **An operand** is a number, a name, or else an expression or a list of expressions that is read
one level deeper: the levels that rules are given have no part in what is read. -/
theorem here_value : here value =
    operand (descend (parenthesized (here expression)))
      (descend (arguments (commaList (here expression)))) := by
  refine eq_of_counting fun s depth => ⟨Plain.value (s.limit - depth), ?_, ?_⟩
  · exact here_counting (value_counting _ rfl)
  · have hoperand : Pairs (counting s depth) 1
        (operand (descend (parenthesized (here expression)))
          (descend (arguments (commaList (here expression)))))
        (Plain.value (s.limit - depth)) Any := by
      by_cases hdepth : depth < s.limit
      · obtain ⟨levels, hlevels⟩ : ∃ n, s.limit - depth = n + 1 := ⟨s.limit - depth - 1, by omega⟩
        have hinner : Pairs (counting s (depth + 1)) 1 (here expression) (Plain.expression levels)
            Any := by
          refine here_counting ?_
          rw [show s.limit - (depth + 1) = levels by omega]
          exact expression_counting (by omega)
        have hlist := commaList_pairs (fun hcut => absurd hcut id) hinner
        rw [hlevels]
        refine operand_pairs (fun hstart _ _ => ?_) ?_
        · exact descend_counting hdepth (parenthesized_pairs hinner) hstart
        · exact (descend_counting hdepth (arguments_pairs hlist)).of_not_cuts id
      · have hfull : s.limit ≤ depth := Nat.le_of_not_lt hdepth
        rw [show s.limit - depth = 0 by omega]
        exact operand_pairs (fun hstart _ _ => descend_counting_full _ hfull hstart)
          (descend_counting_full _ hfull)
    exact hoperand.of_not_cuts id

/-- **An expression** is read from its operands. -/
theorem here_expression : here expression = climbing (here value) :=
  eq_of_counting fun s depth => ⟨Plain.expression (s.limit - depth),
    here_counting (expression_counting rfl),
    climbing_pairs (here_counting (value_counting _ rfl))⟩

/-- **A statement** is read from expressions, lists and blocks. -/
theorem here_statement : here statement =
    statementWith (here expression) (commaList (here expression)) (here block) := by
  refine eq_of_counting fun s depth => ⟨Plain.statement (s.limit - depth), ?_, ?_⟩
  · exact here_counting (statement_counting rfl)
  · have hexpression : Pairs (counting s depth) 1 (here expression)
        (Plain.expression (s.limit - depth)) Any :=
      here_counting (expression_counting rfl)
    have hlist := commaList_pairs (fun hcut => absurd hcut id) (hexpression.mono (Nat.zero_le 1))
    exact (statementWith_pairs hexpression hlist
      (here_counting (block_counting _ rfl))).of_not_cuts id

/-- **A program** is read statement by statement. -/
theorem here_program : here program = allStatements (here statement) :=
  eq_of_counting fun s depth => ⟨Plain.program (s.limit - depth),
    here_counting (program_counting rfl),
    allStatements_pairs (here_counting (statement_counting rfl))⟩

/-- **A block** is a program in braces, which is read one level deeper if a further level may be
opened. -/
theorem here_block : here block = (do checkDepth; braced (here program)) := by
  refine eq_of_counting fun s depth => ⟨Plain.block (s.limit - depth), ?_, ?_⟩
  · exact here_counting (block_counting _ rfl)
  · by_cases hdepth : depth < s.limit
    · obtain ⟨levels, hlevels⟩ : ∃ n, s.limit - depth = n + 1 := ⟨s.limit - depth - 1, by omega⟩
      rw [hlevels]
      refine checkDepth_counting hdepth (braced_counting fun {s'} hlimit => here_counting ?_)
      rw [show s'.limit - (depth + 1) = levels by omega]
      exact program_counting (by omega)
    · rw [show s.limit - depth = 0 by omega]
      exact checkDepth_counting_full _ (Nat.le_of_not_lt hdepth)

end Here

end Parse

/-! ## Programs -/

namespace Node

/-- **Programs** are read as by the plain reader that may open as many levels as the limit says. -/
theorem parse_eq_plain (limit : Nat) (tokens : List Token) :
    parse limit tokens =
      match Plain.program limit (.ofTokens limit tokens) tokens with
      | .ok program _ => .ok program
      | .error e _ => .error e := by
  have hrun : here program (.ofTokens limit tokens) ⟨tokens, 0⟩ =
      restored 0 (Plain.program limit (.ofTokens limit tokens) tokens) :=
    program_run _ 0 tokens
  rw [parse, Cursor.run]
  simp only [Cursor.ofTokens]
  rw [hrun]
  cases Plain.program limit (.ofTokens limit tokens) tokens <;> rfl

end Node

end Abacus
