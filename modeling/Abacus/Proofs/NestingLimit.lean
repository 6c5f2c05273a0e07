import Mathlib.Tactic.Common
import Abacus.Proofs.Programs

/-!
# The nesting limit

A limit on nesting cuts reading off where a bracket would open one level too many.  It does nothing
else: a reader with a lower limit reads and fails as one with a higher limit does, until it is cut
off, and then says so.  A level takes up a token, so a reader is not cut off before it has seen more
tokens than the levels that it may open.

Both are said of all rules at once, by following two readers with different limits side by side.
Only one rule goes on after a failure: the rule for lists, which forgives an entry that cannot be
read right before the closing parenthesis.  No level is opened there, so it never forgives an entry
that was cut off.

## Main definitions

* `Abacus.Parse.curbing` — a reader that may be cut off, beside one with another limit.

## Main results

* `Abacus.Parse.expression_curbing`, `Abacus.Parse.program_curbing` — the rules of the language.
* `Abacus.Node.nesting_limit_is_threshold` — the limit is an exact threshold.
-/

namespace Abacus

open Grammar
open Token (nesting)

namespace Parse

/-! ## Two limits side by side -/

/-- A reader that may be cut off, beside one with another limit.  Besides that both fail only for
want of something. -/
def curbing (s : Slice) (limit : Nat) : Pairing (List Token) (List Token) where
  slice := s
  slice' := { s with limit := limit }
  Start tokens tokens' := tokens = tokens'
  Fails _ _ e := ∃ what found, e = .expected what found
  Seen _ := True
  Cuts := True
  same_slice := rfl
  left_eq h := h.symm
  moved _ _ := rfl
  seen _ _ := trivial
  expected _ _ := ⟨_, _, rfl⟩
  unnamed _ _ := ⟨_, _, rfl⟩
  back _ h := ⟨rfl, h⟩

variable {s : Slice} {limit levels levels' : Nat}

/-- A reader that may open no level is cut off, whatever the other comes to. -/
lemma failTooDeep_curbing {α : Type} (free : Plain α) :
    Pairs (curbing s limit) 0 failTooDeep free Any :=
  fun _ _ _ => .cut trivial (Nat.zero_le _) List.suffix_rfl

/-- An expression is wanted where a closing parenthesis comes next. -/
lemma expression_wantsAtClose (levels : Nat) : WantsAtClose (Plain.expression levels) := by
  cases levels with
  | zero => exact wantsAtClose_climbing _ _
  | succ levels => exact wantsAtClose_climbing _ _

/-! ## Expressions -/

/-- One operand is cut off only where more tokens are left than levels may be opened.

**Proof sketch.** Induction on the levels of the first reader.  If there are none, the parenthesis
at which it is cut off is the token that is needed.  Otherwise what stands in parentheses needs one
token less, and the parenthesis makes up for it. -/
private lemma value_curbing (hle : levels ≤ levels') :
    Pairs (curbing s limit) (levels + 1) (Plain.value levels) (Plain.value levels') Any := by
  induction levels generalizing levels' with
  | zero =>
    obtain ⟨group, arguments, hvalue⟩ :
        ∃ group arguments, Plain.value levels' = operand group arguments := by
      cases levels' with
      | zero => exact ⟨_, _, rfl⟩
      | succ levels' => exact ⟨_, _, rfl⟩
    rw [hvalue]
    refine operand_pairs (fun {st st' l rest} _ hleft _ => ?_) (failTooDeep_curbing _)
    refine .cut trivial ?_ List.suffix_rfl
    rw [hleft, List.length_cons]
    omega
  | succ levels ih =>
    cases levels' with
    | zero => exact absurd hle (Nat.not_succ_le_zero _)
    | succ levels' =>
      have hinner : Pairs (curbing s limit) (levels + 1) (Plain.expression levels)
          (Plain.expression levels') Any :=
        climbing_pairs (ih (Nat.le_of_succ_le_succ hle))
      have hlist := commaList_pairs (fun _ => expression_wantsAtClose levels) hinner
      exact operand_pairs (fun hstart hleft _ => parenthesized_meets hinner hstart hleft)
        (arguments_pairs hlist)

/-- **Expressions** are cut off only where more tokens are left than levels may be opened. -/
theorem expression_curbing (hle : levels ≤ levels') :
    Pairs (curbing s limit) (levels + 1) (Plain.expression levels) (Plain.expression levels') Any :=
  climbing_pairs (value_curbing hle)

/-! ## Statements and programs -/

/-- Statements, from the rule for blocks. -/
lemma statement_curbing_of_block (hle : levels ≤ levels')
    (hblock : Pairs (curbing s limit) levels (Plain.block levels) (Plain.block levels') Any) :
    Pairs (curbing s limit) (levels + 1) (Plain.statement levels) (Plain.statement levels')
      Any := by
  have hexpression : Pairs (curbing s limit) (levels + 1) (Plain.expression levels)
      (Plain.expression levels') Any :=
    expression_curbing hle
  have hlist := commaList_pairs (fun _ => expression_wantsAtClose levels)
    (hexpression.mono (Nat.le_succ _))
  exact statementWith_pairs hexpression hlist hblock

/-- Blocks are cut off only where at least as many tokens are left as levels may be opened. -/
private lemma block_curbing (levels : Nat) : ∀ {s : Slice} {levels' : Nat}, levels ≤ levels' →
    Pairs (curbing s limit) levels (Plain.block levels) (Plain.block levels') Any := by
  induction levels with
  | zero => exact fun _ => failTooDeep_curbing _
  | succ levels ih =>
    intro s levels' hle
    cases levels' with
    | zero => exact absurd hle (Nat.not_succ_le_zero _)
    | succ levels' =>
      have hle' : levels ≤ levels' := Nat.le_of_succ_le_succ hle
      refine braced_pairs (fun _ _ _ _ => ⟨_, _, rfl⟩) ?_
      rintro tokens _ found rfl _
      -- the slices of the contents differ in the limit only
      refine ⟨curbing ⟨s.limit, found.body.getLast?, some found.closing⟩ limit,
        ⟨rfl, rfl, rfl, id, id⟩, ?_⟩
      exact allStatements_pairs (statement_curbing_of_block hle' (ih hle'))

/-- **Programs** are cut off only where more tokens are left than levels may be opened. -/
theorem program_curbing (hle : levels ≤ levels') :
    Pairs (curbing s limit) (levels + 1) (Plain.program levels) (Plain.program levels') Any :=
  allStatements_pairs (statement_curbing_of_block hle (block_curbing levels hle))

end Parse

namespace Node

/-- A reader with a lower limit comes to what one with a higher limit comes to, and has not been cut
off, or else it has been, and there are more tokens than levels. -/
lemma parse_curbed {limit limit' : Nat} (hle : limit ≤ limit') (tokens : List Token) :
    (parse limit tokens = parse limit' tokens ∧
        ∀ d span, parse limit tokens ≠ .error (.nestingTooDeep d span)) ∨
      (limit < tokens.length ∧
        ∃ span, parse limit tokens = .error (.nestingTooDeep limit span)) := by
  have hprogram : Parse.Meets (Parse.curbing (.ofTokens limit tokens) limit') (limit + 1) tokens
      Parse.Any (Plain.program limit (.ofTokens limit tokens) tokens)
      (Plain.program limit' (.ofTokens limit' tokens) tokens) :=
    Parse.program_curbing hle rfl
  rw [parse_eq_plain, parse_eq_plain]
  generalize Plain.program limit (.ofTokens limit tokens) tokens = r,
    Plain.program limit' (.ofTokens limit' tokens) tokens = r' at hprogram ⊢
  cases hprogram with
  | ok => exact .inl ⟨rfl, by simp⟩
  | error hfails =>
    obtain ⟨what, found, rfl⟩ := hfails
    exact .inl ⟨rfl, by simp⟩
  | cut _ hneed => exact .inr ⟨hneed, _, rfl⟩

/-- **The nesting limit is an exact threshold**, and has no other effect.  A reader with a lower
limit comes to what one with a higher limit comes to, be it a program or an error, or fails because
nesting goes beyond its own limit.  It never does so if it may open as many levels as there are
tokens.  A program that is read under such a limit is read under another one exactly if no more
brackets are open at once than the limit says, parameter lists not counted. -/
theorem nesting_limit_is_threshold (tokens : List Token) :
    (∀ limit limit', limit ≤ limit' → parse limit tokens = parse limit' tokens ∨
      ∃ span, parse limit tokens = .error (.nestingTooDeep limit span)) ∧
    (∀ limit, tokens.length ≤ limit →
      ∀ d span, parse limit tokens ≠ .error (.nestingTooDeep d span)) ∧
    ∀ enough block, tokens.length ≤ enough → parse enough tokens = .ok block →
      ∀ limit, parse limit tokens = .ok block ↔ nesting tokens ≤ limit := by
  refine ⟨?_, ?_, ?_⟩
  · intro limit limit' hle
    rcases parse_curbed hle tokens with ⟨hsame, -⟩ | ⟨-, hdeep⟩
    · exact .inl hsame
    · exact .inr hdeep
  · intro limit hlength
    rcases parse_curbed (Nat.le_refl limit) tokens with ⟨-, hnot⟩ | ⟨hless, -⟩
    · exact hnot
    · omega
  · intro enough block _ hread limit
    rw [parse_ok_iff_nesting_le]
    exact and_iff_right (parse_ok_iff_nesting_le.1 hread).1

/-- The tokens of `fn f(x) { (x) }`, in which two levels are open at most: the parameter list is not
counted. -/
theorem nesting_limit_is_threshold_definition :
    let kinds : List Kind :=
      [.keyword .fn, .identifier "f", .mark .leftParen, .identifier "x", .mark .rightParen,
        .mark .leftBrace, .mark .leftParen, .identifier "x", .mark .rightParen, .mark .rightBrace]
    let tokens : List Token := kinds.map fun kind => ⟨kind, "", .start⟩
    let block : Block := [.define ⟨"f", ["x"], [.name "x"]⟩]
    tokens.length ≤ 10 ∧ parse 10 tokens = .ok block ∧ nesting tokens = 2 ∧
      parse 2 tokens = .ok block ∧ ∃ span, parse 1 tokens = .error (.nestingTooDeep 1 span) := by
  intro kinds tokens block
  have hlength : tokens.length ≤ 10 := Nat.le_refl 10
  have hread : parse 10 tokens = .ok block := rfl
  have hnesting : nesting tokens = 2 := rfl
  obtain ⟨hlower, -, hexact⟩ := nesting_limit_is_threshold tokens
  have htwo : parse 2 tokens = .ok block := (hexact 10 block hlength hread 2).2 (by omega)
  refine ⟨hlength, hread, hnesting, htwo, ?_⟩
  rcases hlower 1 10 (by omega) with hsame | hdeep
  · have hone : nesting tokens ≤ 1 := (hexact 10 block hlength hread 1).1 (hsame.trans hread)
    omega
  · exact hdeep

end Node

end Abacus
