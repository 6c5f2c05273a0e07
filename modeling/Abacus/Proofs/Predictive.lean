import Mathlib.Tactic.Common
import Abacus.Proofs.Levels

/-!
# Lists without going back

After a comma the rule for lists tries another entry, and goes back to the comma if that fails.  A
reader that never goes back tells by the next token whether the list ends: after a comma it stops
before a closing parenthesis, and anywhere else an entry has to be read.

Both readers come to the same.  An entry that is given up while the list is read all the same stands
before a closing parenthesis, and no expression starts there; so it has taken no token.  Where an
entry fails anywhere else, so does the list, and the failure is passed on to the top.  The two
readers may leave different tokens when they fail, but nothing is read after a failure.

## Main definitions

* `Abacus.Parse.Predictive.entries`, `commaList` — lists, told by the next token.
* `Abacus.Parse.Predictive.value`, `block`, `program`, `Abacus.Node.predict` — the parser without
  going back.
* `Abacus.Parse.abreast` — two parsers at the same place, which may fail at different tokens.

## Main results

* `Abacus.Parse.entries_abreast` — lists.
* `Abacus.Parse.expression_abreast`, `Abacus.Parse.program_abreast` — the rules of the language.
* `Abacus.Node.parse_eq_predict` — going back is only ever over a comma at the end of a list.
-/

namespace Abacus

open Grammar

/-! ## The parser that never goes back -/

namespace Parse.Predictive

/-- Entries with commas before them, at most `count` of them.  After a comma the list ends if the
closing parenthesis comes next; otherwise an entry has to come. -/
def entries (expression : Parse Node) (count : Nat) : Parse (List Entry) :=
  match count with
  | 0 => return []
  | count + 1 => do
    if ← acceptMark .comma then
      if ← check (.mark .rightParen) then return []
      else
        let found ← entry expression
        return found :: (← entries expression count)
    else return []

/-- A list of expressions with commas between them, up to the closing parenthesis. -/
def commaList (expression : Parse Node) : Parse (List Entry) := do
  if ← check (.mark .rightParen) then return []
  else
    let first ← entry expression
    let tokens ← remaining
    return first :: (← entries expression tokens.length)

/-- One operand, where at most `levels` levels may be opened. -/
def value : Nat → Parse Node
  | 0 => operand (descend failTooDeep) (descend failTooDeep)
  | levels + 1 =>
    operand (descend (parenthesized (climbing (value levels))))
      (descend (arguments (commaList (climbing (value levels)))))

/-- An expression, where at most `levels` levels may be opened. -/
def expression (levels : Nat) : Parse Node := climbing (value levels)

/-- A block, where at most `levels` levels may be opened, its own among them. -/
def block : Nat → Parse Block
  | 0 => do checkDepth; failTooDeep
  | levels + 1 => do
    checkDepth
    braced (allStatements
      (statementWith (expression levels) (commaList (expression levels)) (block levels)))

/-- All statements of the slice, where at most `levels` levels may be opened. -/
def program (levels : Nat) : Parse Block :=
  allStatements (statementWith (expression levels) (commaList (expression levels)) (block levels))

end Parse.Predictive

/-- The program of a list of tokens, read without going back. -/
def Node.predict (limit : Nat) (tokens : List Token) : Except ParseError Block :=
  ((Cursor.ofTokens limit tokens).run Parse.Predictive.program).1

namespace Parse

open Reading

/-! ## Two parsers abreast -/

section Abreast

variable {α : Type} {s : Slice} {need : Nat} {good : α → Prop}

/-- Two parsers that go on from the same place.  Where they fail, as many levels are open, but other
tokens may be left. -/
def abreast (s : Slice) : Pairing Place Place where
  slice := s
  slice' := s
  Start p p' := p = p'
  Fails p p' _ := p.depth = p'.depth
  Seen _ := True
  Cuts := False
  same_slice := rfl
  left_eq := by
    rintro _ _ rfl
    rfl
  moved := by
    rintro _ _ _ rfl _
    rfl
  seen _ _ := trivial
  expected := by
    rintro _ _ _ rfl _
    rfl
  unnamed := by
    rintro _ _ _ rfl _
    rfl
  back _ h := ⟨congrArg (Place.mk _) h, h⟩

/-- Both parsers fail at the limit. -/
lemma failTooDeep_abreast : Pairs (abreast s) need (failTooDeep : Parse α) failTooDeep good := by
  rintro p _ rfl
  exact .error rfl List.suffix_rfl

/-- Both parsers compare the same count to the limit. -/
lemma checkDepth_abreast : Pairs (abreast s) need checkDepth checkDepth Any := by
  rintro p _ rfl
  change Meets _ _ _ _ (checkDepth s p) (checkDepth s p)
  rw [checkDepth]
  split
  · exact .ok trivial rfl List.suffix_rfl
  · exact .error rfl List.suffix_rfl

/-- Both parsers go one level deeper, and come back from there. -/
private lemma deeper_abreast {rule rule' : Parse α} (h : Pairs (abreast s) need rule rule' good) :
    Pairs (abreast s) need (deeper rule) (deeper rule') good := by
  rintro p _ rfl
  have hrule : Meets _ _ _ _ (rule s ⟨p.rest, p.depth + 1⟩) (rule' s ⟨p.rest, p.depth + 1⟩) :=
    h rfl
  change Meets _ _ _ _ (deeper rule s p) (deeper rule' s p)
  simp only [deeper]
  generalize rule s ⟨p.rest, p.depth + 1⟩ = r, rule' s ⟨p.rest, p.depth + 1⟩ = r' at hrule ⊢
  cases hrule with
  | ok ha hended hleft =>
    cases hended
    exact .ok ha rfl hleft
  | error hfails hleft => exact .error (congrArg (· - 1) hfails) hleft
  | cut hcut => exact hcut.elim

/-- Both parsers open a level, or both may not. -/
lemma descend_abreast {rule rule' : Parse α} (h : Pairs (abreast s) need rule rule' good) :
    Pairs (abreast s) need (descend rule) (descend rule') good :=
  checkDepth_abreast.bind fun _ _ => deeper_abreast h

end Abreast

/-! ## Lists -/

section Entries

variable {σ : Type} [Reading σ] {expression : ParseOver σ Node} {s : Slice} {st : σ} {c : Token}
  {tokens : List Token}

/-- Where no comma comes next, a list has no more entries. -/
private lemma entries_of_no_comma (hc : ¬ Leads (.mark .comma) (left st).head?) (count : Nat) :
    entries expression (count + 1) s st = .ok [] st := by
  rw [entries, bind_run, acceptMark, accept_of_not_leads (Kind.exact_mark _) hc]
  rfl

/-- After a comma, an entry that can be read is the next one of the list. -/
private lemma entries_of_entry_ok (hleft : left st = c :: tokens) (hc : c.kind = .mark .comma)
    {found : Entry} {ended : σ} (hentry : entry expression s (leave st tokens) = .ok found ended)
    (count : Nat) :
    entries expression (count + 1) s st =
      (do return found :: (← entries expression count) : ParseOver σ (List Entry)) s ended := by
  rw [entries, bind_run, acceptMark, accept_of_left (Kind.exact_mark _) hleft hc]
  simp only [if_true]
  rw [bind_run, attempt, hentry]

/-- After a comma, an entry that fails is a failure of the list, if the closing parenthesis does not
come next. -/
lemma entries_of_entry_error (hleft : left st = c :: tokens) (hc : c.kind = .mark .comma)
    (hopen : ¬ Leads (.mark .rightParen) tokens.head?) {e : ParseError} {failed : σ}
    (hentry : entry expression s (leave st tokens) = .error e failed) (count : Nat) :
    entries expression (count + 1) s st = .error e (leave failed tokens) := by
  have hnot : tokens.head?.any (·.kind.agrees (.mark .rightParen)) = false := by
    rw [← Bool.not_eq_true, any_agrees_iff (Kind.exact_mark _)]
    exact hopen
  rw [entries, bind_run, acceptMark, accept_of_left (Kind.exact_mark _) hleft hc]
  simp only [if_true]
  rw [bind_run, attempt, hentry, left_leave]
  dsimp only
  rw [bind_run, check_run, left_leave, hnot]
  rfl

/-- After a comma, a list ends where the closing parenthesis comes next: the entry that is tried
there fails. -/
lemma entries_of_close (hclose : WantsAtClose expression) {r : Token} {rest : List Token}
    (hleft : left st = c :: r :: rest) (hc : c.kind = .mark .comma)
    (hr : r.kind = .mark .rightParen) (count : Nat) :
    entries expression (count + 1) s st = .ok [] (leave st (r :: rest)) := by
  have hclosed : (r :: rest).head?.any (·.kind.agrees (.mark .rightParen)) = true :=
    (any_agrees_iff (Kind.exact_mark _) _).2 (leads_some_iff.2 hr)
  rw [entries, bind_run, acceptMark, accept_of_left (Kind.exact_mark _) hleft hc]
  simp only [if_true]
  rw [bind_run, attempt, entry_of_close hclose (left_leave _ _) hr, left_leave]
  simp only [failExpected, leave_leave]
  rw [bind_run, check_run, left_leave, hclosed]
  rfl

end Entries

section Lists

variable {expression expression' : Parse Node} {s : Slice} {need : Nat}

/-- **The entries of a list.**

**Proof sketch.** Both parsers look for a comma first.  If the closing parenthesis comes after it,
the first parser tries an entry in vain and ends the list, and the second ends it at once.
Otherwise both read an entry, and a failure of that entry is a failure of the list in both. -/
theorem entries_abreast (hclose : WantsAtClose expression)
    (h : Pairs (abreast s) need expression expression' Any) :
    ∀ count, Pairs (abreast s) need (entries expression count)
      (Predictive.entries expression' count) Any
  | 0 => .pure trivial
  | count + 1 => by
    rintro p _ rfl
    change Meets _ _ _ _ (entries expression (count + 1) s p)
      (Predictive.entries expression' (count + 1) s p)
    rw [Predictive.entries, bind_run]
    by_cases hcomma : Leads (.mark .comma) (left p).head?
    · obtain ⟨c, tokens, hleft, hc⟩ := hcomma.exists_cons
      have hsuffix : tokens <:+ left p := hleft ▸ List.suffix_cons c tokens
      rw [acceptMark, accept_of_left (Kind.exact_mark _) hleft hc]
      simp only [if_true]
      rw [bind_run, check_run, left_leave]
      by_cases hlead : Leads (.mark .rightParen) tokens.head?
      · obtain ⟨r, rest, rfl, hr⟩ := hlead.exists_cons
        rw [(any_agrees_iff (Kind.exact_mark _) _).2 hlead, entries_of_close hclose hleft hc hr]
        exact .ok trivial rfl hsuffix
      · have hnot : tokens.head?.any (·.kind.agrees (.mark .rightParen)) = false := by
          rw [← Bool.not_eq_true, any_agrees_iff (Kind.exact_mark _)]
          exact hlead
        have hentry : Meets _ _ _ _ (entry expression s (leave p tokens))
            (entry expression' s (leave p tokens)) :=
          entry_pairs h rfl
        rw [hnot]
        simp only [Bool.false_eq_true, if_false]
        rw [bind_run]
        generalize hr : entry expression s (leave p tokens) = r,
          entry expression' s (leave p tokens) = r' at hentry ⊢
        cases hentry with
        | @ok found ended ended' _ hended hrest =>
          rw [entries_of_entry_ok hleft hc hr]
          exact ((entries_abreast hclose h count).map hended).later (hrest.trans hsuffix)
        | @error e failed failed' hfails _ =>
          rw [entries_of_entry_error hleft hc hlead hr]
          exact .error hfails hsuffix
        | cut hcut => exact hcut.elim
    · rw [acceptMark, accept_of_not_leads (Kind.exact_mark _) hcomma, entries_of_no_comma hcomma]
      exact .ok trivial rfl List.suffix_rfl

/-- **Lists**, up to the closing parenthesis. -/
lemma commaList_abreast (hclose : WantsAtClose expression)
    (h : Pairs (abreast s) need expression expression' Any) :
    Pairs (abreast s) need (commaList expression) (Predictive.commaList expression') Any := by
  refine (check_pairs _).bind fun closed _ => ?_
  split
  · exact .pure trivial
  · refine (entry_pairs h).bind fun first _ => remaining_pairs.bind fun tokens _ => ?_
    exact (entries_abreast hclose h tokens.length).map

end Lists

/-! ## The rules of the language -/

section Rules

variable {s : Slice} {need : Nat}

/-- An expression is wanted where a closing parenthesis comes next. -/
lemma wantsAtClose_expression (levels : Nat) : WantsAtClose (expression levels) := by
  cases levels with
  | zero => exact wantsAtClose_climbing _ _
  | succ levels => exact wantsAtClose_climbing _ _

/-- Operands come to the same without going back. -/
private lemma value_abreast (levels : Nat) :
    Pairs (abreast s) need (value levels) (Predictive.value levels) Any := by
  induction levels generalizing need with
  | zero =>
    have hoperand : Pairs (abreast s) (need + 1) (operand (descend failTooDeep)
        (descend failTooDeep)) (Predictive.value 0) Any :=
      operand_pairs (fun hstart _ _ => descend_abreast failTooDeep_abreast hstart)
        (descend_abreast failTooDeep_abreast)
    exact hoperand.of_not_cuts id
  | succ levels ih =>
    have hinner : Pairs (abreast s) (need + 1) (expression levels) (Predictive.expression levels)
        Any :=
      climbing_pairs ih
    have hlist := commaList_abreast (wantsAtClose_expression levels) hinner
    have hoperand : Pairs (abreast s) (need + 1)
        (operand (descend (parenthesized (expression levels)))
          (descend (arguments (commaList (expression levels))))) (Predictive.value (levels + 1))
        Any := by
      refine operand_pairs (fun hstart _ _ => ?_) ?_
      · exact descend_abreast (parenthesized_pairs hinner) hstart
      · exact (descend_abreast (arguments_pairs hlist)).of_not_cuts id
    exact hoperand.of_not_cuts id

/-- **Expressions** come to the same without going back. -/
theorem expression_abreast (levels : Nat) :
    Pairs (abreast s) need (expression levels) (Predictive.expression levels) Any :=
  climbing_pairs (value_abreast levels)

/-- Statements, from the rule for blocks. -/
lemma statementWith_abreast {levels : Nat} {block block' : Parse Block}
    (hb : Pairs (abreast s) need block block' Any) :
    Pairs (abreast s) need
      (statementWith (expression levels) (commaList (expression levels)) block)
      (statementWith (Predictive.expression levels)
        (Predictive.commaList (Predictive.expression levels)) block') Any := by
  have hlist : Pairs (abreast s) need (commaList (expression levels))
      (Predictive.commaList (Predictive.expression levels)) Any :=
    commaList_abreast (wantsAtClose_expression levels) (expression_abreast levels)
  exact (statementWith_pairs (expression_abreast levels)
    (hlist.weaken fun _ _ _ _ => trivial) hb).mono (Nat.le_succ _)

/-- Blocks come to the same without going back. -/
private lemma block_abreast (levels : Nat) : ∀ {s : Slice},
    Pairs (abreast s) need (block levels) (Predictive.block levels) Any := by
  induction levels with
  | zero =>
    intro s
    exact checkDepth_abreast.bind fun _ _ => failTooDeep_abreast
  | succ levels ih =>
    intro s
    have hbraced : Pairs (abreast s) need
        (braced (allStatements
          (statementWith (expression levels) (commaList (expression levels)) (block levels))))
        (braced (allStatements (statementWith (Predictive.expression levels)
          (Predictive.commaList (Predictive.expression levels)) (Predictive.block levels))))
      Any := by
      refine braced_pairs ?_ ?_
      · rintro _ _ l rest rfl _ _ _
        rfl
      · rintro p _ found rfl _
        refine ⟨abreast ⟨s.limit, found.body.getLast?, some found.closing⟩,
          ⟨rfl, rfl, rfl, fun _ => rfl, id⟩, ?_⟩
        exact allStatements_pairs (statementWith_abreast ih)
    exact checkDepth_abreast.bind fun _ _ => hbraced

/-- **Programs** come to the same without going back. -/
theorem program_abreast (levels : Nat) :
    Pairs (abreast s) need (program levels) (Predictive.program levels) Any :=
  allStatements_pairs (statementWith_abreast (block_abreast levels))

end Rules

end Parse

namespace Node

open Parse

/-- **Going back is only ever over a comma at the end of a list.**  Reading a list of tokens comes
to the same program or the same error as reading it without going back, where a comma is followed by
the end of the list if a closing parenthesis comes next, and by an entry otherwise.

Where an entry after a comma fails and the list is read all the same, the closing parenthesis comes
next, the entry has taken no token, and the list ends there. -/
theorem parse_eq_predict :
    (∀ (limit : Nat) (tokens : List Token), parse limit tokens = predict limit tokens) ∧
    ∀ (s : Slice) (depth count : Nat) (c : Token) (tokens : List Token) (e : ParseError)
      (failed : Place) (found : List Entry) (ended : Place), c.kind = .mark .comma →
        entry (here Parse.expression) s ⟨tokens, depth⟩ = .error e failed →
        entries (here Parse.expression) (count + 1) s ⟨c :: tokens, depth⟩ = .ok found ended →
          Leads (.mark .rightParen) tokens.head? ∧ failed = ⟨tokens, depth⟩ ∧ found = [] ∧
            ended = ⟨tokens, depth⟩ := by
  constructor
  · intro limit tokens
    have hprogram : Meets (abreast (.ofTokens limit tokens)) 0 _ Any
        (here Parse.program (.ofTokens limit tokens) ⟨tokens, 0⟩)
        (here Predictive.program (.ofTokens limit tokens) ⟨tokens, 0⟩) :=
      program_abreast _ rfl
    rw [parse, predict, Cursor.run, Cursor.run]
    simp only [Cursor.ofTokens]
    generalize here Parse.program (.ofTokens limit tokens) ⟨tokens, 0⟩ = r,
      here Predictive.program (.ofTokens limit tokens) ⟨tokens, 0⟩ = r' at hprogram ⊢
    cases hprogram with
    | ok => rfl
    | error => rfl
    | cut hcut => exact hcut.elim
  · intro s depth count c tokens e failed found ended hc hentry hlist
    have hclose : WantsAtClose (here Parse.expression) := by
      rw [here_expression, here_value]
      exact wantsAtClose_climbing _ _
    by_cases hlead : Leads (.mark .rightParen) tokens.head?
    · obtain ⟨r, rest, rfl, hr⟩ := hlead.exists_cons
      rw [entry_of_close hclose rfl hr] at hentry
      rw [entries_of_close hclose rfl hc hr] at hlist
      cases hentry
      cases hlist
      exact ⟨hlead, rfl, rfl, rfl⟩
    · -- the entry has to come, so the list fails with it
      rw [entries_of_entry_error rfl hc hlead hentry] at hlist
      cases hlist

/-- The tokens of `f(a,)`, where the list ends after the comma, and those of `f(a,+)`, where an
entry is wanted there. -/
theorem parse_eq_predict_trailing :
    let a : Token := ⟨.identifier "a", "a", ⟨2, 1, 2⟩⟩
    let c : Token := ⟨.mark .comma, ",", ⟨3, 1, 3⟩⟩
    let r : Token := ⟨.mark .rightParen, ")", ⟨4, 1, 4⟩⟩
    let plus : Token := ⟨.operator .add, "+", ⟨4, 1, 4⟩⟩
    let call : List Token :=
      [⟨.identifier "f", "f", ⟨0, 1, 0⟩⟩, ⟨.mark .leftParen, "(", ⟨1, 1, 1⟩⟩, a]
    let s : Slice := .ofTokens 1 (call ++ [c, r])
    let wanted : ParseError := .expected .expression ⟨some plus.kind.describe, some plus.span⟩
    predict 1 (call ++ [c, r]) = .ok [.call "f" [.name "a"]] ∧
      predict 1 (call ++ [c, plus, r]) = .error wanted ∧
      entry (here Parse.expression) s ⟨[r], 1⟩ = failExpected .expression s ⟨[r], 1⟩ ∧
      entries (here Parse.expression) 2 s ⟨[c, r], 1⟩ = .ok [] ⟨[r], 1⟩ ∧
      Leads (.mark .rightParen) [r].head? := by
  intro a c r plus call s wanted
  have hread : parse 1 (call ++ [c, r]) = .ok [.call "f" [.name "a"]] := rfl
  have hfail : parse 1 (call ++ [c, plus, r]) = .error wanted := rfl
  have hentry : entry (here Parse.expression) s ⟨[r], 1⟩ =
      failExpected .expression s ⟨[r], 1⟩ := rfl
  have hlist : entries (here Parse.expression) 2 s ⟨[c, r], 1⟩ = .ok [] ⟨[r], 1⟩ := rfl
  obtain ⟨hsame, hgiven⟩ := parse_eq_predict
  refine ⟨(hsame _ _).symm.trans hread, (hsame _ _).symm.trans hfail, hentry, hlist, ?_⟩
  exact (hgiven s 1 1 c [r] _ _ _ _ rfl hentry hlist).1

end Node

end Abacus
