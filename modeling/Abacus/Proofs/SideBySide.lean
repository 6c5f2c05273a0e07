import Mathlib.Tactic.Common
import Abacus.Proofs.Braces
import Abacus.Proofs.Reading

/-!
# Two readers side by side

Much of what is to be said about reading compares two readers: one that counts the open levels and
one that does not, one with a low limit and one with a high one, one that goes back and one that
never does.  Where both have the same tokens left, every rule takes both to the same result with the
same tokens left again, or to the same error; or the first reader is cut off at its limit on
nesting.  What one reader keeps by itself is the case where both are the same.

A pairing says which states and which errors go together.  Every rule of the grammar keeps to it if
the rules that it is put together from do.  So a comparison only has to look at the rules in which
the two readers differ.

## Main definitions

* `Abacus.Parse.Pairing` — how two readers are held together.
* `Abacus.Parse.Meets`, `Abacus.Parse.Pairs` — what two readers come to, and rules that keep to a
  pairing.
* `Abacus.Parse.Pairing.Enters` — how the pairing of a block belongs to the one around it.
* `Abacus.Parse.alone`, `Abacus.Parse.Shrinks` — one reader, and its rules that give no tokens back.

## Main results

* `Abacus.Parse.Pairs.bind`, `Abacus.Parse.Pairs.ite_accept` — rules that are put together.
* `Abacus.Parse.climbing_pairs`, `operand_pairs`, `commaList_pairs` — expressions.
* `Abacus.Parse.statementWith_pairs`, `allStatements_pairs`, `braced_pairs` — statements and blocks.
-/

namespace Abacus

open Grammar

namespace Parse

open Reading

variable {σ τ : Type} [Reading σ] [Reading τ] {α β : Type}

/-! ## Pairings -/

/-- How two readers are held together while they read a slice each: the states from which both may
go on, and the errors with which both may fail.  The first reader may also be cut off at its limit
on nesting, if the pairing allows for cuts. -/
structure Pairing (σ τ : Type) [Reading σ] [Reading τ] where
  slice : Slice
  slice' : Slice
  /-- Both readers may go on from these states. -/
  Start : σ → τ → Prop
  /-- Both readers may fail in these states with this error. -/
  Fails : σ → τ → ParseError → Prop
  /-- A token that the readers have come across. -/
  Seen : Token → Prop
  /-- The first reader may be cut off. -/
  Cuts : Prop
  /-- The slices differ in their limits at most. -/
  same_slice : slice' = { slice with limit := slice'.limit }
  left_eq : ∀ {st st'}, Start st st' → left st' = left st
  moved : ∀ {st st' tokens}, Start st st' → tokens <:+ left st →
    Start (leave st tokens) (leave st' tokens)
  seen : ∀ {st st' t}, Start st st' → t ∈ left st → Seen t
  expected : ∀ {st st' what}, Start st st' → what ≠ .text Mark.rightBrace.quoted →
    Fails st st' (.expected what (slice.sight (left st)))
  unnamed : ∀ {st st' t}, Start st st' → Seen t →
    Fails st st' (.expected .identifier ⟨some t.kind.describe, some t.span⟩)
  back : ∀ {st st' failed failed' e}, Start st st' → Fails failed failed' e →
    Start (leave failed (left st)) (leave failed' (left st)) ∧
      Fails (leave failed (left st)) (leave failed' (left st)) e

/-- What two readers come to: the same good result, in states from which both may go on; or the same
error; or else the first one is cut off, where at least `need` tokens were left.  The first reader
leaves tokens from the end of those that it started with. -/
inductive Meets (c : Pairing σ τ) (need : Nat) (st : σ) (good : α → Prop) :
    EStateM.Result ParseError σ α → EStateM.Result ParseError τ α → Prop
  | ok {a : α} {ended : σ} {ended' : τ} : good a → c.Start ended ended' →
      left ended <:+ left st → Meets c need st good (.ok a ended) (.ok a ended')
  | error {e : ParseError} {failed : σ} {failed' : τ} : c.Fails failed failed' e →
      left failed <:+ left st → Meets c need st good (.error e failed) (.error e failed')
  | cut {span : Option Span} {failed : σ} {r : EStateM.Result ParseError τ α} : c.Cuts →
      need ≤ (left st).length → left failed <:+ left st →
        Meets c need st good (.error (.nestingTooDeep c.slice.limit span) failed) r

/-- Two rules keep to a pairing, wherever both readers may start. -/
def Pairs (c : Pairing σ τ) (need : Nat) (rule : ParseOver σ α) (rule' : ParseOver τ α)
    (good : α → Prop) : Prop :=
  ∀ ⦃st : σ⦄ ⦃st' : τ⦄, c.Start st st' → Meets c need st good (rule c.slice st) (rule' c.slice' st')

/-- Results of which nothing is asked. -/
abbrev Any : α → Prop := fun _ => True

variable {c : Pairing σ τ} {need more : Nat} {good : α → Prop}

/-- Both readers see the same where some tokens are left. -/
lemma Pairing.sight_eq (c : Pairing σ τ) (tokens : List Token) :
    c.slice'.sight tokens = c.slice.sight tokens := by
  rw [c.same_slice, Slice.sight, Slice.sight]

/-- What two readers come to after some tokens have been taken. -/
lemma Meets.after {st middle : σ} {r : EStateM.Result ParseError σ α}
    {r' : EStateM.Result ParseError τ α} (h : Meets c more middle good r r')
    (hmiddle : left middle <:+ left st)
    (hneed : more ≤ (left middle).length → need ≤ (left st).length) :
    Meets c need st good r r' := by
  cases h with
  | ok ha hstart hleft => exact .ok ha hstart (hleft.trans hmiddle)
  | error hfails hleft => exact .error hfails (hleft.trans hmiddle)
  | cut hcuts hmore hleft => exact .cut hcuts (hneed hmore) (hleft.trans hmiddle)

/-- What two readers come to where they go on from a place at which they have come so far. -/
lemma Meets.later {st middle : σ} {r : EStateM.Result ParseError σ α}
    {r' : EStateM.Result ParseError τ α} (h : Meets c need middle good r r')
    (hmiddle : left middle <:+ left st) : Meets c need st good r r' :=
  h.after hmiddle fun hneed => Nat.le_trans hneed hmiddle.length_le

namespace Pairs

variable {rule other : ParseOver σ α} {rule' other' : ParseOver τ α}

/-- A reader is cut off where even more tokens are left than are needed. -/
lemma mono (h : Pairs c more rule rule' good) (hle : need ≤ more) : Pairs c need rule rule' good :=
  fun _ _ hstart => (h hstart).after List.suffix_rfl (Nat.le_trans hle)

/-- Where no reader is cut off, it does not matter how many tokens are needed for that. -/
lemma of_not_cuts (h : Pairs c more rule rule' good) (hcuts : ¬ c.Cuts) :
    Pairs c need rule rule' good := by
  intro st st' hstart
  have hrule := h hstart
  generalize rule c.slice st = r, rule' c.slice' st' = r' at hrule ⊢
  cases hrule with
  | ok ha hended hleft => exact .ok ha hended hleft
  | error hfails hleft => exact .error hfails hleft
  | cut hcut => exact absurd hcut hcuts

/-- A result may be good for less. -/
lemma weaken {good' : α → Prop} (h : Pairs c need rule rule' good) (hgood : ∀ a, good a → good' a) :
    Pairs c need rule rule' good' := by
  intro st st' hstart
  have hrule := h hstart
  generalize rule c.slice st = r, rule' c.slice' st' = r' at hrule ⊢
  cases hrule with
  | ok ha hended hleft => exact .ok (hgood _ ha) hended hleft
  | error hfails hleft => exact .error hfails hleft
  | cut hcut hneed hleft => exact .cut hcut hneed hleft

/-- A result that is given at once. -/
lemma pure {a : α} (ha : good a) : Pairs c need (Pure.pure a) (Pure.pure a) good :=
  fun _ _ hstart => .ok ha hstart List.suffix_rfl

/-- **One rule after the other.**  Both readers go on from where the first rule has taken them. -/
theorem bind {next : α → ParseOver σ β} {next' : α → ParseOver τ β} {good' : β → Prop}
    (h : Pairs c need rule rule' good)
    (hnext : ∀ a, good a → Pairs c need (next a) (next' a) good') :
    Pairs c need (rule >>= next) (rule' >>= next') good' := by
  intro st st' hstart
  have hrule := h hstart
  rw [bind_run, bind_run]
  generalize rule c.slice st = r, rule' c.slice' st' = r' at hrule ⊢
  cases hrule with
  | ok ha hended hleft => exact (hnext _ ha hended).later hleft
  | error hfails hleft => exact .error hfails hleft
  | cut hcut hneed hleft => exact .cut hcut hneed hleft

/-- A rule with its result put in another form. -/
lemma map {f : α → β} (h : Pairs c need rule rule' good) :
    Pairs c need (rule >>= fun a => Pure.pure (f a)) (rule' >>= fun a => Pure.pure (f a)) Any :=
  h.bind fun _ _ => .pure trivial

/-- A rule that only looks at the tokens that are left. -/
lemma look (view : List Token → α) (h : ∀ st, rule c.slice st = .ok (view (left st)) st)
    (h' : ∀ st', rule' c.slice' st' = .ok (view (left st')) st')
    (hgood : ∀ {st st'}, c.Start st st' → good (view (left st))) :
    Pairs c need rule rule' good := by
  intro st st' hstart
  rw [h, h', c.left_eq hstart]
  exact .ok (hgood hstart) hstart List.suffix_rfl

/-- A rule that fails for want of something, other than the brace that ends a block. -/
lemma failExpected {what : Expectation} (hwhat : what ≠ .text Mark.rightBrace.quoted) :
    Pairs c need (Parse.failExpected what : ParseOver σ α) (Parse.failExpected what) good := by
  intro st st' hstart
  rw [Parse.failExpected, Parse.failExpected, c.left_eq hstart, c.sight_eq]
  exact .error (c.expected hstart hwhat) List.suffix_rfl

/-- Where an optional token is taken, one token less is needed after it. -/
theorem ite_accept {kind : Kind} (hk : kind.Exact) (hrule : Pairs c more rule rule' good)
    (hle : need ≤ more + 1) (hother : Pairs c need other other' good) :
    Pairs c need (do if ← accept kind then rule else other)
      (do if ← accept kind then rule' else other') good := by
  intro st st' hstart
  by_cases hl : Leads kind (left st).head?
  · obtain ⟨t, rest, hleft, ht⟩ := hl.exists_cons
    have hsuffix : rest <:+ left st := hleft ▸ List.suffix_cons t rest
    have hmeets := hrule (c.moved hstart hsuffix)
    have hleft' : left st' = t :: rest := (c.left_eq hstart).trans hleft
    rw [bind_run, bind_run, accept_of_left hk hleft ht, accept_of_left hk hleft' ht]
    refine hmeets.after ?_ fun hmore => ?_
    · rwa [left_leave]
    · rw [left_leave] at hmore
      rw [hleft, List.length_cons]
      omega
  · have hl' : ¬ Leads kind (left st').head? := by rwa [c.left_eq hstart]
    rw [bind_run, bind_run, accept_of_not_leads hk hl, accept_of_not_leads hk hl']
    exact hother hstart

end Pairs

/-! ## Tokens -/

/-- The tokens that are left are the same for both readers. -/
lemma remaining_pairs : Pairs c need remaining remaining Any :=
  .look id (fun _ => rfl) (fun _ => rfl) fun _ => trivial

/-- Both readers see the same token next, and have seen it then. -/
lemma peek_pairs : Pairs c need peek peek fun found => ∀ t ∈ found, c.Seen t :=
  .look List.head? (fun _ => rfl) (fun _ => rfl) fun hstart _ ht =>
    c.seen hstart (List.mem_of_mem_head? ht)

/-- Both readers see the same kind of token next. -/
lemma peekKind_pairs : Pairs c need peekKind peekKind Any :=
  .look (·.head?.map (·.kind)) (fun _ => rfl) (fun _ => rfl) fun _ => trivial

/-- Both readers are at the end together. -/
lemma atEnd_pairs : Pairs c need atEnd atEnd Any :=
  .look List.isEmpty (fun _ => rfl) (fun _ => rfl) fun _ => trivial

/-- Both readers find the same when they check for a kind. -/
lemma check_pairs (kind : Kind) : Pairs c need (check kind) (check kind) Any :=
  .look (·.head?.any (·.kind.agrees kind)) (check_run kind _) (check_run kind _) fun _ => trivial

/-- Both readers see the same operator next. -/
lemma peekOperator_pairs : Pairs c need peekOperator peekOperator Any := by
  refine peekKind_pairs.bind fun found _ => ?_
  split
  · exact .pure trivial
  · exact .pure trivial

/-- Both readers take the same token. -/
lemma advance_pairs : Pairs c need advance advance Any := by
  intro st st' hstart
  rw [advance, advance, c.left_eq hstart]
  refine .ok trivial (c.moved hstart (List.tail_suffix _)) ?_
  rw [left_leave]
  exact List.tail_suffix _

/-- Both readers accept a kind, or do not. -/
lemma accept_pairs (kind : Kind) : Pairs c need (accept kind) (accept kind) Any := by
  refine (check_pairs kind).bind fun found _ => ?_
  split
  · exact advance_pairs.bind fun _ _ => .pure trivial
  · exact .pure trivial

/-- Both readers take the next token, with one result. -/
lemma Meets.taken {st : σ} {st' : τ} {t : Token} {rest : List Token} (hstart : c.Start st st')
    (hleft : left st = t :: rest) (a : α) :
    Meets c need st Any (.ok a (leave st rest)) (.ok a (leave st' rest)) := by
  have hsuffix : rest <:+ left st := hleft ▸ List.suffix_cons t rest
  refine .ok trivial (c.moved hstart hsuffix) ?_
  rwa [left_leave]

/-- A token of a kind that is required, if both readers may fail for want of it. -/
lemma expect_pairs {kind : Kind} {description : String}
    (hfail : Pairs c need (failExpected (.text description) : ParseOver σ Token)
      (failExpected (.text description)) Any) :
    Pairs c need (expect kind description) (expect kind description) Any := by
  intro st st' hstart
  rw [expect, expect, c.left_eq hstart]
  cases hleft : left st with
  | nil => exact hfail hstart
  | cons t rest =>
    dsimp only
    split
    · exact .taken hstart hleft t
    · exact hfail hstart

/-- A mark that is required, if it is not the brace that ends a block. -/
lemma expectMark_pairs {m : Mark} (hm : m.quoted ≠ Mark.rightBrace.quoted) :
    Pairs c need (expectMark m) (expectMark m) Any :=
  (expect_pairs (.failExpected fun h => hm (Expectation.text.inj h))).map

/-- A name that is required. -/
lemma expectIdentifier_pairs : Pairs c need expectIdentifier expectIdentifier Any := by
  intro st st' hstart
  have hfail : Meets c need st Any (failExpected .identifier c.slice st)
      (failExpected .identifier c.slice' st' : EStateM.Result ParseError τ String) :=
    Pairs.failExpected (by decide) hstart
  rw [expectIdentifier, expectIdentifier, c.left_eq hstart]
  cases hleft : left st with
  | nil => exact hfail
  | cons t rest =>
    obtain ⟨kind, lexeme, span⟩ := t
    cases kind with
    | identifier name => exact .taken hstart hleft name
    | _ => exact hfail

/-- A number that is required. -/
lemma expectNumber_pairs : Pairs c need expectNumber expectNumber Any := by
  intro st st' hstart
  have hfail : Meets c need st Any (failExpected .number c.slice st)
      (failExpected .number c.slice' st' : EStateM.Result ParseError τ Float) :=
    Pairs.failExpected (by decide) hstart
  rw [expectNumber, expectNumber, c.left_eq hstart]
  cases hleft : left st with
  | nil => exact hfail
  | cons t rest =>
    obtain ⟨kind, lexeme, span⟩ := t
    cases kind with
    | number value => exact .taken hstart hleft value
    | _ => exact hfail

/-- An operator that is required. -/
lemma expectOperator_pairs : Pairs c need expectOperator expectOperator Any := by
  intro st st' hstart
  have hfail : Meets c need st Any (failExpected .operator c.slice st)
      (failExpected .operator c.slice' st' : EStateM.Result ParseError τ Operator) :=
    Pairs.failExpected (by decide) hstart
  rw [expectOperator, expectOperator, c.left_eq hstart]
  cases hleft : left st with
  | nil => exact hfail
  | cons t rest =>
    obtain ⟨kind, lexeme, span⟩ := t
    cases kind with
    | operator op => exact .taken hstart hleft op
    | _ => exact hfail

/-- The error that an expression is missing is the same for both readers. -/
lemma expectedExpression_pairs : Pairs c need expectedExpression expectedExpression Any := by
  refine .look (fun tokens => .expected .expression (c.slice.sight tokens)) (fun _ => rfl) ?_
    fun _ => trivial
  intro st'
  rw [expectedExpression, c.sight_eq]

/-! ## Expressions -/

section Expressions

variable {operand expression : ParseOver σ Node} {operand' expression' : ParseOver τ Node}

/-- The two loops of precedence climbing, with the same bound for both readers. -/
lemma climb_absorb_pairs (h : Pairs c need operand operand' Any) (fuel : Nat) :
    (∀ least left, Pairs c need (climb operand fuel least left) (climb operand' fuel least left)
      Any) ∧
    ∀ precedence right, Pairs c need (absorb operand fuel precedence right)
      (absorb operand' fuel precedence right) Any := by
  induction fuel with
  | zero =>
    constructor
    · intro least left
      rw [climb, climb]
      exact .pure trivial
    · intro precedence right
      rw [absorb, absorb]
      exact .pure trivial
  | succ fuel ih =>
    constructor
    · intro least left
      rw [climb, climb]
      refine peekOperator_pairs.bind fun found _ => ?_
      cases found with
      | none => exact .pure trivial
      | some next =>
        dsimp only
        split
        · refine expectOperator_pairs.bind fun op _ => h.bind fun right _ => ?_
          exact (ih.2 _ right).bind fun right _ => ih.1 least _
        · exact .pure trivial
    · intro precedence right
      rw [absorb, absorb]
      refine peekOperator_pairs.bind fun found _ => ?_
      cases found with
      | none => exact .pure trivial
      | some next =>
        dsimp only
        split
        · exact (ih.1 _ right).bind fun right _ => ih.2 precedence right
        · exact .pure trivial

/-- **Expressions**, from their operands. -/
theorem climbing_pairs (h : Pairs c need operand operand' Any) :
    Pairs c need (climbing operand) (climbing operand') Any :=
  h.bind fun first _ => remaining_pairs.bind fun _ _ => (climb_absorb_pairs h _).1 0 first

/-- One operand, if what stands in parentheses needs one token less. -/
theorem operand_pairs {group : ParseOver σ Node} {group' : ParseOver τ Node}
    {arguments : ParseOver σ (List Node)} {arguments' : ParseOver τ (List Node)}
    (hgroup : ∀ {st st' l rest}, c.Start st st' → left st = l :: rest →
      l.kind = .mark .leftParen →
        Meets c (need + 1) st Any (group c.slice st) (group' c.slice' st'))
    (harguments : Pairs c need arguments arguments' Any) :
    Pairs c (need + 1) (Parse.operand group arguments) (Parse.operand group' arguments') Any := by
  intro st st' hstart
  have hwanted : Meets c (need + 1) st Any (failExpected .expression c.slice st)
      (failExpected .expression c.slice' st' : EStateM.Result ParseError τ Node) :=
    Pairs.failExpected (by decide) hstart
  rw [Parse.operand, Parse.operand, bind_run, bind_run]
  simp only [peekKind, c.left_eq hstart]
  cases hleft : left st with
  | nil => exact hwanted
  | cons t rest =>
    simp only [List.head?_cons, Option.map_some]
    cases hkind : t.kind with
    | number value => exact expectNumber_pairs.map hstart
    | identifier id =>
      refine Pairs.bind expectIdentifier_pairs (fun name _ => ?_) hstart
      exact .ite_accept (Kind.exact_mark _) harguments.map (Nat.le_refl _) (.pure trivial)
    | mark m =>
      cases m with
      | leftParen => exact hgroup hstart hleft hkind
      | _ => exact hwanted
    | _ => exact hwanted

/-! ## Lists -/

/-- An entry of a list starts with a token that the readers have seen. -/
lemma entry_pairs (h : Pairs c need expression expression' Any) :
    Pairs c need (entry expression) (entry expression') fun found => c.Seen found.first := by
  refine peek_pairs.bind fun found hfound => ?_
  cases found with
  | none => exact .failExpected (by decide)
  | some first => exact h.bind fun node _ => .pure (hfound first rfl)

/-- A rule that wants an expression where a closing parenthesis comes next. -/
def WantsAtClose (expression : ParseOver σ Node) : Prop :=
  ∀ (s : Slice) {st : σ} {r : Token} {rest : List Token}, left st = r :: rest →
    r.kind = .mark .rightParen → expression s st = failExpected .expression s st

/-- No operand starts with a closing parenthesis, so an expression is wanted there. -/
lemma wantsAtClose_climbing (group : ParseOver σ Node) (arguments : ParseOver σ (List Node)) :
    WantsAtClose (climbing (Parse.operand group arguments)) := by
  intro s st r rest hleft hr
  have hoperand : Parse.operand group arguments s st = failExpected .expression s st := by
    rw [Parse.operand, bind_run]
    simp only [peekKind, hleft, List.head?_cons, Option.map_some, hr]
  rw [climbing, bind_run, hoperand]
  rfl

/-- Where a closing parenthesis comes next, an entry fails at once, and takes no token. -/
lemma entry_of_close (hclose : WantsAtClose expression) {st : σ} {r : Token} {rest : List Token}
    (hleft : left st = r :: rest) (hr : r.kind = .mark .rightParen) (s : Slice) :
    entry expression s st = failExpected .expression s st := by
  rw [entry, bind_run]
  simp only [peek, hleft, List.head?_cons]
  rw [bind_run, hclose s hleft hr]
  rfl

/-- An entry that is cut off does not start with a closing parenthesis. -/
private lemma not_leads_of_entry_tooDeep (hclose : WantsAtClose expression) {s : Slice}
    {limit : Nat}
    {span : Option Span} {st failed : σ}
    (h : entry expression s st = .error (.nestingTooDeep limit span) failed) :
    ¬ Leads (.mark .rightParen) (left st).head? := by
  intro hl
  obtain ⟨r, rest, hleft, hr⟩ := hl.exists_cons
  rw [entry_of_close hclose hleft hr] at h
  cases h

/-- **The entries of a list.**

**Proof sketch.** An entry that cannot be read ends the list if the closing parenthesis comes next,
and its failure is passed on otherwise.  Both readers see the same token next.  If the first reader
was cut off, that token is not the closing parenthesis, and so the cut is passed on. -/
lemma entries_pairs (hclose : c.Cuts → WantsAtClose expression)
    (h : Pairs c need expression expression' Any) :
    ∀ count, Pairs c need (entries expression count) (entries expression' count)
      fun found => ∀ entry ∈ found, c.Seen entry.first
  | 0 => .pure (List.forall_mem_nil _)
  | count + 1 => by
    refine .ite_accept (Kind.exact_mark _) ?_ (Nat.le_succ _) (.pure (List.forall_mem_nil _))
    intro st st' hstart
    have hentry := entry_pairs h hstart
    rw [bind_run, bind_run, attempt, attempt, c.left_eq hstart]
    generalize hr : entry expression c.slice st = r,
      entry expression' c.slice' st' = r' at hentry ⊢
    cases hentry with
    | @ok found _ _ hseen hended hleft =>
      have hmore : Pairs c need (do return found :: (← entries expression count))
          (do return found :: (← entries expression' count))
          fun found => ∀ entry ∈ found, c.Seen entry.first :=
        (entries_pairs hclose h count).bind fun others hothers =>
          .pure (List.forall_mem_cons.2 ⟨hseen, hothers⟩)
      exact (hmore hended).later hleft
    | @error e failed failed' hfails hleft =>
      -- both go back to the tokens after the comma, and both look for the closing parenthesis
      obtain ⟨hback, hagain⟩ := c.back hstart hfails
      have hrest : left (leave failed (left st)) <:+ left st :=
        ⟨[], left_leave failed (left st)⟩
      dsimp only
      rw [bind_run, bind_run, check_run, check_run, left_leave, left_leave]
      cases (left st).head?.any (·.kind.agrees (.mark .rightParen)) with
      | true => exact .ok (List.forall_mem_nil _) hback hrest
      | false => exact .error hagain hrest
    | @cut span failed _ hcut hneed hleft =>
      -- the second reader may have read the entry, but the first one passes its failure on
      have hnot : (left st).head?.any (·.kind.agrees (.mark .rightParen)) = false := by
        rw [← Bool.not_eq_true, any_agrees_iff (Kind.exact_mark _)]
        exact not_leads_of_entry_tooDeep (hclose hcut) hr
      dsimp only
      rw [bind_run, check_run, left_leave]
      simp only [hnot]
      exact .cut hcut hneed ⟨[], left_leave failed (left st)⟩

/-- **Lists**, up to the closing parenthesis. -/
theorem commaList_pairs (hclose : c.Cuts → WantsAtClose expression)
    (h : Pairs c need expression expression' Any) :
    Pairs c need (commaList expression) (commaList expression')
      fun found => ∀ entry ∈ found, c.Seen entry.first := by
  refine (check_pairs _).bind fun closed _ => ?_
  split
  · exact .pure (List.forall_mem_nil _)
  · refine (entry_pairs h).bind fun first hfirst => remaining_pairs.bind fun tokens _ => ?_
    refine (entries_pairs hclose h tokens.length).bind fun others hothers => .pure ?_
    exact List.forall_mem_cons.2 ⟨hfirst, hothers⟩

/-- The arguments of a call, from the list of them. -/
lemma arguments_pairs {list : ParseOver σ (List Entry)} {list' : ParseOver τ (List Entry)}
    {good : List Entry → Prop} (h : Pairs c need list list' good) :
    Pairs c need (arguments list) (arguments list') Any :=
  h.bind fun _ _ => (expectMark_pairs (by decide)).map

/-- An expression in parentheses. -/
lemma parenthesized_pairs (h : Pairs c need expression expression' Any) :
    Pairs c need (parenthesized expression) (parenthesized expression') Any := by
  refine advance_pairs.bind fun _ _ => h.bind fun inner _ => ?_
  exact (expectMark_pairs (by decide)).map

/-- An expression in parentheses, if the one that stands there needs one token less. -/
lemma parenthesized_meets (h : Pairs c need expression expression' Any) {st : σ} {st' : τ}
    {l : Token} {rest : List Token} (hstart : c.Start st st') (hleft : left st = l :: rest) :
    Meets c (need + 1) st Any (parenthesized expression c.slice st)
      (parenthesized expression' c.slice' st') := by
  have hsuffix : rest <:+ left st := hleft ▸ List.suffix_cons l rest
  have hinner := h.bind (fun inner _ =>
    (expectMark_pairs (m := .rightParen) (by decide)).bind fun _ _ => .pure (a := inner) trivial)
    (c.moved hstart hsuffix)
  rw [parenthesized, parenthesized, bind_run, bind_run]
  simp only [advance, c.left_eq hstart, hleft, List.tail_cons]
  refine hinner.after ?_ fun hneed => ?_
  · rwa [left_leave]
  · rw [left_leave] at hneed
    rw [hleft, List.length_cons]
    omega

end Expressions

/-! ## Statements -/

section Statements

variable {expression : ParseOver σ Node} {expression' : ParseOver τ Node}
  {list : ParseOver σ (List Entry)} {list' : ParseOver τ (List Entry)}
  {block : ParseOver σ Block} {block' : ParseOver τ Block}

/-- A declaration, after its reserved word. -/
private lemma declaration_pairs (he : Pairs c need expression expression' Any) :
    Pairs c need (declaration expression) (declaration expression') Any := by
  refine expectIdentifier_pairs.bind fun name _ => ?_
  exact (expectMark_pairs (by decide)).bind fun _ _ => he.map

/-- A function definition, after its reserved word.  An entry that is no parameter is reported at
its first token, which the readers have seen. -/
private lemma definition_pairs
    (hlist : Pairs c need list list' fun found => ∀ entry ∈ found, c.Seen entry.first)
    (hb : Pairs c need block block' Any) :
    Pairs c need (definition list block) (definition list' block') Any := by
  refine expectIdentifier_pairs.bind fun name _ => ?_
  refine (expectMark_pairs (by decide)).bind fun _ _ => ?_
  refine hlist.bind fun entries hentries => ?_
  cases hparams : paramNames entries with
  | error e =>
    obtain ⟨before, more, entry, -, rfl, -, rfl⟩ := paramNames_eq_error hparams
    have hentry := hentries entry List.mem_append_cons_self
    exact fun _ _ hstart => .error (c.unnamed hstart hentry) List.suffix_rfl
  | ok params => exact (expectMark_pairs (by decide)).bind fun _ _ => hb.map

/-- A condition with its body. -/
lemma branch_pairs (he : Pairs c need expression expression' Any)
    (hb : Pairs c need block block' Any) :
    Pairs c need (branch expression block) (branch expression' block') Any :=
  he.bind fun _ _ => hb.map

/-- What follows the first arm of a conditional. -/
lemma elseArms_pairs (he : Pairs c need expression expression' Any)
    (hb : Pairs c need block block' Any) :
    ∀ count, Pairs c need (elseArms expression block count) (elseArms expression' block' count) Any
  | 0 => .pure trivial
  | count + 1 => by
    refine .ite_accept (Kind.exact_keyword _) ?_ (Nat.le_succ _) (.pure trivial)
    refine .ite_accept (Kind.exact_keyword _) ?_ (Nat.le_succ _) hb.map
    exact (branch_pairs he hb).bind fun arm _ => (elseArms_pairs he hb count).map

/-- A conditional, after its reserved word. -/
private lemma conditional_pairs (he : Pairs c need expression expression' Any)
    (hb : Pairs c need block block' Any) :
    Pairs c need (conditional expression block) (conditional expression' block') Any := by
  refine (branch_pairs he hb).bind fun first _ => remaining_pairs.bind fun tokens _ => ?_
  exact (elseArms_pairs he hb tokens.length).map

/-- A loop, after its reserved word. -/
lemma loop_pairs (he : Pairs c need expression expression' Any)
    (hb : Pairs c need block block' Any) :
    Pairs c need (loop expression block) (loop expression' block') Any :=
  he.bind fun _ _ => hb.map

/-- **Statements.**  A block stands after a reserved word, so it may need one token less than an
expression. -/
theorem statementWith_pairs (he : Pairs c (need + 1) expression expression' Any)
    (hlist : Pairs c need list list' fun found => ∀ entry ∈ found, c.Seen entry.first)
    (hb : Pairs c need block block' Any) :
    Pairs c (need + 1) (statementWith expression list block)
      (statementWith expression' list' block') Any := by
  have he' : Pairs c need expression expression' Any := he.mono (Nat.le_succ _)
  have hword := Kind.exact_keyword
  refine .ite_accept (hword _) (declaration_pairs he') (Nat.le_refl _) ?_
  refine .ite_accept (hword _) (definition_pairs hlist hb) (Nat.le_refl _) ?_
  refine .ite_accept (hword _) (conditional_pairs he' hb) (Nat.le_refl _) ?_
  refine .ite_accept (hword _) (loop_pairs he' hb) (Nat.le_refl _) ?_
  exact .ite_accept (hword _) (loop_pairs he' hb) (Nat.le_refl _) he

/-- Statements up to the end of the slice, with the same bound for both readers. -/
lemma statements_pairs {statement : ParseOver σ Node} {statement' : ParseOver τ Node}
    (h : Pairs c need statement statement' Any) :
    ∀ count, Pairs c need (statements statement count) (statements statement' count) Any
  | 0 => .pure trivial
  | count + 1 => by
    refine atEnd_pairs.bind fun ended _ => ?_
    split
    · exact .pure trivial
    · exact h.bind fun first _ => (statements_pairs h count).map

/-- **All statements of a slice.** -/
theorem allStatements_pairs {statement : ParseOver σ Node} {statement' : ParseOver τ Node}
    (h : Pairs c need statement statement' Any) :
    Pairs c need (allStatements statement) (allStatements statement') Any :=
  remaining_pairs.bind fun tokens _ => statements_pairs h tokens.length

end Statements

/-! ## Blocks -/

/-- How the pairing for the contents of a block belongs to the one for the slice that the block
stands in: it is for the slice of the contents, may start there, and fails and cuts only where the
other one may. -/
structure Pairing.Enters (c inner : Pairing σ τ) (st : σ) (st' : τ) (found : Enclosed) : Prop where
  slice_eq : inner.slice = ⟨c.slice.limit, found.body.getLast?, some found.closing⟩
  slice_eq' : inner.slice' = ⟨c.slice'.limit, found.body.getLast?, some found.closing⟩
  start : inner.Start (enter st found.body) (enter st' found.body)
  fails : ∀ {failed failed' e}, inner.Fails failed failed' e → c.Fails st st' e
  cuts : inner.Cuts → c.Cuts

/-- **Blocks**, from their contents.

**Proof sketch.** Both readers look for the end of the block among the same tokens.  If there is
none, both say so.  Otherwise both read the contents as a slice of their own, and go on after the
closing brace, or stay after the opening one with the error of the contents. -/
theorem braced_pairs {contents : ParseOver σ Block} {contents' : ParseOver τ Block}
    (hopen : ∀ {st st' l rest}, c.Start st st' → left st = l :: rest → l.kind = .mark .leftBrace →
      enclosed? 0 rest = none → c.Fails (leave st rest) (leave st' rest)
        (.expected (.text Mark.rightBrace.quoted) ⟨none, c.slice.last.map (·.span)⟩))
    (hbody : ∀ {st st' found}, c.Start st st' → enclosed? 0 (left st) = some found →
      ∃ inner : Pairing σ τ, c.Enters inner st st' found ∧
        Pairs inner need contents contents' Any) :
    Pairs c need (braced contents) (braced contents') Any := by
  intro st st' hstart
  by_cases hl : Leads (.mark .leftBrace) (left st).head?
  · obtain ⟨l, rest, hleft, hlk⟩ := hl.exists_cons
    have hleft' : left st' = l :: rest := (c.left_eq hstart).trans hleft
    have hsuffix : rest <:+ left st := hleft ▸ List.suffix_cons l rest
    rw [braced, braced, bind_run, bind_run, expectMark_of_left hleft hlk,
      expectMark_of_left hleft' hlk]
    simp only [enclosed, left_leave]
    cases hfound : enclosed? 0 rest with
    | none =>
      have hfails := hopen hstart hleft hlk hfound
      have hlast : c.slice'.last = c.slice.last := by rw [c.same_slice]
      simp only [hlast]
      exact .error hfails (by rwa [left_leave])
    | some found =>
      obtain ⟨inner, henters, hcontents⟩ := hbody (c.moved hstart hsuffix) (by rwa [left_leave])
      obtain ⟨body, closing, behind⟩ := found
      have hsplit : rest = body ++ closing :: behind := (enclosed?_eq_some hfound).1
      have hmeets := hcontents henters.start
      rw [henters.slice_eq, henters.slice_eq'] at hmeets
      simp only at hmeets ⊢
      generalize contents ⟨c.slice.limit, body.getLast?, some closing⟩ (enter (leave st rest) body)
        = r, contents' ⟨c.slice'.limit, body.getLast?, some closing⟩ (enter (leave st' rest) body)
        = r' at hmeets ⊢
      cases hmeets with
      | ok =>
        have hbehind : behind <:+ left st :=
          (hsplit ▸ (List.suffix_cons closing behind).trans (List.suffix_append body _)).trans
            hsuffix
        rw [leave_leave, leave_leave]
        exact .ok trivial (c.moved hstart hbehind) (by rwa [left_leave])
      | error hfails => exact .error (henters.fails hfails) (by rwa [left_leave])
      | cut hcut hneed =>
        rw [henters.slice_eq]
        refine .cut (henters.cuts hcut) ?_ (by rwa [left_leave])
        rw [left_enter] at hneed
        rw [hleft, hsplit, List.length_cons, List.length_append]
        omega
  · have hl' : ¬ Leads (.mark .leftBrace) (left st').head? := by rwa [c.left_eq hstart]
    have hfail : Meets c need st Any (failExpected (.text Mark.leftBrace.quoted) c.slice st)
        (failExpected (.text Mark.leftBrace.quoted) c.slice' st' : EStateM.Result _ τ Block) :=
      Pairs.failExpected (by decide) hstart
    rw [braced, braced, bind_run, bind_run, expectMark_of_not_leads hl, expectMark_of_not_leads hl']
    exact hfail

/-! ## One reader -/

/-- A reader beside itself. -/
def alone (s : Slice) : Pairing σ σ where
  slice := s
  slice' := s
  Start st st' := st = st'
  Fails failed failed' _ := failed = failed'
  Seen _ := True
  Cuts := False
  same_slice := rfl
  left_eq h := congrArg left h.symm
  moved h _ := congrArg (leave · _) h
  seen _ _ := trivial
  expected h _ := h
  unnamed h _ := h
  back _ h := ⟨congrArg (leave · _) h, congrArg (leave · _) h⟩

/-- A reader that keeps to a pairing with some other one, from whatever state it starts, keeps to
the pairing with itself. -/
lemma Pairs.alone_of {s : Slice} {rule : ParseOver σ α}
    (h : ∀ st : σ, ∃ (c : Pairing σ τ) (need : Nat) (rule' : ParseOver τ α) (st' : τ),
      c.slice = s ∧ c.Start st st' ∧ Pairs c need rule rule' Any) :
    Pairs (alone s) 0 rule rule Any := by
  rintro st _ rfl
  obtain ⟨c, need, rule', st', rfl, hstart, hpairs⟩ := h st
  have hmeets := hpairs hstart
  rw [alone]
  generalize rule c.slice st = r, rule' c.slice' st' = r' at hmeets ⊢
  cases hmeets with
  | ok _ _ hleft => exact .ok trivial rfl hleft
  | error _ hleft => exact .error rfl hleft
  | cut _ _ hleft => exact .error rfl hleft

/-- A rule that, where it succeeds, leaves no more tokens than there were. -/
def Shrinks (rule : ParseOver σ α) : Prop :=
  ∀ ⦃s : Slice⦄ ⦃st ended : σ⦄ ⦃a : α⦄, rule s st = .ok a ended →
    (left ended).length ≤ (left st).length

/-- A rule gives no tokens back if it keeps to the pairing of a reader with itself. -/
lemma Shrinks.of_alone {rule : ParseOver σ α} (h : ∀ s, Pairs (alone s) 0 rule rule Any) :
    Shrinks rule := by
  intro s st ended a hread
  have hmeets : Meets (alone s) 0 st Any (rule s st) (rule s st) := h s rfl
  rw [hread] at hmeets
  cases hmeets with
  | ok _ _ hleft => exact hleft.length_le

end Parse

end Abacus
