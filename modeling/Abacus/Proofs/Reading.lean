import Mathlib.Tactic.Common
import Abacus.Proofs.Grammar

/-!
# How rules read

What the building blocks of rules do to the tokens that are left: when one succeeds, with which
result, and what it leaves.  Rules that are put together from them are taken apart with
`Abacus.Parse.bind_eq_ok_iff` and run forward with `Abacus.Parse.bind_run`.

The plainest kind of state is a list of tokens, with nothing else in it.  Rules over such states are
called plain; most of what is said about reading is said about them.

## Main definitions

* `Abacus.Plain` — rules whose state is the list of the tokens that are left.

## Main results

* `Abacus.Parse.bind_run`, `bind_eq_ok_iff`, `bind_eq_error_iff` — one rule after the other.
* `Abacus.Parse.accept_eq_ok`, `accept_of_leads`, `accept_of_not_leads` — optional tokens.
* `Abacus.Parse.expectMark_eq_ok_iff`, `expectIdentifier_eq_ok_iff` — required tokens.
* `Abacus.Parse.paramNames_eq_ok`, `paramNames_eq_error` — the names of parameters.
-/

namespace Abacus

/-! ## Kinds that are compared by equality -/

/-- A kind that only itself agrees with.  Numbers are not of this sort. -/
def Kind.Exact (kind : Kind) : Prop := ∀ found : Kind, found.agrees kind = true ↔ found = kind

/-- Marks are compared by equality. -/
lemma Kind.exact_mark (m : Mark) : (Kind.mark m).Exact := by
  intro found
  cases found <;> simp [Kind.agrees]

/-- Reserved words are compared by equality. -/
lemma Kind.exact_keyword (word : Keyword) : (Kind.keyword word).Exact := by
  intro found
  cases found <;> simp [Kind.agrees]

namespace Grammar

/-- A token leads if it is of the kind. -/
lemma leads_some_iff {kind : Kind} {t : Token} : Leads kind (some t) ↔ t.kind = kind := by
  simp [Leads]

/-- At the end of the tokens no kind leads. -/
lemma not_leads_none (kind : Kind) : ¬ Leads kind none := by
  simp [Leads]

/-- A token of another kind does not lead. -/
lemma not_leads_of_ne {kind : Kind} {t : Token} (h : t.kind ≠ kind) : ¬ Leads kind (some t) :=
  fun hlead => h (leads_some_iff.1 hlead)

/-- Where a kind leads, there is a token of that kind. -/
lemma Leads.exists_cons {kind : Kind} {tokens : List Token} (h : Leads kind tokens.head?) :
    ∃ t rest, tokens = t :: rest ∧ t.kind = kind := by
  cases tokens with
  | nil => exact absurd h (not_leads_none _)
  | cons t rest => exact ⟨t, rest, rfl, leads_some_iff.1 h⟩

/-- The kind of the next token leads. -/
lemma leads_of_eq_cons {kind : Kind} {tokens rest : List Token} {t : Token}
    (h : tokens = t :: rest) (ht : t.kind = kind) : Leads kind tokens.head? := by
  rw [h]
  exact leads_some_iff.2 ht

/-- Where no tokens are left, no kind leads. -/
lemma not_leads_of_eq_nil {tokens : List Token} (h : tokens = []) (kind : Kind) :
    ¬ Leads kind tokens.head? := by
  rw [h]
  exact not_leads_none kind

/-- What comes after two stretches of tokens comes after the second of them. -/
lemma following_append (tokens more : List Token) (next : Option Token) :
    following (tokens ++ more) next = following tokens (following more next) := by
  cases tokens <;> rfl

end Grammar

open Grammar

namespace Parse

open Reading

/-! ## One rule after the other -/

section Bind

variable {σ α β : Type} {s : Slice} {st ended : σ}

/-- Two rules run one after the other, unless the first fails. -/
theorem bind_run (rule : ParseOver σ α) (next : α → ParseOver σ β) (s : Slice) (st : σ) :
    (rule >>= next) s st =
      match rule s st with
      | .ok a middle => next a s middle
      | .error e middle => .error e middle := by
  change EStateM.bind (rule s) (fun a => next a s) st = _
  unfold EStateM.bind
  cases rule s st <;> rfl

/-- What follows two rules with one result is the same, wherever they start. -/
lemma bind_congr_left {rule rule' : ParseOver σ α} {st' : σ} (h : rule s st = rule' s st')
    (next : α → ParseOver σ β) : (rule >>= next) s st = (rule' >>= next) s st' := by
  rw [bind_run, bind_run, h]

/-- What follows a rule matters only where the rule leaves off. -/
lemma bind_congr_right {rule : ParseOver σ α} {next next' : α → ParseOver σ β}
    (h : ∀ a middle, rule s st = .ok a middle → next a s middle = next' a s middle) :
    (rule >>= next) s st = (rule >>= next') s st := by
  rw [bind_run, bind_run]
  cases hrule : rule s st with
  | ok a middle => exact h a middle hrule
  | error e middle => rfl

/-- A result is given without reading. -/
lemma pure_run (a : α) (s : Slice) (st : σ) : (pure a : ParseOver σ α) s st = .ok a st := rfl

/-- Two rules succeed one after the other if the second succeeds on what the first leaves. -/
theorem bind_eq_ok_iff {rule : ParseOver σ α} {next : α → ParseOver σ β} {b : β} :
    (rule >>= next) s st = .ok b ended ↔
      ∃ a middle, rule s st = .ok a middle ∧ next a s middle = .ok b ended := by
  rw [bind_run]
  constructor
  · intro h
    cases hr : rule s st with
    | ok a middle => rw [hr] at h; exact ⟨a, middle, rfl, h⟩
    | error e middle => rw [hr] at h; cases h
  · rintro ⟨a, middle, hr, h⟩
    rw [hr]
    exact h

/-- Two rules fail one after the other if the first fails, or the second fails on what the first
leaves. -/
theorem bind_eq_error_iff {rule : ParseOver σ α} {next : α → ParseOver σ β} {e : ParseError} :
    (rule >>= next) s st = .error e ended ↔ rule s st = .error e ended ∨
      ∃ a middle, rule s st = .ok a middle ∧ next a s middle = .error e ended := by
  rw [bind_run]
  cases rule s st with
  | ok a middle => simp
  | error e' middle => simp

/-- Giving a result does not fail. -/
lemma pure_ne_error {a : α} {e : ParseError} :
    (pure a : ParseOver σ α) s st ≠ .error e ended := by
  rw [pure_run]
  simp

/-- A rule that ends with a result fails where the rule before that does. -/
lemma error_of_bind_pure {rule : ParseOver σ α} {result : α → β} {e : ParseError}
    (h : (rule >>= fun a => pure (result a)) s st = .error e ended) :
    rule s st = .error e ended := by
  rcases bind_eq_error_iff.1 h with hrule | ⟨a, middle, -, hdone⟩
  · exact hrule
  · exact absurd hdone pure_ne_error

/-- Giving a result leaves the state as it is. -/
lemma pure_eq_ok_iff {a b : α} :
    (pure a : ParseOver σ α) s st = .ok b ended ↔ a = b ∧ st = ended := by
  rw [pure_run]
  simp

end Bind

/-! ## Tokens in any kind of state -/

section Tokens

variable {σ : Type} [Reading σ] {s : Slice} {st : σ}

/-- Looking for a kind finds it exactly if the next token is of that kind. -/
lemma any_agrees_iff {kind : Kind} (hk : kind.Exact) (next : Option Token) :
    next.any (·.kind.agrees kind) = true ↔ Leads kind next := by
  cases next with
  | none => simp [Leads]
  | some t => simpa [Leads] using hk t.kind

/-- Checking for a kind looks at the next token. -/
lemma check_run (kind : Kind) (s : Slice) (st : σ) :
    check kind s st = .ok ((left st).head?.any (·.kind.agrees kind)) st := by
  rw [check, bind_run]
  simp only [peekKind]
  cases left st <;> rfl

/-- A token of the kind that is looked for is taken. -/
lemma accept_of_left {kind : Kind} (hk : kind.Exact) {t : Token} {rest : List Token}
    (h : left st = t :: rest) (ht : t.kind = kind) (s : Slice) :
    accept kind s st = .ok true (leave st rest) := by
  have hfound : (some t).any (·.kind.agrees kind) = true :=
    (any_agrees_iff hk _).2 (leads_some_iff.2 ht)
  rw [accept, bind_run, check_run, h]
  simp only [List.head?_cons, hfound, if_true]
  rw [bind_run, advance, h]
  rfl

/-- Where the kind that is looked for does not come next, nothing is taken. -/
theorem accept_of_not_leads {kind : Kind} (hk : kind.Exact) (h : ¬ Leads kind (left st).head?)
    (s : Slice) : accept kind s st = .ok false st := by
  have hnone : (left st).head?.any (·.kind.agrees kind) = false := by
    rw [← Bool.not_eq_true, any_agrees_iff hk]
    exact h
  rw [accept, bind_run, check_run]
  simp only [hnone, Bool.false_eq_true, if_false]
  rfl

/-- An operator that comes next is found, and left in place. -/
lemma peekOperator_of_leads {op : Operator} (h : Leads (.operator op) (left st).head?) (s : Slice) :
    peekOperator s st = .ok (some op) st := by
  rw [peekOperator, bind_run]
  simp only [peekKind]
  rw [show (left st).head?.map (·.kind) = _ from h]
  rfl

/-- Where no operator comes next, none is found. -/
lemma peekOperator_of_not_leads (h : ∀ op, ¬ Leads (.operator op) (left st).head?) (s : Slice) :
    peekOperator s st = .ok none st := by
  rw [peekOperator, bind_run]
  simp only [peekKind]
  cases hk : (left st).head?.map (·.kind) with
  | none => rfl
  | some kind =>
    cases kind with
    | operator op => exact absurd hk (h op)
    | _ => rfl

/-- A required mark that comes next is taken. -/
lemma expectMark_of_left {m : Mark} {t : Token} {rest : List Token} (h : left st = t :: rest)
    (ht : t.kind = .mark m) (s : Slice) : expectMark m s st = .ok () (leave st rest) := by
  have hagrees : t.kind.agrees (.mark m) = true := (Kind.exact_mark m _).2 ht
  rw [expectMark, bind_run, expect, h]
  simp only [hagrees, if_true]
  rfl

/-- Where a required mark does not come next, it is wanted there. -/
lemma expectMark_of_not_leads {m : Mark} (h : ¬ Leads (.mark m) (left st).head?) (s : Slice) :
    expectMark m s st = failExpected (.text m.quoted) s st := by
  rw [expectMark, bind_run, expect]
  cases hleft : left st with
  | nil => rfl
  | cons t rest =>
    have hagrees : t.kind.agrees (.mark m) = false := by
      rw [← Bool.not_eq_true, Kind.exact_mark m, ← leads_some_iff]
      rwa [hleft] at h
    simp only [hagrees]
    rfl

/-- An operator that comes next is taken. -/
lemma expectOperator_of_left {t : Token} {rest : List Token} {op : Operator}
    (h : left st = t :: rest) (ht : t.kind = .operator op) (s : Slice) :
    expectOperator s st = .ok op (leave st rest) := by
  obtain ⟨kind, lexeme, span⟩ := t
  obtain rfl : kind = .operator op := ht
  rw [expectOperator, h]

end Tokens

end Parse

/-! ## Lists of tokens as states -/

instance : Reading (List Token) where
  left tokens := tokens
  leave _ tokens := tokens
  enter _ tokens := tokens
  left_leave _ _ := rfl
  leave_left _ := rfl
  leave_leave _ _ _ := rfl
  left_enter _ _ := rfl

/-- A rule that keeps nothing but the tokens that are left. -/
abbrev Plain := ParseOver (List Token)

namespace Reading

/-- All tokens of a list are left. -/
@[simp]
lemma left_list (tokens : List Token) : left tokens = tokens := rfl

/-- A list is replaced by the tokens that are to be left. -/
@[simp]
lemma leave_list (st tokens : List Token) : leave st tokens = tokens := rfl

/-- The contents of a block are read from their own list. -/
@[simp]
lemma enter_list (st tokens : List Token) : enter st tokens = tokens := rfl

end Reading

namespace Parse

open Reading

variable {α β : Type} {s : Slice} {tokens rest : List Token}

/-- A token of the kind that is looked for is taken from a list. -/
theorem accept_of_leads {kind : Kind} (hk : kind.Exact) {t : Token} (ht : t.kind = kind)
    (s : Slice) (rest : List Token) : accept kind s (t :: rest) = .ok true rest :=
  accept_of_left hk rfl ht s

/-- Accepting a kind takes a token of that kind, or finds none and takes nothing. -/
theorem accept_eq_ok {kind : Kind} (hk : kind.Exact) {found : Bool}
    (h : accept kind s tokens = .ok found rest) :
    (found = true ∧ ∃ t, t.kind = kind ∧ tokens = t :: rest) ∨
      (found = false ∧ tokens = rest ∧ ¬ Leads kind rest.head?) := by
  by_cases hl : Leads kind tokens.head?
  · left
    obtain ⟨t, more, rfl, ht⟩ := hl.exists_cons
    rw [accept_of_leads hk ht] at h
    cases h
    exact ⟨rfl, t, ht, rfl⟩
  · right
    rw [accept_of_not_leads hk hl] at h
    cases h
    exact ⟨rfl, rfl, hl⟩

/-- A rule that looks for a kind first fails after the token of that kind, or where there is
none. -/
lemma error_of_bind_accept {kind : Kind} (hk : kind.Exact) {next : Bool → Plain β}
    {e : ParseError} (h : (accept kind >>= next) s tokens = .error e rest) :
    (∃ t more, t.kind = kind ∧ tokens = t :: more ∧ next true s more = .error e rest) ∨
      (¬ Leads kind tokens.head? ∧ next false s tokens = .error e rest) := by
  by_cases hl : Leads kind tokens.head?
  · obtain ⟨t, more, rfl, ht⟩ := hl.exists_cons
    rw [bind_run, accept_of_leads hk ht] at h
    exact .inl ⟨t, more, ht, rfl, h⟩
  · rw [bind_run, accept_of_not_leads hk hl] at h
    exact .inr ⟨hl, h⟩

/-! ## Required tokens -/

/-- A rule that takes one token, of a kind that carries the result, succeeds exactly if such a
token comes next. -/
lemma takes_iff (make : α → Kind) {rule : Plain α} {a : α}
    (htake : ∀ a lexeme span rest, rule s (⟨make a, lexeme, span⟩ :: rest) = .ok a rest)
    (hfail : ∀ tokens, (∀ a, ¬ Leads (make a) tokens.head?) →
      ∃ e left, rule s tokens = .error e left) :
    rule s tokens = .ok a rest ↔ ∃ t, t.kind = make a ∧ tokens = t :: rest := by
  constructor
  · intro h
    by_cases hl : ∃ b, Leads (make b) tokens.head?
    · obtain ⟨b, hb⟩ := hl
      cases tokens with
      | nil => exact absurd hb (not_leads_none _)
      | cons t more =>
        obtain ⟨kind, lexeme, span⟩ := t
        obtain rfl : kind = make b := leads_some_iff.1 hb
        rw [htake] at h
        cases h
        exact ⟨_, rfl, rfl⟩
    · obtain ⟨e, left, he⟩ := hfail tokens (not_exists.1 hl)
      rw [he] at h
      cases h
  · rintro ⟨⟨kind, lexeme, span⟩, rfl, rfl⟩
    exact htake a lexeme span rest

/-- A required mark is taken exactly if it comes next. -/
theorem expectMark_eq_ok_iff {m : Mark} {u : Unit} :
    expectMark m s tokens = .ok u rest ↔ ∃ t, t.kind = .mark m ∧ tokens = t :: rest := by
  apply takes_iff (fun _ => .mark m)
  · exact fun _ _ _ _ => expectMark_of_left rfl rfl s
  · exact fun tokens h => ⟨_, _, expectMark_of_not_leads (h ()) s⟩

/-- Where a required mark does not come, the error says so. -/
lemma expectMark_eq_error {m : Mark} {e : ParseError}
    (h : expectMark m s tokens = .error e rest) :
    e = .expected (.text m.quoted) (s.sight tokens) := by
  by_cases hl : Leads (.mark m) tokens.head?
  · obtain ⟨t, more, rfl, ht⟩ := hl.exists_cons
    rw [expectMark_of_left rfl ht] at h
    cases h
  · rw [expectMark_of_not_leads hl] at h
    cases h
    rfl

/-- Where a required name does not come, it is wanted there. -/
lemma expectIdentifier_eq_error {e : ParseError}
    (h : expectIdentifier s tokens = .error e rest) :
    e = .expected .identifier (s.sight tokens) := by
  unfold expectIdentifier at h
  split at h
  · cases h
  · cases h
    rfl

/-- A required name is taken exactly if a name comes next. -/
theorem expectIdentifier_eq_ok_iff {id : String} :
    expectIdentifier s tokens = .ok id rest ↔
      ∃ t, t.kind = .identifier id ∧ tokens = t :: rest := by
  apply takes_iff .identifier (fun _ _ _ _ => rfl)
  intro tokens h
  unfold expectIdentifier
  rw [left_list]
  split
  · exact absurd rfl (h _)
  · exact ⟨_, _, rfl⟩

/-- A required number is taken exactly if a number comes next. -/
lemma expectNumber_eq_ok_iff {value : Float} :
    expectNumber s tokens = .ok value rest ↔
      ∃ t, t.kind = .number value ∧ tokens = t :: rest := by
  apply takes_iff .number (fun _ _ _ _ => rfl)
  intro tokens h
  unfold expectNumber
  rw [left_list]
  split
  · exact absurd rfl (h _)
  · exact ⟨_, _, rfl⟩

/-! ## Parameters -/

/-- Entries that all are plain names have trees that are those names. -/
theorem paramNames_eq_ok {entries : List Entry} : ∀ {params : List String},
    paramNames entries = .ok params → entries.map (·.node) = params.map .name := by
  induction entries with
  | nil =>
    intro params h
    cases h
    rfl
  | cons e entries ih =>
    intro params h
    obtain ⟨node, first⟩ := e
    cases node with
    | name id =>
      cases hrest : paramNames entries with
      | error e =>
        simp only [paramNames, hrest] at h
        cases h
      | ok others =>
        simp only [paramNames, hrest] at h
        cases h
        rw [List.map_cons, List.map_cons, ih hrest]
    | _ => cases h

/-- Plain names are the names of parameters. -/
lemma paramNames_of_map_eq {params : List String} : ∀ {entries : List Entry},
    entries.map (·.node) = params.map .name → paramNames entries = .ok params := by
  induction params with
  | nil =>
    intro entries h
    rw [List.map_eq_nil_iff.1 h]
    rfl
  | cons id params ih =>
    intro entries h
    obtain ⟨e, others, rfl, hnode, hothers⟩ := List.map_eq_cons_iff.1 h
    obtain ⟨node, first⟩ := e
    cases hnode
    rw [paramNames, ih hothers]
    rfl

/-- Entries that are not all plain names are reported at the first token of one of them, and the
entries before that one are plain names. -/
theorem paramNames_eq_error {entries : List Entry} {e : ParseError}
    (h : paramNames entries = .error e) :
    ∃ (before more : List Entry) (entry : Entry) (params : List String),
      entries = before ++ entry :: more ∧ before.map (·.node) = params.map .name ∧
        e = .expected .identifier ⟨some entry.first.kind.describe, some entry.first.span⟩ := by
  induction entries with
  | nil => cases h
  | cons entry entries ih =>
    obtain ⟨node, first⟩ := entry
    cases node with
    | name id =>
      cases hrest : paramNames entries with
      | error e' =>
        simp only [paramNames, hrest] at h
        cases h
        obtain ⟨before, more, entry, params, rfl, hbefore, he⟩ := ih hrest
        refine ⟨⟨.name id, first⟩ :: before, more, entry, id :: params, rfl, ?_, he⟩
        rw [List.map_cons, List.map_cons, hbefore]
      | ok params =>
        simp only [paramNames, hrest] at h
        cases h
    | _ =>
      cases h
      exact ⟨[], entries, _, [], rfl, rfl, rfl⟩

end Parse

end Abacus
