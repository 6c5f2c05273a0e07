import Mathlib.Tactic.Common
import Abacus.Proofs.Levels

/-!
# Expressions in two layers

The textbook way to read operators of two tiers has a rule for each tier: an expression is a chain
of terms with operators of the looser tier between them, and a term is a chain of values with
operators of the tighter tier.  Each rule folds its chain to the left.

Precedence climbing comes to the same, in every respect: the tree, the error, and the state in which
it ends.  Climbing from above the looser tier reads on in a term.  So does absorbing into the right
operand of an operator of the looser tier, while nothing is absorbed into that of an operator of the
tighter tier.  Climbing from the bottom first reads on in the term at hand and then in the sum.

## Main definitions

* `Abacus.Parse.layer` — a chain with the operators of one tier.
* `Abacus.Parse.term`, `Abacus.Parse.layered` — an expression as a chain of terms, which are chains
  of values.

## Main results

* `Abacus.Parse.layerFrom_cons` — a layer goes on without a bound.
* `Abacus.Parse.climb_term`, `absorb_term`, `climb_layers` — what climbing reads, by the least
  precedence that it starts from.
* `Abacus.Parse.climbing_eq_layered` — climbing is reading in two layers.
* `Abacus.Parse.expression_eq_layered` — so the parser reads expressions as by the two layers.
-/

namespace Abacus

open Grammar

/-- The tighter tier has one precedence. -/
lemma Operator.precedence_of_tight {op : Operator} (h : op.Tight) : op.precedence = 20 := by
  cases op with
  | multiply => rfl
  | divide => rfl
  | _ => exact h.elim

/-- The looser tier has one precedence. -/
lemma Operator.precedence_of_loose {op : Operator} (h : ¬ op.Tight) : op.precedence = 10 := by
  cases op with
  | add => rfl
  | subtract => rfl
  | _ => exact absurd trivial h

namespace Parse

open Reading

variable {σ : Type} [Reading σ] {α : Type}

/-! ## One layer -/

/-- Folds operators of a tier, each with the item after it, onto `left`, at most `count` of them. -/
def foldLayer (tier : List Operator) (item : ParseOver σ Node) (count : Nat) (left : Node) :
    ParseOver σ Node :=
  match count with
  | 0 => return left
  | count + 1 => do
    match ← peekOperator with
    | none => return left
    | some op =>
      if op ∈ tier then
        let _ ← advance
        let right ← item
        foldLayer tier item count (.binary op left right)
      else return left

/-- Goes on with a layer after `left`.  An operator takes up a token, so there are no more operators
than tokens. -/
def layerFrom (tier : List Operator) (item : ParseOver σ Node) (left : Node) :
    ParseOver σ Node := do
  let tokens ← remaining
  foldLayer tier item tokens.length left

/-- A chain of items with operators of a tier between them, folded to the left. -/
def layer (tier : List Operator) (item : ParseOver σ Node) : ParseOver σ Node := do
  let first ← item
  layerFrom tier item first

/-- A term: values with the operators of the tighter tier between them. -/
def term (value : ParseOver σ Node) : ParseOver σ Node := layer [.multiply, .divide] value

/-- An expression: terms with the operators of the looser tier between them. -/
def layered (value : ParseOver σ Node) : ParseOver σ Node := layer [.add, .subtract] (term value)

section Layer

variable {tier : List Operator} {item : ParseOver σ Node} {s : Slice} {st : σ}

/-- A layer ends where no operator of its tier comes next. -/
lemma foldLayer_of_not_leads (h : ∀ op ∈ tier, ¬ Leads (.operator op) (left st).head?) (count : Nat)
    (first : Node) : foldLayer tier item count first s st = .ok first st := by
  cases count with
  | zero => rfl
  | succ count =>
    rw [foldLayer, bind_run]
    by_cases hop : ∃ op, Leads (.operator op) (left st).head?
    · obtain ⟨op, hop⟩ := hop
      have hnot : op ∉ tier := fun hmem => h op hmem hop
      simp [peekOperator_of_leads hop, hnot, pure_run]
    · simp [peekOperator_of_not_leads (not_exists.1 hop), pure_run]

/-- A layer goes on with an operator of its tier and the item after it. -/
lemma foldLayer_of_left {t : Token} {rest : List Token} {op : Operator} (h : left st = t :: rest)
    (ht : t.kind = .operator op) (hop : op ∈ tier) (count : Nat) (first : Node) :
    foldLayer tier item (count + 1) first s st =
      (item >>= fun right => foldLayer tier item count (.binary op first right)) s
        (leave st rest) := by
  rw [foldLayer, bind_run, peekOperator_of_leads (leads_of_eq_cons h ht)]
  simp only [if_pos hop]
  rw [bind_run, advance, h]
  rfl

/-- Either an operator comes that meets a condition, or none does. -/
lemma leads_operator_or_not (P : Operator → Prop) (tokens : List Token) :
    (∃ t rest op, tokens = t :: rest ∧ t.kind = .operator op ∧ P op) ∨
      ∀ op, Leads (.operator op) tokens.head? → ¬ P op := by
  by_cases h : ∃ op, Leads (.operator op) tokens.head? ∧ P op
  · obtain ⟨op, hlead, hop⟩ := h
    obtain ⟨t, rest, htokens, ht⟩ := hlead.exists_cons
    exact .inl ⟨t, rest, op, htokens, ht, hop⟩
  · exact .inr fun op hlead hop => h ⟨op, hlead, hop⟩

/-- Either a layer goes on at the next token or it ends there. -/
lemma leads_tier_or_not (tier : List Operator) (tokens : List Token) :
    (∃ t rest op, tokens = t :: rest ∧ t.kind = .operator op ∧ op ∈ tier) ∨
      ∀ op ∈ tier, ¬ Leads (.operator op) tokens.head? := by
  rcases leads_operator_or_not (· ∈ tier) tokens with hgoes | hends
  · exact .inl hgoes
  · exact .inr fun op hop hlead => hends op hlead hop

/-- A layer gives no tokens back if its items do not. -/
lemma Shrinks.foldLayer (h : Shrinks item) : ∀ (count : Nat) (first : Node),
    Shrinks (foldLayer tier item count first) := by
  intro count
  induction count with
  | zero =>
    intro first s st ended node hread
    obtain ⟨-, rfl⟩ := pure_eq_ok_iff.1 hread
    exact Nat.le_refl _
  | succ count ih =>
    intro first s st ended node hread
    obtain ⟨t, rest, op, hleft, ht, hop⟩ | hends := leads_tier_or_not tier (left st)
    · rw [foldLayer_of_left hleft ht hop] at hread
      obtain ⟨right, middle, hright, hmore⟩ := bind_eq_ok_iff.1 hread
      have hitem := h hright
      have hfold := ih _ hmore
      rw [left_leave] at hitem
      rw [hleft, List.length_cons]
      omega
    · rw [foldLayer_of_not_leads hends] at hread
      cases hread
      exact Nat.le_refl _

/-- **A layer is not cut off**: with as many operators as there are tokens, or more, the bound has
no part in what is read. -/
private lemma foldLayer_of_length_le (h : Shrinks item) : ∀ {count count' : Nat} {st : σ},
    (left st).length ≤ count → (left st).length ≤ count' → ∀ first : Node,
      foldLayer tier item count first s st = foldLayer tier item count' first s st := by
  intro count
  induction count with
  | zero =>
    intro count' st hcount _ first
    have hnil : left st = [] := List.length_eq_zero_iff.1 (Nat.le_zero.1 hcount)
    have hends : ∀ op ∈ tier, ¬ Leads (.operator op) (left st).head? :=
      fun op _ => not_leads_of_eq_nil hnil _
    rw [foldLayer_of_not_leads hends, foldLayer_of_not_leads hends]
  | succ count ih =>
    intro count' st hcount hcount' first
    obtain ⟨t, rest, op, hleft, ht, hop⟩ | hends := leads_tier_or_not tier (left st)
    · simp only [hleft, List.length_cons] at hcount hcount'
      obtain ⟨count', rfl⟩ : ∃ n, count' = n + 1 := ⟨count' - 1, by omega⟩
      rw [foldLayer_of_left hleft ht hop, foldLayer_of_left hleft ht hop]
      refine bind_congr_right fun right middle hright => ?_
      have hshort := h hright
      rw [left_leave] at hshort
      exact ih (by omega) (by omega) _
    · rw [foldLayer_of_not_leads hends, foldLayer_of_not_leads hends]

/-- A layer ends at once where no operator of its tier comes next. -/
lemma layerFrom_of_not_leads (h : ∀ op ∈ tier, ¬ Leads (.operator op) (left st).head?)
    (first : Node) : layerFrom tier item first s st = .ok first st :=
  foldLayer_of_not_leads h _ first

/-- **A layer goes on without a bound**: it takes an operator of its tier and the item after it, and
then goes on in the same way. -/
theorem layerFrom_cons (h : Shrinks item) {t : Token} {rest : List Token} {op : Operator}
    (hleft : left st = t :: rest) (ht : t.kind = .operator op) (hop : op ∈ tier) (first : Node) :
    layerFrom tier item first s st =
      (item >>= fun right => layerFrom tier item (.binary op first right)) s (leave st rest) := by
  have hfold : layerFrom tier item first s st =
      foldLayer tier item (rest.length + 1) first s st := by
    rw [layerFrom, bind_run, remaining, hleft]
    rfl
  rw [hfold, foldLayer_of_left hleft ht hop]
  refine bind_congr_right fun right middle hright => ?_
  have hshort := h hright
  rw [left_leave] at hshort
  exact foldLayer_of_length_le h hshort (Nat.le_refl _) _

/-- A layer that goes on gives no tokens back. -/
lemma Shrinks.layerFrom (h : Shrinks item) (first : Node) : Shrinks (layerFrom tier item first) :=
  fun s st _ _ hread => h.foldLayer (left st).length first (s := s) hread

/-- A whole layer gives no tokens back. -/
lemma Shrinks.layer (h : Shrinks item) : Shrinks (layer tier item) := by
  intro s st ended node hread
  obtain ⟨first, middle, hfirst, hmore⟩ := bind_eq_ok_iff.1 hread
  exact Nat.le_trans (h.layerFrom first hmore) (h hfirst)

/-- Where a layer ends, no operator of its tier comes next. -/
lemma not_leads_of_layerFrom (h : Shrinks item) :
    ∀ {count : Nat} {st ended : σ} {first node : Node}, (left st).length ≤ count →
      layerFrom tier item first s st = .ok node ended →
        ∀ op ∈ tier, ¬ Leads (.operator op) (left ended).head? := by
  intro count
  induction count with
  | zero =>
    intro st ended first node hcount hread
    have hnil : left st = [] := List.length_eq_zero_iff.1 (Nat.le_zero.1 hcount)
    have hends : ∀ op ∈ tier, ¬ Leads (.operator op) (left st).head? :=
      fun op _ => not_leads_of_eq_nil hnil _
    rw [layerFrom_of_not_leads hends] at hread
    cases hread
    exact hends
  | succ count ih =>
    intro st ended first node hcount hread
    obtain ⟨t, rest, op, hleft, ht, hop⟩ | hends := leads_tier_or_not tier (left st)
    · rw [layerFrom_cons h hleft ht hop] at hread
      obtain ⟨right, middle, hright, hmore⟩ := bind_eq_ok_iff.1 hread
      have hshort := h hright
      rw [left_leave] at hshort
      rw [hleft, List.length_cons] at hcount
      exact ih (by omega) hmore
    · rw [layerFrom_of_not_leads hends] at hread
      cases hread
      exact hends

end Layer

/-! ## Steps of climbing -/

section Climb

variable {operand : ParseOver σ Node} {s : Slice} {st : σ} {fuel least precedence : Nat}

/-- Climbing ends where no operator comes next that binds tightly enough. -/
lemma climb_of_not_leads
    (h : ∀ op, Leads (.operator op) (left st).head? → op.precedence < least) (fuel : Nat)
    (first : Node) : climb operand fuel least first s st = .ok first st := by
  cases fuel with
  | zero => rw [climb, pure_run]
  | succ fuel =>
    rw [climb, bind_run]
    by_cases hop : ∃ op, Leads (.operator op) (left st).head?
    · obtain ⟨op, hop⟩ := hop
      simp [peekOperator_of_leads hop, Nat.not_le.2 (h op hop), pure_run]
    · simp [peekOperator_of_not_leads (not_exists.1 hop), pure_run]

/-- Climbing takes an operator that binds tightly enough, its right operand with what is absorbed
into that, and then goes on. -/
lemma climb_of_left {t : Token} {rest : List Token} {op : Operator} (hleft : left st = t :: rest)
    (ht : t.kind = .operator op) (hop : least ≤ op.precedence) (fuel : Nat) (first : Node) :
    climb operand (fuel + 1) least first s st =
      (do
        let right ← operand
        let right ← absorb operand fuel op.precedence right
        climb operand fuel least (.binary op first right) : ParseOver σ Node)
        s (leave st rest) := by
  rw [climb, bind_run, peekOperator_of_leads (leads_of_eq_cons hleft ht)]
  simp only [if_pos hop]
  rw [bind_run, expectOperator_of_left hleft ht]

/-- Nothing is absorbed where no operator comes next that binds tighter. -/
lemma absorb_of_not_leads
    (h : ∀ op, Leads (.operator op) (left st).head? → op.precedence ≤ precedence) (fuel : Nat)
    (right : Node) : absorb operand fuel precedence right s st = .ok right st := by
  cases fuel with
  | zero => rw [absorb, pure_run]
  | succ fuel =>
    rw [absorb, bind_run]
    by_cases hop : ∃ op, Leads (.operator op) (left st).head?
    · obtain ⟨op, hop⟩ := hop
      simp [peekOperator_of_leads hop, Nat.not_lt.2 (h op hop), pure_run]
    · simp [peekOperator_of_not_leads (not_exists.1 hop), pure_run]

/-- Where an operator comes next that binds tighter, climbing from above the given precedence is
what is absorbed, and then what is absorbed after that. -/
lemma absorb_of_leads {op : Operator} (hlead : Leads (.operator op) (left st).head?)
    (hop : precedence < op.precedence) (fuel : Nat) (right : Node) :
    absorb operand (fuel + 1) precedence right s st =
      (climb operand fuel (precedence + 1) right >>= absorb operand fuel precedence) s st := by
  rw [absorb, bind_run, peekOperator_of_leads hlead]
  simp only [if_pos hop]

/-! ## Climbing in layers -/

/-- The operators of the tighter tier. -/
lemma mem_products_iff {op : Operator} : op ∈ [Operator.multiply, .divide] ↔ op.Tight := by
  cases op <;> decide

/-- The operators of the looser tier. -/
lemma mem_sums_iff {op : Operator} : op ∈ [Operator.add, .subtract] ↔ ¬ op.Tight := by
  cases op <;> decide

/-- Nothing binds tighter than the tighter tier. -/
lemma absorb_tight (fuel : Nat) (right : Node) :
    absorb operand fuel 20 right s st = .ok right st := by
  refine absorb_of_not_leads (fun op _ => ?_) fuel right
  cases op <;> decide

/-- **Climbing from above the looser tier** reads on in a term.

**Proof sketch.** Induction on the bound.  An operator of the tighter tier is taken with the value
after it, into which nothing is absorbed; any other one ends the climb and the term. -/
theorem climb_term (h : Shrinks operand) (hleast : 10 < least) (hleast' : least ≤ 20) (fuel : Nat) :
    ∀ {st : σ}, (left st).length ≤ fuel → ∀ first : Node,
      climb operand fuel least first s st = layerFrom [.multiply, .divide] operand first s st := by
  induction fuel with
  | zero =>
    intro st hfuel first
    have hnil : left st = [] := List.length_eq_zero_iff.1 (Nat.le_zero.1 hfuel)
    have hnone : ∀ op, ¬ Leads (.operator op) (left st).head? :=
      fun op => not_leads_of_eq_nil hnil _
    rw [climb_of_not_leads fun op hop => absurd hop (hnone op),
      layerFrom_of_not_leads fun op _ => hnone op]
  | succ fuel ih =>
    intro st hfuel first
    obtain ⟨t, rest, op, hleft, ht, hop⟩ | hends :=
      leads_tier_or_not [.multiply, .divide] (left st)
    · have hprecedence := Operator.precedence_of_tight (mem_products_iff.1 hop)
      rw [hleft, List.length_cons] at hfuel
      rw [climb_of_left hleft ht (by omega), layerFrom_cons h hleft ht hop]
      refine bind_congr_right fun right middle hright => ?_
      have hshort := h hright
      rw [left_leave] at hshort
      rw [hprecedence, bind_run, absorb_tight]
      exact ih (by omega) _
    · have hloose : ∀ op, Leads (.operator op) (left st).head? → op.precedence < least := by
        intro op hlead
        have hop : ¬ op.Tight := fun hop => hends op (mem_products_iff.2 hop) hlead
        rw [Operator.precedence_of_loose hop]
        exact hleast
      rw [climb_of_not_leads hloose, layerFrom_of_not_leads hends]

/-- **Absorbing into the right operand of an operator of the looser tier** reads on in a term.

**Proof sketch.** Where an operator of the tighter tier comes next, climbing reads the term to its
end.  After that no such operator comes, so nothing more is absorbed. -/
theorem absorb_term (h : Shrinks operand) (hfuel : (left st).length < fuel) (right : Node) :
    absorb operand fuel 10 right s st = layerFrom [.multiply, .divide] operand right s st := by
  have hstop : ∀ {st : σ}, (∀ op ∈ [Operator.multiply, .divide],
      ¬ Leads (.operator op) (left st).head?) →
        ∀ op, Leads (.operator op) (left st).head? → op.precedence ≤ 10 := by
    intro st hends op hlead
    have hop : ¬ op.Tight := fun hop => hends op (mem_products_iff.2 hop) hlead
    exact Nat.le_of_eq (Operator.precedence_of_loose hop)
  obtain ⟨fuel, rfl⟩ : ∃ n, fuel = n + 1 := ⟨fuel - 1, by omega⟩
  obtain ⟨t, rest, op, hleft, ht, hop⟩ | hends :=
    leads_tier_or_not [.multiply, .divide] (left st)
  · have hprecedence := Operator.precedence_of_tight (mem_products_iff.1 hop)
    rw [absorb_of_leads (leads_of_eq_cons hleft ht) (by omega), bind_run,
      climb_term h (by omega) (by omega) fuel (by omega)]
    cases hread : layerFrom [.multiply, .divide] operand right s st with
    | error e failed => rfl
    | ok node ended =>
      exact absorb_of_not_leads (hstop (not_leads_of_layerFrom h (Nat.le_refl _) hread)) fuel node
  · rw [absorb_of_not_leads (hstop hends), layerFrom_of_not_leads hends]

/-- **Climbing from the bottom** reads on in the term at hand, and then in the sum.

**Proof sketch.** Induction on the bound.  An operator of the tighter tier extends the term in both
ways of reading.  One of the looser tier ends the term and takes the next one: its first value, and
the rest of it by absorbing.  After that no operator of the tighter tier comes, so climbing goes on
in the sum. -/
theorem climb_layers (h : Shrinks operand) (hleast : least ≤ 10) (fuel : Nat) :
    ∀ {st : σ}, 2 * (left st).length ≤ fuel → ∀ first : Node,
      climb operand fuel least first s st =
        (layerFrom [.multiply, .divide] operand first >>=
          layerFrom [.add, .subtract] (term operand)) s st := by
  have hterm : Shrinks (term operand) := h.layer
  induction fuel with
  | zero =>
    intro st hfuel first
    have hnil : left st = [] := List.length_eq_zero_iff.1 (by omega)
    have hnone : ∀ op, ¬ Leads (.operator op) (left st).head? :=
      fun op => not_leads_of_eq_nil hnil _
    rw [climb_of_not_leads fun op hop => absurd hop (hnone op), bind_run,
      layerFrom_of_not_leads fun op _ => hnone op]
    exact (layerFrom_of_not_leads (fun op _ => hnone op) first).symm
  | succ fuel ih =>
    intro st hfuel first
    obtain ⟨t, rest, op, hleft, ht, hop⟩ | hproducts :=
      leads_tier_or_not [.multiply, .divide] (left st)
    · have hprecedence := Operator.precedence_of_tight (mem_products_iff.1 hop)
      rw [hleft, List.length_cons] at hfuel
      rw [climb_of_left hleft ht (by omega),
        bind_congr_left (layerFrom_cons h hleft ht hop first), bind_assoc]
      refine bind_congr_right fun right middle hright => ?_
      have hshort := h hright
      rw [left_leave] at hshort
      rw [hprecedence, bind_run, absorb_tight]
      exact ih (by omega) _
    · rw [bind_run, layerFrom_of_not_leads hproducts]
      dsimp only
      obtain ⟨t, rest, op, hleft, ht, hop⟩ | hsums := leads_tier_or_not [.add, .subtract] (left st)
      · have hprecedence := Operator.precedence_of_loose (mem_sums_iff.1 hop)
        rw [hleft, List.length_cons] at hfuel
        rw [climb_of_left hleft ht (by omega), layerFrom_cons hterm hleft ht hop, term, layer,
          bind_assoc]
        refine bind_congr_right fun right middle hright => ?_
        have hshort := h hright
        rw [left_leave] at hshort
        rw [hprecedence, bind_run, absorb_term h (by omega), bind_run]
        cases hread : layerFrom [.multiply, .divide] operand right s middle with
        | error e failed => rfl
        | ok node ended =>
          have hshort' := h.layerFrom right hread
          have hends := not_leads_of_layerFrom h (Nat.le_refl _) hread
          dsimp only
          rw [ih (by omega), bind_run, layerFrom_of_not_leads hends]
          rfl
      · have hends : ∀ op, Leads (.operator op) (left st).head? → op.precedence < least := by
          intro op hlead
          by_cases hop : op.Tight
          · exact absurd hlead (hproducts op (mem_products_iff.2 hop))
          · exact absurd hlead (hsums op (mem_sums_iff.2 hop))
        rw [climb_of_not_leads hends, layerFrom_of_not_leads hsums]

/-- **Climbing is reading in two layers**, if the operands give no tokens back. -/
theorem climbing_eq_layered (h : Shrinks operand) : climbing operand = layered operand := by
  funext s st
  rw [climbing, layered, layer, term, layer, bind_assoc]
  refine bind_congr_right fun first middle _ => ?_
  have hclimb : climbFrom operand first s middle =
      climb operand (2 * (left middle).length) 0 first s middle := rfl
  rw [hclimb, climb_layers h (Nat.zero_le _) _ (Nat.le_refl _)]
  rfl

end Climb

/-- **Expressions are read as by the two layers.**  From any place in a slice, whatever the tokens
that are left, the token that closes the slice, the levels that are open and the limit on them,
precedence climbing gives the tree that the two layers give and leaves the cursor at the same place,
and where it fails it fails with the same error at the same place. -/
theorem expression_eq_layered (c : Cursor) :
    c.run expression = c.run fun _ => layered (here value) := by
  have hread : here expression = here fun _ => layered (here value) := by
    rw [here_expression, climbing_eq_layered (.of_alone here_value_alone)]
    rfl
  rw [Cursor.run, Cursor.run, hread]

end Parse

end Abacus
