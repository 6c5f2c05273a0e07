import Mathlib.Tactic.Common
import Abacus.Proofs.Brackets
import Abacus.Proofs.Layers

/-!
# Reading expressions by the grammar

The rule for expressions reads what the grammar calls an expression, and all of it.  A rule is
sound if what it takes is of a category of the grammar, and complete if it takes whatever is of
that category and stops there.  A rule that may open so many levels reads exactly what is nested no
deeper.

Climbing is reading in two layers, and a layer is a chain of items with the operators of a tier
between them.  So one statement about chains does for terms and for expressions.

## Main definitions

* `Abacus.Parse.Sound`, `Abacus.Parse.Complete` — a rule against a category of the grammar.
* `Abacus.Grammar.Chain` — items with the operators of a tier between them.
* `Abacus.Grammar.MoreEntries` — the entries of a list after the first one.

## Main results

* `Abacus.Parse.layer_sound`, `Abacus.Parse.layer_complete` — one layer.
* `Abacus.Parse.expression_sound`, `Abacus.Parse.expression_complete`.
-/

namespace Abacus

open Grammar
open Token (nesting)
open Reading (left_list leave_list)

namespace Parse

variable {α : Type} {levels : Nat}

/-- What a rule takes is of a category and opens at most `levels` levels.  Where the category looks
at the next token, any token will do that opens a parenthesis only if the one that the rule stops at
does. -/
def Sound (rule : Plain α) (category : List Token → Option Token → α → Prop) (levels : Nat) :
    Prop :=
  ∀ ⦃s : Slice⦄ ⦃tokens rest : List Token⦄ ⦃a : α⦄, rule s tokens = .ok a rest →
    ∃ taken, tokens = taken ++ rest ∧ Nested levels taken ∧
      ∀ next, (Opens next → Opens rest.head?) → category taken next a

/-- A rule takes what is of a category and opens at most `levels` levels, provided that the next
token does not go on with it. -/
def Complete (rule : Plain α) (category : List Token → Option Token → α → Prop) (levels : Nat)
    (Ends : Option Token → Prop) : Prop :=
  ∀ ⦃taken : List Token⦄ ⦃next : Option Token⦄ ⦃a : α⦄, category taken next a →
    nesting taken ≤ levels → ∀ (s : Slice) (rest : List Token), (Opens rest.head? → Opens next) →
      Ends rest.head? → rule s (taken ++ rest) = .ok a rest

/-- The token after the first of two stretches opens a parenthesis only if the one that is found
there does. -/
lemma opens_of_following {taken rest : List Token} {next : Option Token}
    (h : Opens next → Opens rest.head?) (hopen : Opens (following taken next)) :
    Opens (taken ++ rest).head? := by
  cases taken with
  | nil => exact h hopen
  | cons t taken => exact hopen

/-- The converse: what is found after the first of two stretches opens a parenthesis only if the
token that the grammar sees there does. -/
lemma opens_following {taken rest : List Token} {next : Option Token}
    (h : Opens rest.head? → Opens next) (hopen : Opens (taken ++ rest).head?) :
    Opens (following taken next) := by
  cases taken with
  | nil => exact h hopen
  | cons t taken => exact hopen

/-- A rule that fails at the limit does not succeed. -/
lemma failTooDeep_ne_ok {s : Slice} {tokens rest : List Token} {a : α} :
    (failTooDeep : Plain α) s tokens ≠ .ok a rest := by
  intro h
  cases h

end Parse

/-! ## Chains -/

namespace Grammar

/-- Items with operators of a tier between them, grouped to the left. -/
inductive Chain (tier : List Operator) (Item : List Token → Option Token → Node → Prop) :
    List Token → Option Token → Node → Prop
  | item {tokens : List Token} {next : Option Token} {node : Node} :
      Item tokens next node → Chain tier Item tokens next node
  | link {t : Token} {left right : List Token} {next : Option Token} {op : Operator} {x y : Node} :
      Chain tier Item left (some t) x → t.kind = .operator op → op ∈ tier → Item right next y →
        Chain tier Item (left ++ t :: right) next (.binary op x y)

/-- The brackets of a chain match if those of its items do. -/
lemma Chain.bracketed {tier : List Operator} {Item : List Token → Option Token → Node → Prop}
    (hitem : ∀ {tokens : List Token} {next : Option Token} {node : Node},
      Item tokens next node → Bracketed tokens) {tokens : List Token} {next : Option Token}
    {node : Node} (h : Chain tier Item tokens next node) : Bracketed tokens := by
  induction h with
  | item h => exact hitem h
  | link _ ht _ hright ih => exact ih.append (.plain (by rw [ht]; trivial) (hitem hright))

/-- A term is a chain of values. -/
lemma Term.chain {tokens : List Token} {next : Option Token} {node : Node}
    (h : Term tokens next node) : Chain [.multiply, .divide] Value tokens next node := by
  cases h with
  | value h => exact .item h
  | product hx ht hop hy => exact .link hx.chain ht (Parse.mem_products_iff.2 hop) hy

/-- An expression is a chain of terms. -/
lemma Expression.chain {tokens : List Token} {next : Option Token} {node : Node}
    (h : Expression tokens next node) : Chain [.add, .subtract] Term tokens next node := by
  cases h with
  | term h => exact .item h
  | sum hx ht hop hy => exact .link hx.chain ht (Parse.mem_sums_iff.2 hop) hy

/-- A chain of values is a term. -/
lemma Chain.term {tokens : List Token} {next : Option Token} {node : Node}
    (h : Chain [.multiply, .divide] Value tokens next node) : Term tokens next node := by
  induction h with
  | item h => exact .value h
  | link _ ht hop hright ih => exact .product ih ht (Parse.mem_products_iff.1 hop) hright

/-- A chain of terms is an expression. -/
lemma Chain.expression {tokens : List Token} {next : Option Token} {node : Node}
    (h : Chain [.add, .subtract] Term tokens next node) : Expression tokens next node := by
  induction h with
  | item h => exact .term h
  | link _ ht hop hright ih => exact .sum ih ht (Parse.mem_sums_iff.1 hop) hright

end Grammar

namespace Parse

section Chains

variable {tier : List Operator} {item : Plain Node}
  {Item : List Token → Option Token → Node → Prop}

/-- What is folded onto a chain makes a longer chain.

**Proof sketch.** Induction on the bound.  An operator of the tier and the item after it are one
more link of the chain that has been read so far. -/
private lemma foldLayer_sound (hitem : Sound item Item levels) (count : Nat) :
    ∀ {s : Slice} {front tokens rest : List Token} {first node : Node},
      (∀ next, (Opens next → Opens tokens.head?) → Chain tier Item front next first) →
      foldLayer tier item count first s tokens = .ok node rest →
        ∃ taken, tokens = taken ++ rest ∧ Nested levels taken ∧
          ∀ next, (Opens next → Opens rest.head?) → Chain tier Item (front ++ taken) next node := by
  induction count with
  | zero =>
    intro s front tokens rest first node hfront hread
    obtain ⟨rfl, rfl⟩ := pure_eq_ok_iff.1 hread
    exact ⟨[], rfl, .nil, by simpa using hfront⟩
  | succ count ih =>
    intro s front tokens rest first node hfront hread
    obtain ⟨t, more, op, rfl, ht, hop⟩ | hends := leads_tier_or_not tier tokens
    · rw [foldLayer_of_left rfl ht hop] at hread
      obtain ⟨right, middle, hright, hmore⟩ := bind_eq_ok_iff.1 hread
      obtain ⟨taken, rfl, hnested, hcategory⟩ := hitem hright
      have hlonger : ∀ next, (Opens next → Opens middle.head?) →
          Chain tier Item (front ++ t :: taken) next (.binary op first right) :=
        fun next hnext => .link (hfront (some t) id) ht hop (hcategory next hnext)
      obtain ⟨taken', rfl, hnested', hchain⟩ := ih hlonger hmore
      refine ⟨t :: (taken ++ taken'), by simp,
        .plain (by rw [ht]; trivial) (hnested.append hnested'), fun next hnext => ?_⟩
      have hall := hchain next hnext
      rwa [List.append_assoc, List.cons_append] at hall
    · rw [foldLayer_of_not_leads hends] at hread
      cases hread
      exact ⟨[], rfl, .nil, by simpa using hfront⟩

/-- **What is read in one layer is a chain of the grammar.** -/
theorem layer_sound (hitem : Sound item Item levels) :
    Sound (layer tier item) (Chain tier Item) levels := by
  intro s tokens rest node hread
  obtain ⟨first, middle, hfirst, hmore⟩ := bind_eq_ok_iff.1 hread
  obtain ⟨taken, rfl, hnested, hcategory⟩ := hitem hfirst
  obtain ⟨taken', rfl, hnested', hchain⟩ :=
    foldLayer_sound hitem _ (fun next hnext => .item (hcategory next hnext)) hmore
  exact ⟨taken ++ taken', by simp, hnested.append hnested', hchain⟩

/-- Reading a chain comes to reading on from the tree of the chain.

**Proof sketch.** Induction on the chain, which follows the left recursion of the grammar.  The
chain to the left of the last operator is read first, and reading goes on at that operator. -/
private lemma layer_of_chain {Ends : Option Token → Prop} (hshrinks : Shrinks item)
    (hbracketed : ∀ {tokens : List Token} {next : Option Token} {node : Node},
      Item tokens next node → Bracketed tokens)
    (hitem : Complete item Item levels Ends)
    (hops : ∀ {t : Token} {op : Operator}, t.kind = .operator op → op ∈ tier → Ends (some t))
    {tokens : List Token} {next : Option Token} {node : Node}
    (h : Chain tier Item tokens next node) : nesting tokens ≤ levels →
      ∀ (s : Slice) (rest : List Token), (Opens rest.head? → Opens next) → Ends rest.head? →
        layer tier item s (tokens ++ rest) = layerFrom tier item node s rest := by
  induction h with
  | item h =>
    intro hdeep s rest hnext hends
    rw [layer, bind_run, hitem h hdeep s rest hnext hends]
  | @link t before right next op x y hchain ht hop hright ih =>
    intro hdeep s rest hnext hends
    rw [nesting_append (hchain.bracketed hbracketed), nesting_plain (by rw [ht]; trivial),
      Nat.max_le] at hdeep
    have hbefore := ih hdeep.1 s (t :: (right ++ rest)) id (hops ht hop)
    rw [List.append_assoc, List.cons_append, hbefore, layerFrom_cons hshrinks rfl ht hop, bind_run,
      leave_list, hitem hright hdeep.2 s rest hnext hends]

/-- **Every chain of the grammar is read in one layer.** -/
theorem layer_complete {Ends : Option Token → Prop} (hshrinks : Shrinks item)
    (hbracketed : ∀ {tokens : List Token} {next : Option Token} {node : Node},
      Item tokens next node → Bracketed tokens)
    (hitem : Complete item Item levels Ends)
    (hops : ∀ {t : Token} {op : Operator}, t.kind = .operator op → op ∈ tier → Ends (some t)) :
    Complete (layer tier item) (Chain tier Item) levels
      fun next => Ends next ∧ ∀ op ∈ tier, ¬ Leads (.operator op) next := by
  intro tokens next node h hdeep s rest hnext hends
  rw [layer_of_chain hshrinks hbracketed hitem hops h hdeep s rest hnext hends.1]
  exact layerFrom_of_not_leads hends.2 node

end Chains

/-! ## Both layers -/

section Climbing

variable {operand : Plain Node}

/-- A token that does not go on with an expression. -/
def EndsExpression (next : Option Token) : Prop := ∀ op, ¬ Leads (.operator op) next

/-- Only an operator goes on with an expression. -/
lemma endsExpression_of_kind {t : Token} (h : ∀ op, t.kind ≠ .operator op) :
    EndsExpression (some t) :=
  fun op hl => h op (leads_some_iff.1 hl)

/-- What is read as a term is a term of the grammar. -/
lemma term_sound (hoperand : Sound operand Value levels) : Sound (term operand) Term levels := by
  intro s tokens rest node hread
  obtain ⟨taken, htokens, hnested, hchain⟩ := layer_sound hoperand hread
  exact ⟨taken, htokens, hnested, fun next hnext => (hchain next hnext).term⟩

/-- What is read by climbing is an expression of the grammar. -/
lemma climbing_sound (hshrinks : Shrinks operand) (hoperand : Sound operand Value levels) :
    Sound (climbing operand) Expression levels := by
  rw [climbing_eq_layered hshrinks]
  intro s tokens rest node hread
  obtain ⟨taken, htokens, hnested, hchain⟩ := layer_sound (term_sound hoperand) hread
  exact ⟨taken, htokens, hnested, fun next hnext => (hchain next hnext).expression⟩

/-- All of an expression of the grammar is read by climbing. -/
lemma climbing_complete (hshrinks : Shrinks operand)
    (hoperand : Complete operand Value levels fun _ => True) :
    Complete (climbing operand) Expression levels EndsExpression := by
  have hterm : Complete (term operand) Term levels fun next =>
      True ∧ ∀ op ∈ [Operator.multiply, .divide], ¬ Leads (.operator op) next :=
    fun tokens next node h =>
      layer_complete hshrinks Value.bracketed hoperand (fun _ _ => trivial) h.chain
  have hops : ∀ {t : Token} {op : Operator}, t.kind = .operator op → op ∈ [.add, .subtract] →
      True ∧ ∀ op ∈ [Operator.multiply, .divide], ¬ Leads (.operator op) (some t) := by
    intro t op ht hop
    refine ⟨trivial, fun op' hop' hlead => ?_⟩
    rw [leads_some_iff, ht, Kind.operator.injEq] at hlead
    exact mem_sums_iff.1 hop (mem_products_iff.1 (hlead ▸ hop'))
  rw [climbing_eq_layered hshrinks]
  intro tokens next node h hdeep s rest hnext hends
  exact layer_complete hshrinks.layer Term.bracketed hterm hops h.chain hdeep s rest hnext
    ⟨⟨trivial, fun op _ => hends op⟩, fun op _ => hends op⟩

end Climbing

end Parse

/-! ## Lists -/

namespace Grammar

/-- The entries of a list after the first one, each with the comma before it, and perhaps a comma
at the end. -/
inductive MoreEntries : List Token → Option Token → List Node → Prop
  | nil {next : Option Token} : MoreEntries [] next []
  | trailing {c : Token} {next : Option Token} : c.kind = .mark .comma → MoreEntries [c] next []
  | cons {c : Token} {tokens more : List Token} {next : Option Token} {node : Node}
      {nodes : List Node} :
      c.kind = .mark .comma → Expression tokens (following more next) node →
        MoreEntries more next nodes → MoreEntries (c :: (tokens ++ more)) next (node :: nodes)

/-- An entry and the entries after it are the entries of a list. -/
lemma MoreEntries.entries {more : List Token} {next : Option Token} {nodes : List Node}
    (h : MoreEntries more next nodes) : ∀ {tokens : List Token} {node : Node},
    Expression tokens (following more next) node →
      Entries (tokens ++ more) next (node :: nodes) := by
  induction h with
  | nil =>
    intro tokens node hfirst
    rw [List.append_nil]
    exact .last hfirst
  | trailing hc => exact fun hfirst => .trailing hfirst hc
  | cons hc hnode _ ih => exact fun hfirst => .cons hfirst hc (ih hnode)

/-- The entries of a list are one entry and the entries after it. -/
lemma Entries.more {tokens : List Token} {next : Option Token} {nodes : List Node} :
    Entries tokens next nodes → ∃ first more node others, tokens = first ++ more ∧
      nodes = node :: others ∧ Expression first (following more next) node ∧
      MoreEntries more next others
  | .cons h hc hmore => by
    obtain ⟨first, more, node, others, rfl, rfl, hnode, hothers⟩ := hmore.more
    exact ⟨_, _, _, _, rfl, rfl, h, .cons hc hnode hothers⟩
  | .trailing h hc => ⟨_, _, _, [], rfl, rfl, h, .trailing hc⟩
  | .last h => ⟨_, [], _, [], (List.append_nil _).symm, rfl, h, .nil⟩

/-- The entries after the first one start with a comma, if there are any. -/
lemma MoreEntries.head {more : List Token} {next : Option Token} {nodes : List Node}
    (h : MoreEntries more next nodes) :
    more = [] ∨ ∃ c rest, more = c :: rest ∧ c.kind = .mark .comma := by
  cases h with
  | nil => exact .inl rfl
  | trailing hc => exact .inr ⟨_, _, rfl, hc⟩
  | cons hc => exact .inr ⟨_, _, rfl, hc⟩

end Grammar

namespace Parse

section Lists

variable {expression : Plain Node}

/-- The expression of an entry that is read is one of the grammar. -/
lemma entry_sound (h : Sound expression Expression levels) :
    Sound (entry expression) (fun tokens next found => Expression tokens next found.node)
      levels := by
  intro s tokens rest found hentry
  cases tokens with
  | nil => cases hentry
  | cons t more =>
    rw [entry, bind_run] at hentry
    obtain ⟨node, middle, hnode, hend⟩ := bind_eq_ok_iff.1 hentry
    obtain ⟨rfl, rfl⟩ := pure_eq_ok_iff.1 hend
    exact h hnode

/-- What reading entries comes to where it succeeds: a comma with an entry and more entries after
it, a comma that ends the list because the entry after it is given up, or nothing. -/
lemma entries_eq_ok {count : Nat} {s : Slice} {tokens rest : List Token} {found : List Entry}
    (h : entries expression (count + 1) s tokens = .ok found rest) :
    (∃ c after left first others, tokens = c :: after ∧ c.kind = .mark .comma ∧
        entry expression s after = .ok first left ∧
        entries expression count s left = .ok others rest ∧ found = first :: others) ∨
      (∃ c, tokens = c :: rest ∧ c.kind = .mark .comma ∧ found = []) ∨
      rest = tokens ∧ found = [] := by
  obtain ⟨comma, middle, hcomma, hrest⟩ := bind_eq_ok_iff.1 h
  rcases accept_eq_ok (Kind.exact_mark _) hcomma with ⟨rfl, c, hc, rfl⟩ | ⟨rfl, rfl, -⟩
  · obtain ⟨tried, middle', htried, hend⟩ := bind_eq_ok_iff.1 hrest
    unfold attempt at htried
    split at htried
    · next first _ hfirst =>
      cases htried
      obtain ⟨others, left', hothers, hdone⟩ := bind_eq_ok_iff.1 hend
      obtain ⟨rfl, rfl⟩ := pure_eq_ok_iff.1 hdone
      exact .inl ⟨c, middle, _, first, others, rfl, hc, hfirst, hothers, rfl⟩
    · -- the entry after the comma is given up; only the comma has been taken
      cases htried
      obtain ⟨closed, left', hclosed, hdone⟩ := bind_eq_ok_iff.1 hend
      rw [check_run] at hclosed
      cases hclosed
      split at hdone
      · obtain ⟨rfl, rfl⟩ := pure_eq_ok_iff.1 hdone
        exact .inr (.inl ⟨c, rfl, hc, rfl⟩)
      · cases hdone
  · obtain ⟨rfl, rfl⟩ := pure_eq_ok_iff.1 hrest
    exact .inr (.inr ⟨rfl, rfl⟩)

/-- Entries that are read after the first one are entries of the grammar. -/
lemma entries_sound (h : Sound expression Expression levels) : ∀ count,
    Sound (entries expression count)
      (fun tokens next found => MoreEntries tokens next (found.map (·.node))) levels
  | 0 => by
    intro s tokens rest found hread
    obtain ⟨rfl, rfl⟩ := pure_eq_ok_iff.1 hread
    exact ⟨[], rfl, .nil, fun _ _ => .nil⟩
  | count + 1 => by
    intro s tokens rest found hread
    rcases entries_eq_ok hread with ⟨c, after, left, first, others, rfl, hc, hfirst, hothers, rfl⟩ |
      ⟨c, rfl, hc, rfl⟩ | ⟨rfl, rfl⟩
    · obtain ⟨taken, rfl, hnested, hentry⟩ := entry_sound h hfirst
      obtain ⟨taken', rfl, hnested', hmore⟩ := entries_sound h count hothers
      refine ⟨c :: (taken ++ taken'), by simp,
        .plain (by rw [hc]; trivial) (hnested.append hnested'), fun next hnext => ?_⟩
      exact .cons hc (hentry _ (opens_of_following hnext)) (hmore next hnext)
    · exact ⟨[c], rfl, .plain (by rw [hc]; trivial) .nil, fun _ _ => .trailing hc⟩
    · exact ⟨[], rfl, .nil, fun _ _ => .nil⟩

/-- A list that is read is a list of the grammar. -/
lemma commaList_sound (h : Sound expression Expression levels) :
    Sound (commaList expression)
      (fun tokens next found => Listing tokens next (found.map (·.node))) levels := by
  intro s tokens rest found hread
  obtain ⟨closed, middle, hclosed, hrest⟩ := bind_eq_ok_iff.1 hread
  rw [check_run] at hclosed
  cases hclosed
  split at hrest
  · obtain ⟨rfl, rfl⟩ := pure_eq_ok_iff.1 hrest
    exact ⟨[], rfl, .nil, fun _ _ => .nil⟩
  · obtain ⟨first, middle, hfirst, h₁⟩ := bind_eq_ok_iff.1 hrest
    obtain ⟨left, middle', hleft, h₂⟩ := bind_eq_ok_iff.1 h₁
    obtain ⟨others, middle'', hothers, h₃⟩ := bind_eq_ok_iff.1 h₂
    obtain ⟨rfl, rfl⟩ := pure_eq_ok_iff.1 h₃
    cases hleft
    obtain ⟨taken, rfl, hnested, hentry⟩ := entry_sound h hfirst
    obtain ⟨taken', rfl, hnested', hmore⟩ := entries_sound h _ hothers
    refine ⟨taken ++ taken', by simp, hnested.append hnested', fun next hnext => ?_⟩
    exact .entries ((hmore next hnext).entries (hentry _ (opens_of_following hnext)))

/-- The arguments that are read are those of the grammar. -/
private lemma arguments_sound (h : Sound expression Expression levels) {s : Slice}
    {tokens rest : List Token} {nodes : List Node}
    (hread : arguments (commaList expression) s tokens = .ok nodes rest) :
    ∃ inner r, tokens = inner ++ r :: rest ∧ r.kind = .mark .rightParen ∧ nesting inner ≤ levels ∧
      Listing inner (some r) nodes := by
  obtain ⟨found, middle, hfound, h₁⟩ := bind_eq_ok_iff.1 hread
  obtain ⟨u, middle', hclose, h₂⟩ := bind_eq_ok_iff.1 h₁
  obtain ⟨rfl, rfl⟩ := pure_eq_ok_iff.1 h₂
  obtain ⟨r, hr, rfl⟩ := expectMark_eq_ok_iff.1 hclose
  obtain ⟨taken, rfl, hnested, hlist⟩ := commaList_sound h hfound
  exact ⟨taken, r, rfl, hr, hnested.nesting_le, hlist (some r) id⟩

/-- An expression in parentheses that is read is one of the grammar. -/
private lemma parenthesized_sound (h : Sound expression Expression levels) {s : Slice} {l : Token}
    {tokens rest : List Token} {node : Node}
    (hread : parenthesized expression s (l :: tokens) = .ok node rest) :
    ∃ inner r, tokens = inner ++ r :: rest ∧ r.kind = .mark .rightParen ∧ nesting inner ≤ levels ∧
      Expression inner (some r) node := by
  obtain ⟨first, middle, hfirst, h₁⟩ := bind_eq_ok_iff.1 hread
  obtain ⟨inner, middle', hinner, h₂⟩ := bind_eq_ok_iff.1 h₁
  obtain ⟨u, middle'', hclose, h₃⟩ := bind_eq_ok_iff.1 h₂
  obtain ⟨rfl, rfl⟩ := pure_eq_ok_iff.1 h₃
  cases hfirst
  obtain ⟨r, hr, rfl⟩ := expectMark_eq_ok_iff.1 hclose
  obtain ⟨taken, htaken, hnested, hexpr⟩ := h hinner
  exact ⟨taken, r, htaken, hr, hnested.nesting_le, hexpr (some r) id⟩

/-- The expression of an entry of the grammar is read. -/
lemma entry_complete (h : Complete expression Expression levels EndsExpression)
    {tokens : List Token} {next : Option Token} {node : Node} (hnode : Expression tokens next node)
    (hdeep : nesting tokens ≤ levels) (s : Slice) (rest : List Token)
    (hnext : Opens rest.head? → Opens next) (hends : EndsExpression rest.head?) :
    ∃ found, entry expression s (tokens ++ rest) = .ok found rest ∧ found.node = node := by
  have hread := h hnode hdeep s rest hnext hends
  obtain ⟨t, more, rfl, -⟩ := hnode.head
  refine ⟨⟨node, t⟩, ?_, rfl⟩
  rw [entry, bind_run]
  exact bind_eq_ok_iff.2 ⟨node, rest, hread, rfl⟩

/-- No expression is read where a closing parenthesis comes next. -/
private lemma expression_ne_ok (h : Sound expression Expression levels) {s : Slice} {r : Token}
    {tokens rest : List Token} {node : Node} (hr : r.kind = .mark .rightParen) :
    expression s (r :: tokens) ≠ .ok node rest := by
  intro hread
  obtain ⟨taken, htaken, -, hnode⟩ := h hread
  obtain ⟨t, more, rfl, ht⟩ := (hnode rest.head? id).head
  obtain ⟨rfl, -⟩ := List.cons.inj htaken
  rw [hr] at ht
  exact ht

/-- Where a closing parenthesis comes next, trying an entry leaves everything in place. -/
private lemma attempt_entry_of_close (h : Sound expression Expression levels) {r : Token}
    (hr : r.kind = .mark .rightParen) (s : Slice) (rest : List Token) :
    ∃ e, attempt (entry expression) s (r :: rest) = .ok (.error e) (r :: rest) := by
  cases hentry : entry expression s (r :: rest) with
  | ok found left =>
    rw [entry, bind_run] at hentry
    obtain ⟨node, middle, hnode, -⟩ := bind_eq_ok_iff.1 hentry
    exact absurd hnode (expression_ne_ok h hr)
  | error e left => exact ⟨e, by simp [attempt, hentry]⟩

/-- The entries of the grammar after the first one are read, up to the closing parenthesis. -/
private lemma entries_complete (hsound : Sound expression Expression levels)
    (h : Complete expression Expression levels EndsExpression) {r : Token}
    (hr : r.kind = .mark .rightParen) {tokens : List Token} {nodes : List Node}
    (hmore : MoreEntries tokens (some r) nodes) :
    ∀ count, nesting tokens ≤ levels → tokens.length ≤ count → ∀ (s : Slice) (rest : List Token),
      ∃ found, entries expression count s (tokens ++ r :: rest) = .ok found (r :: rest) ∧
        found.map (·.node) = nodes := by
  generalize hnext : some r = next at hmore
  induction hmore with
  | nil =>
    intro count _ _ s rest
    refine ⟨[], ?_, rfl⟩
    cases count with
    | zero => rfl
    | succ count =>
      have hcomma : ¬ Leads (.mark .comma) (r :: rest).head? := by
        rw [List.head?_cons, leads_some_iff, hr]
        simp
      exact bind_eq_ok_iff.2 ⟨false, _, accept_of_not_leads (Kind.exact_mark _) hcomma s, rfl⟩
  | @trailing c next hc =>
    intro count _ hcount s rest
    obtain ⟨count, rfl⟩ : ∃ n, count = n + 1 := ⟨count - 1, by simp at hcount; omega⟩
    obtain ⟨e, htried⟩ := attempt_entry_of_close hsound hr s rest
    have hclosed : (some r).any (·.kind.agrees (.mark .rightParen)) = true :=
      (any_agrees_iff (Kind.exact_mark _) _).2 (leads_some_iff.2 hr)
    refine ⟨[], ?_, rfl⟩
    refine bind_eq_ok_iff.2 ⟨true, _, accept_of_leads (Kind.exact_mark _) hc s _, ?_⟩
    refine bind_eq_ok_iff.2 ⟨.error e, _, htried, ?_⟩
    refine bind_eq_ok_iff.2 ⟨true, r :: rest, ?_, rfl⟩
    rw [check_run, left_list, List.head?_cons, hclosed]
  | @cons c taken more next node nodes hc hnode hmore ih =>
    intro count hdeep hcount s rest
    obtain ⟨count, rfl⟩ : ∃ n, count = n + 1 := ⟨count - 1, by simp at hcount; omega⟩
    simp only [List.length_cons, List.length_append] at hcount
    rw [nesting_plain (by rw [hc]; trivial), nesting_append hnode.bracketed, Nat.max_le] at hdeep
    have hends : EndsExpression (more ++ r :: rest).head? := by
      rcases hmore.head with rfl | ⟨c', rest', rfl, hc'⟩
      · exact endsExpression_of_kind (by simp [hr])
      · exact endsExpression_of_kind (by simp [hc'])
    obtain ⟨first, hfirst, hfirstNode⟩ := entry_complete h hnode hdeep.1 s (more ++ r :: rest)
      (opens_following (by rw [← hnext]; exact id)) hends
    obtain ⟨others, hothers, hothersNodes⟩ := ih hnext count hdeep.2 (by omega) s rest
    refine ⟨first :: others, ?_, by simp [hfirstNode, hothersNodes]⟩
    refine bind_eq_ok_iff.2
      ⟨true, taken ++ more ++ r :: rest, accept_of_leads (Kind.exact_mark _) hc s _, ?_⟩
    rw [List.append_assoc, if_pos rfl]
    refine bind_eq_ok_iff.2 ⟨.ok first, more ++ r :: rest, by rw [attempt, hfirst], ?_⟩
    exact bind_eq_ok_iff.2 ⟨others, r :: rest, hothers, rfl⟩

/-- A list of the grammar is read, up to the closing parenthesis. -/
lemma commaList_complete (hsound : Sound expression Expression levels)
    (h : Complete expression Expression levels EndsExpression) {r : Token}
    (hr : r.kind = .mark .rightParen) {tokens : List Token} {nodes : List Node}
    (hlist : Listing tokens (some r) nodes) (hdeep : nesting tokens ≤ levels) (s : Slice)
    (rest : List Token) :
    ∃ found, commaList expression s (tokens ++ r :: rest) = .ok found (r :: rest) ∧
      found.map (·.node) = nodes := by
  cases hlist with
  | nil =>
    have hclosed : (some r).any (·.kind.agrees (.mark .rightParen)) = true :=
      (any_agrees_iff (Kind.exact_mark _) _).2 (leads_some_iff.2 hr)
    refine ⟨[], bind_eq_ok_iff.2 ⟨true, r :: rest, ?_, rfl⟩, rfl⟩
    rw [check_run, left_list, List.nil_append, List.head?_cons, hclosed]
  | entries hentries =>
    obtain ⟨first, more, node, others, rfl, rfl, hnode, hmore⟩ := hentries.more
    rw [nesting_append hnode.bracketed, Nat.max_le] at hdeep
    have hends : EndsExpression (more ++ r :: rest).head? := by
      rcases hmore.head with rfl | ⟨c, rest', rfl, hc⟩
      · exact endsExpression_of_kind (by simp [hr])
      · exact endsExpression_of_kind (by simp [hc])
    have hopen : (first ++ more ++ r :: rest).head?.any (·.kind.agrees (.mark .rightParen)) =
        false := by
      obtain ⟨t, tail, rfl, ht⟩ := hnode.head
      rw [← Bool.not_eq_true, any_agrees_iff (Kind.exact_mark _)]
      intro hlead
      rw [leads_some_iff.1 hlead] at ht
      exact ht
    obtain ⟨entry, hentry, hentryNode⟩ := entry_complete h hnode hdeep.1 s (more ++ r :: rest)
      (opens_following id) hends
    obtain ⟨found, hfound, hfoundNodes⟩ := entries_complete hsound h hr hmore
      (more ++ r :: rest).length hdeep.2 (by simp) s rest
    refine ⟨entry :: found, ?_, by simp [hentryNode, hfoundNodes]⟩
    refine bind_eq_ok_iff.2
      ⟨false, first ++ more ++ r :: rest, by rw [check_run, left_list, hopen], ?_⟩
    rw [List.append_assoc]
    refine bind_eq_ok_iff.2 ⟨entry, more ++ r :: rest, hentry, ?_⟩
    refine bind_eq_ok_iff.2 ⟨_, more ++ r :: rest, rfl, ?_⟩
    exact bind_eq_ok_iff.2 ⟨found, r :: rest, hfound, rfl⟩

/-- The arguments of a call of the grammar are read. -/
private lemma arguments_complete (hsound : Sound expression Expression levels)
    (h : Complete expression Expression levels EndsExpression) {r : Token} {tokens : List Token}
    {nodes : List Node} (hlist : Listing tokens (some r) nodes) (hr : r.kind = .mark .rightParen)
    (hdeep : nesting tokens ≤ levels) (s : Slice) (rest : List Token) :
    arguments (commaList expression) s (tokens ++ r :: rest) = .ok nodes rest := by
  obtain ⟨found, hfound, hnodes⟩ := commaList_complete hsound h hr hlist hdeep s rest
  refine bind_eq_ok_iff.2 ⟨found, r :: rest, hfound, ?_⟩
  refine bind_eq_ok_iff.2 ⟨(), rest, expectMark_eq_ok_iff.2 ⟨r, hr, rfl⟩, ?_⟩
  rw [hnodes]
  rfl

/-- An expression of the grammar is read between its parentheses. -/
private lemma parenthesized_complete (h : Complete expression Expression levels EndsExpression)
    {l r : Token} {tokens : List Token} {node : Node} (hexpr : Expression tokens (some r) node)
    (hr : r.kind = .mark .rightParen) (hdeep : nesting tokens ≤ levels) (s : Slice)
    (rest : List Token) :
    parenthesized expression s (l :: (tokens ++ r :: rest)) = .ok node rest := by
  refine bind_eq_ok_iff.2 ⟨some l, tokens ++ r :: rest, by simp [advance], ?_⟩
  refine bind_eq_ok_iff.2 ⟨node, r :: rest, ?_, ?_⟩
  · exact h hexpr hdeep s (r :: rest) id (endsExpression_of_kind (by simp [hr]))
  · exact bind_eq_ok_iff.2 ⟨(), rest, expectMark_eq_ok_iff.2 ⟨r, hr, rfl⟩, rfl⟩

end Lists

/-! ## Operands and expressions -/

section Operands

variable {group : Plain Node} {arguments : Plain (List Node)}

/-- One operand that is read is a value of the grammar, if its parts in parentheses are read as the
grammar says and open one level less. -/
lemma operand_sound
    (hgroup : ∀ {s : Slice} {l : Token} {tokens rest : List Token} {node : Node},
      group s (l :: tokens) = .ok node rest → ∃ inner r, tokens = inner ++ r :: rest ∧
        r.kind = .mark .rightParen ∧ nesting inner < levels ∧ Expression inner (some r) node)
    (harguments : ∀ {s : Slice} {tokens rest : List Token} {nodes : List Node},
      arguments s tokens = .ok nodes rest → ∃ inner r, tokens = inner ++ r :: rest ∧
        r.kind = .mark .rightParen ∧ nesting inner < levels ∧ Listing inner (some r) nodes) :
    Sound (operand group arguments) Value levels := by
  intro s tokens rest node h
  cases tokens with
  | nil => cases h
  | cons t tokens =>
    rw [operand, bind_run] at h
    simp only [peekKind, left_list, List.head?_cons, Option.map_some] at h
    cases hkind : t.kind with
    | number value =>
      rw [hkind] at h
      obtain ⟨found, middle, hfound, hend⟩ := bind_eq_ok_iff.1 h
      obtain ⟨rfl, rfl⟩ := pure_eq_ok_iff.1 hend
      obtain ⟨t', ht', htokens⟩ := expectNumber_eq_ok_iff.1 hfound
      obtain ⟨rfl, rfl⟩ := List.cons.inj htokens
      exact ⟨[t], rfl, .plain (by rw [hkind]; trivial) .nil, fun _ _ => .number ht'⟩
    | identifier id =>
      rw [hkind] at h
      have hplain : t.kind.IsPlain := by rw [hkind]; trivial
      obtain ⟨name, middle, hname, h₁⟩ := bind_eq_ok_iff.1 h
      obtain ⟨t', ht', htokens⟩ := expectIdentifier_eq_ok_iff.1 hname
      obtain ⟨rfl, rfl⟩ := List.cons.inj htokens
      obtain ⟨called, middle', hcalled, h₂⟩ := bind_eq_ok_iff.1 h₁
      rcases accept_eq_ok (Kind.exact_mark _) hcalled with ⟨rfl, l, hl, rfl⟩ | ⟨rfl, rfl, hclosed⟩
      · obtain ⟨nodes, middle'', hnodes, h₃⟩ := bind_eq_ok_iff.1 h₂
        obtain ⟨rfl, rfl⟩ := pure_eq_ok_iff.1 h₃
        obtain ⟨inner, r, rfl, hr, hdeep, hinner⟩ := harguments hnodes
        exact ⟨t :: l :: (inner ++ [r]), by simp,
          .plain hplain (.enclosed (.inl ⟨hl, hr⟩) hinner.bracketed hdeep),
          fun _ _ => .call ht' hl hinner hr⟩
      · obtain ⟨rfl, rfl⟩ := pure_eq_ok_iff.1 h₂
        exact ⟨[t], rfl, .plain hplain .nil,
          fun next hnext => .name ht' fun hopen => hclosed (hnext hopen)⟩
    | mark m =>
      rw [hkind] at h
      cases m with
      | leftParen =>
        obtain ⟨inner, r, rfl, hr, hdeep, hinner⟩ := hgroup h
        exact ⟨t :: (inner ++ [r]), by simp, .enclosed (.inl ⟨hkind, hr⟩) hinner.bracketed hdeep,
          fun _ _ => .group hkind hinner hr⟩
      | _ => cases h
    | _ => rw [hkind] at h; cases h

/-- A value of the grammar is read as one operand, if what it has in parentheses is read there. -/
lemma operand_complete
    (hgroup : ∀ {l r : Token} {tokens : List Token} {node : Node},
      Expression tokens (some r) node → r.kind = .mark .rightParen → nesting tokens < levels →
        ∀ (s : Slice) (rest : List Token), group s (l :: (tokens ++ r :: rest)) = .ok node rest)
    (harguments : ∀ {r : Token} {tokens : List Token} {nodes : List Node},
      Listing tokens (some r) nodes → r.kind = .mark .rightParen → nesting tokens < levels →
        ∀ (s : Slice) (rest : List Token), arguments s (tokens ++ r :: rest) = .ok nodes rest) :
    Complete (operand group arguments) Value levels fun _ => True := by
  intro taken next node hvalue hdeep s rest hnext _
  rw [operand, bind_run]
  cases hvalue with
  | @number t _ value ht =>
    simp only [peekKind, left_list, List.singleton_append, List.head?_cons, Option.map_some, ht]
    exact bind_eq_ok_iff.2 ⟨value, rest, expectNumber_eq_ok_iff.2 ⟨t, ht, rfl⟩, rfl⟩
  | @group l r tokens _ _ hl hexpr hr =>
    rw [nesting_enclosed (.inl ⟨hl, hr⟩) hexpr.bracketed, Nat.max_le] at hdeep
    simp only [peekKind, left_list, List.cons_append, List.append_assoc, List.nil_append,
      List.head?_cons, Option.map_some, hl]
    exact hgroup hexpr hr hdeep.1 s rest
  | @name t _ id ht hclosed =>
    simp only [peekKind, left_list, List.singleton_append, List.head?_cons, Option.map_some, ht]
    refine bind_eq_ok_iff.2 ⟨id, rest, expectIdentifier_eq_ok_iff.2 ⟨t, ht, rfl⟩, ?_⟩
    refine bind_eq_ok_iff.2 ⟨false, rest, ?_, rfl⟩
    exact accept_of_not_leads (Kind.exact_mark _) (fun hopen => hclosed (hnext hopen)) s
  | @call t l r tokens _ id nodes ht hl hlist hr =>
    rw [nesting_plain (by rw [ht]; trivial), nesting_enclosed (.inl ⟨hl, hr⟩) hlist.bracketed,
      Nat.max_le] at hdeep
    simp only [peekKind, left_list, List.cons_append, List.append_assoc, List.nil_append,
      List.head?_cons, Option.map_some, ht]
    refine bind_eq_ok_iff.2 ⟨id, _, expectIdentifier_eq_ok_iff.2 ⟨t, ht, rfl⟩, ?_⟩
    refine bind_eq_ok_iff.2 ⟨true, _, accept_of_leads (Kind.exact_mark _) hl s _, ?_⟩
    exact bind_eq_ok_iff.2 ⟨nodes, rest, harguments hlist hr hdeep.1 s rest, rfl⟩

end Operands

/-- What is read as one operand is a value of the grammar, and nested no deeper than allowed. -/
lemma value_sound (levels : Nat) : Sound (Plain.value levels) Value levels := by
  induction levels with
  | zero =>
    apply operand_sound
    · exact fun h => absurd h failTooDeep_ne_ok
    · exact fun h => absurd h failTooDeep_ne_ok
  | succ levels ih =>
    have hexpression := climbing_sound (value_shrinks levels) ih
    apply operand_sound
    · intro s l tokens rest node hread
      obtain ⟨inner, r, htokens, hr, hdeep, hexpr⟩ := parenthesized_sound hexpression hread
      exact ⟨inner, r, htokens, hr, Nat.lt_succ_of_le hdeep, hexpr⟩
    · intro s tokens rest nodes hread
      obtain ⟨inner, r, htokens, hr, hdeep, hlist⟩ := arguments_sound hexpression hread
      exact ⟨inner, r, htokens, hr, Nat.lt_succ_of_le hdeep, hlist⟩

/-- **What is read as an expression is an expression of the grammar**, and nested no deeper than
allowed. -/
theorem expression_sound (levels : Nat) : Sound (Plain.expression levels) Expression levels :=
  climbing_sound (value_shrinks levels) (value_sound levels)

/-- **Every expression of the grammar is read** that is nested no deeper than allowed. -/
theorem expression_complete (levels : Nat) :
    Complete (Plain.expression levels) Expression levels EndsExpression := by
  refine climbing_complete (value_shrinks levels) ?_
  induction levels with
  | zero =>
    apply operand_complete
    · exact fun _ _ hlt => absurd hlt (Nat.not_lt_zero _)
    · exact fun _ _ hlt => absurd hlt (Nat.not_lt_zero _)
  | succ levels ih =>
    have hexpression := climbing_complete (value_shrinks levels) ih
    apply operand_complete
    · exact fun hexpr hr hlt =>
        parenthesized_complete hexpression hexpr hr (Nat.le_of_lt_succ hlt)
    · exact fun hlist hr hlt =>
        arguments_complete (expression_sound levels) hexpression hlist hr (Nat.le_of_lt_succ hlt)

end Parse

end Abacus
