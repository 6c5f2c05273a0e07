import Mathlib.Tactic.Common
import Abacus.Proofs.Grammar

/-!
# Brackets

In every category of the grammar parentheses and braces match.  They are also what nesting is
measured by: a program is nested as deeply as there are levels open at once, where a parenthesis or
a brace opens a level, except for the parentheses around the parameters of a function definition.

## Main definitions

* `Abacus.Kind.peak`, `Abacus.Kind.nesting`, `Abacus.Token.nesting` — how many levels are open at
  once.
* `Abacus.Grammar.Bracketed` — tokens whose brackets match.
* `Abacus.Grammar.Nested` — the same, with at most so many levels open at once.

## Main results

* `Abacus.Grammar.Program.bracketed` — the brackets of a program match.
* `Abacus.Grammar.nesting_append`, `nesting_enclosed`, `nesting_params` — the nesting of a text from
  that of its parts.
-/

namespace Abacus

namespace Kind

/-- Whether a kind is neither a bracket nor the reserved word for functions, after which parameters
come in parentheses. -/
def IsPlain : Kind → Prop
  | mark .leftParen | mark .rightParen | mark .leftBrace | mark .rightBrace | keyword .fn => False
  | _ => True

/-- An opening bracket with the closing bracket that belongs to it. -/
def Encloses (l r : Kind) : Prop :=
  l = mark .leftParen ∧ r = mark .rightParen ∨ l = mark .leftBrace ∧ r = mark .rightBrace

/-! ## How many levels are open at once -/

/-- The greatest number of levels that are open at once in a text.  Of the brackets that are open
where the text starts, innermost first, `brackets` tells whether they opened a level.  The first
bracket after the reserved word for functions, if it is a parenthesis, opens the parameters and no
level; `params` tells whether such a bracket is awaited. -/
def peak : Bool → List Bool → List Kind → Nat
  | _, brackets, [] => brackets.count true
  | params, brackets, kind :: kinds =>
    match kind with
    | mark .leftParen => peak false ((!params) :: brackets) kinds
    | mark .leftBrace => peak false (true :: brackets) kinds
    | mark .rightParen | mark .rightBrace =>
      max (brackets.count true) (peak false brackets.tail kinds)
    | keyword .fn => peak true brackets kinds
    | _ => peak params brackets kinds

/-- How many levels are open at once in a text that starts outside all brackets. -/
def nesting (kinds : List Kind) : Nat := peak false [] kinds

variable {params : Bool} {brackets : List Bool} {kind l r : Kind} {kinds : List Kind}

/-- A token that is no bracket changes nothing. -/
lemma peak_plain (h : kind.IsPlain) :
    peak params brackets (kind :: kinds) = peak params brackets kinds := by
  cases kind with
  | mark m =>
    cases m with
    | leftParen | rightParen | leftBrace | rightBrace => exact h.elim
    | _ => rfl
  | keyword word =>
    cases word with
    | fn => exact h.elim
    | _ => rfl
  | _ => rfl

/-- A bracket that opens a level is remembered as one. -/
lemma peak_open (h : Encloses l r) :
    peak false brackets (l :: kinds) = peak false (true :: brackets) kinds := by
  rcases h with ⟨rfl, -⟩ | ⟨rfl, -⟩ <;> rfl

/-- A closing bracket forgets the last one that was opened; the open levels have been counted
before. -/
lemma peak_close (h : Encloses l r) :
    peak params brackets (r :: kinds) =
      max (brackets.count true) (peak false brackets.tail kinds) := by
  rcases h with ⟨-, rfl⟩ | ⟨-, rfl⟩ <;> rfl

/-- The levels that are open at the start count. -/
private lemma count_le_peak (params : Bool) (brackets : List Bool) (kinds : List Kind) :
    brackets.count true ≤ peak params brackets kinds := by
  fun_induction peak params brackets kinds with
  | case1 => exact Nat.le_refl _
  | case2 params brackets kinds ih => exact Nat.le_trans List.count_le_count_cons ih
  | case3 params brackets kinds ih => exact Nat.le_trans List.count_le_count_cons ih
  | case4 => exact Nat.le_max_left _ _
  | case5 => exact Nat.le_max_left _ _
  | case6 params brackets kinds ih => exact ih
  | case7 params brackets kind kinds _ _ _ _ _ ih => exact ih

/-- Every bracket opens one level at most. -/
private lemma peak_le_length (params : Bool) (brackets : List Bool) (kinds : List Kind) :
    peak params brackets kinds ≤ brackets.count true + kinds.length := by
  fun_induction peak params brackets kinds with
  | case1 => exact Nat.le_refl _
  | case2 params brackets kinds ih =>
    have hcount : ((!params) :: brackets).count true ≤ brackets.count true + 1 := by
      cases params <;> simp
    simp only [List.length_cons]
    omega
  | case3 params brackets kinds ih =>
    have hcount : (true :: brackets).count true = brackets.count true + 1 := by simp
    simp only [List.length_cons]
    omega
  | case4 params brackets kinds ih =>
    have hcount : brackets.tail.count true ≤ brackets.count true :=
      (List.tail_sublist brackets).count_le true
    simp only [List.length_cons]
    omega
  | case5 params brackets kinds ih =>
    have hcount : brackets.tail.count true ≤ brackets.count true :=
      (List.tail_sublist brackets).count_le true
    simp only [List.length_cons]
    omega
  | case6 params brackets kinds ih =>
    simp only [List.length_cons]
    omega
  | case7 params brackets kind kinds _ _ _ _ _ ih =>
    simp only [List.length_cons]
    omega

end Kind

/-- How many levels are open at once in some tokens. -/
def Token.nesting (tokens : List Token) : Nat := Kind.nesting (tokens.map (·.kind))

/-- No more levels are open than there are tokens. -/
lemma Token.nesting_le_length (tokens : List Token) : nesting tokens ≤ tokens.length := by
  have h := Kind.peak_le_length false [] (tokens.map (·.kind))
  simpa [nesting, Kind.nesting] using h

namespace Grammar

open Kind (peak Encloses)
open Token (nesting)

/-! ## Brackets that match -/

/-- Tokens whose brackets match.  The reserved word for functions comes with a name and parameters
in parentheses. -/
inductive Bracketed : List Token → Prop
  | nil : Bracketed []
  | plain {t : Token} {rest : List Token} :
      t.kind.IsPlain → Bracketed rest → Bracketed (t :: rest)
  | enclosed {l r : Token} {inner rest : List Token} :
      Encloses l.kind r.kind → Bracketed inner → Bracketed rest →
        Bracketed (l :: (inner ++ r :: rest))
  | params {k n l r : Token} {id : String} {inner rest : List Token} :
      k.kind = .keyword .fn → n.kind = .identifier id → l.kind = .mark .leftParen →
        r.kind = .mark .rightParen → Bracketed inner → Bracketed rest →
        Bracketed (k :: n :: l :: (inner ++ r :: rest))

namespace Bracketed

variable {tokens more : List Token}

/-- Bracketed tokens one after the other are bracketed. -/
lemma append (h : Bracketed tokens) (hmore : Bracketed more) : Bracketed (tokens ++ more) := by
  induction h with
  | nil => exact hmore
  | plain ht _ ih => exact .plain ht ih
  | enclosed hpair hinner _ _ ih =>
    simp only [List.cons_append, List.append_assoc]
    exact .enclosed hpair hinner ih
  | params hk hn hl hr hinner _ _ ih =>
    simp only [List.cons_append, List.append_assoc]
    exact .params hk hn hl hr hinner ih

/-- In front of another text, tokens whose brackets match only add the levels that they open
themselves. -/
private lemma exists_peak_append (h : Bracketed tokens) :
    ∃ levels, ∀ (brackets : List Bool) (others : List Kind),
      peak false brackets (tokens.map (·.kind) ++ others) =
        max (brackets.count true + levels) (peak false brackets others) := by
  induction h with
  | nil =>
    refine ⟨0, fun brackets others => ?_⟩
    have := Kind.count_le_peak false brackets others
    simp only [List.map_nil, List.nil_append]
    omega
  | plain ht _ ih =>
    obtain ⟨levels, hlevels⟩ := ih
    refine ⟨levels, fun brackets others => ?_⟩
    rw [List.map_cons, List.cons_append, Kind.peak_plain ht, hlevels]
  | enclosed hpair _ _ ihinner ihrest =>
    obtain ⟨inside, hinside⟩ := ihinner
    obtain ⟨levels, hlevels⟩ := ihrest
    refine ⟨max (inside + 1) levels, fun brackets others => ?_⟩
    have hcount : (true :: brackets).count true = brackets.count true + 1 := by simp
    simp only [List.map_cons, List.map_append, List.cons_append, List.append_assoc,
      Kind.peak_open hpair, hinside, Kind.peak_close hpair, hcount, List.tail_cons, hlevels]
    omega
  | @params k n l r id inner rest hk hn hl hr _ _ ihinner ihrest =>
    obtain ⟨inside, hinside⟩ := ihinner
    obtain ⟨levels, hlevels⟩ := ihrest
    refine ⟨max inside levels, fun brackets others => ?_⟩
    have hopened : ∀ kinds, peak false brackets (k.kind :: n.kind :: l.kind :: kinds) =
        peak false (false :: brackets) kinds := by
      intro kinds
      rw [hk, hn, hl]
      rfl
    have hcount : (false :: brackets).count true = brackets.count true := by simp
    simp only [List.map_cons, List.map_append, List.cons_append, List.append_assoc, hopened,
      hinside, Kind.peak_close (.inl ⟨hl, hr⟩), hcount, List.tail_cons, hlevels]
    omega

/-- Bracketed tokens leave the brackets before them as they are, and count from them. -/
lemma peak_append (h : Bracketed tokens) (brackets : List Bool) (others : List Kind) :
    peak false brackets (tokens.map (·.kind) ++ others) =
      max (brackets.count true + nesting tokens) (peak false brackets others) := by
  obtain ⟨levels, hlevels⟩ := h.exists_peak_append
  have hself := hlevels [] []
  simp only [List.append_nil, List.count_nil, Nat.zero_add, Kind.peak, Nat.max_zero] at hself
  rw [hlevels, nesting, Kind.nesting, hself]

end Bracketed

/-! ## Nesting of a text from that of its parts -/

section Nesting

variable {t k n l r : Token} {id : String} {tokens inner rest : List Token}

/-- Two texts one after the other are nested as deeply as the deeper of them, if the first is
bracketed. -/
theorem nesting_append (h : Bracketed tokens) (more : List Token) :
    nesting (tokens ++ more) = max (nesting tokens) (nesting more) := by
  have hpeak := h.peak_append [] (more.map (·.kind))
  simpa [nesting, Kind.nesting] using hpeak

/-- A token that is no bracket opens no level. -/
lemma nesting_plain (ht : t.kind.IsPlain) (rest : List Token) :
    nesting (t :: rest) = nesting rest := by
  simp only [nesting, Kind.nesting, List.map_cons, Kind.peak_plain ht]

/-- A bracket opens a level. -/
theorem nesting_enclosed (hpair : Encloses l.kind r.kind) (hinner : Bracketed inner)
    (rest : List Token) :
    nesting (l :: (inner ++ r :: rest)) = max (nesting inner + 1) (nesting rest) := by
  have hpeak := hinner.peak_append [true] (r.kind :: rest.map (·.kind))
  rw [Kind.peak_close hpair] at hpeak
  simp only [nesting, Kind.nesting, List.map_cons, List.map_append, Kind.peak_open hpair] at hpeak ⊢
  simp only [List.count_singleton_self, List.tail_cons] at hpeak
  omega

/-- The parentheses around the parameters of a function open no level. -/
theorem nesting_params (hk : k.kind = .keyword .fn) (hn : n.kind = .identifier id)
    (hl : l.kind = .mark .leftParen) (hr : r.kind = .mark .rightParen) (hinner : Bracketed inner)
    (rest : List Token) :
    nesting (k :: n :: l :: (inner ++ r :: rest)) = max (nesting inner) (nesting rest) := by
  have hopened : ∀ kinds, peak false [] (k.kind :: n.kind :: l.kind :: kinds) =
      peak false [false] kinds := by
    intro kinds
    rw [hk, hn, hl]
    rfl
  have hpeak := hinner.peak_append [false] (r.kind :: rest.map (·.kind))
  rw [Kind.peak_close (.inl ⟨hl, hr⟩)] at hpeak
  simp only [nesting, Kind.nesting, List.map_cons, List.map_append, hopened] at hpeak ⊢
  simp only [List.count_singleton, List.tail_cons] at hpeak
  simpa using hpeak

end Nesting

/-- Tokens whose brackets match, with at most `levels` levels open at once. -/
structure Nested (levels : Nat) (tokens : List Token) : Prop where
  bracketed : Bracketed tokens
  nesting_le : nesting tokens ≤ levels

namespace Nested

variable {levels : Nat} {t k n l r : Token} {id : String} {tokens more inner rest : List Token}

/-- No tokens are nested. -/
lemma nil : Nested levels [] := ⟨.nil, Nat.zero_le _⟩

/-- A token that is no bracket can stand in front. -/
lemma plain (ht : t.kind.IsPlain) (h : Nested levels rest) : Nested levels (t :: rest) := by
  refine ⟨.plain ht h.bracketed, ?_⟩
  rw [nesting_plain ht]
  exact h.nesting_le

/-- Nested tokens one after the other are nested. -/
lemma append (h : Nested levels tokens) (h' : Nested levels more) :
    Nested levels (tokens ++ more) := by
  refine ⟨h.bracketed.append h'.bracketed, ?_⟩
  rw [nesting_append h.bracketed]
  exact Nat.max_le.2 ⟨h.nesting_le, h'.nesting_le⟩

/-- Brackets take up a level around what is nested less deeply. -/
lemma enclosed (hpair : Encloses l.kind r.kind) (h : Bracketed inner)
    (hdeep : nesting inner < levels) : Nested levels (l :: (inner ++ [r])) := by
  refine ⟨.enclosed hpair h .nil, ?_⟩
  rw [nesting_enclosed hpair h]
  exact Nat.max_le.2 ⟨hdeep, Nat.zero_le _⟩

/-- The parentheses around parameters take up no level. -/
lemma params (hk : k.kind = .keyword .fn) (hn : n.kind = .identifier id)
    (hl : l.kind = .mark .leftParen) (hr : r.kind = .mark .rightParen) (h : Nested levels inner)
    (h' : Nested levels rest) : Nested levels (k :: n :: l :: (inner ++ r :: rest)) := by
  refine ⟨.params hk hn hl hr h.bracketed h'.bracketed, ?_⟩
  rw [nesting_params hk hn hl hr h.bracketed]
  exact Nat.max_le.2 ⟨h.nesting_le, h'.nesting_le⟩

end Nested

/-! ## The brackets of the grammar match -/

mutual

/-- A value is bracketed. -/
lemma Value.bracketed {tokens : List Token} {next : Option Token} {node : Node} :
    Value tokens next node → Bracketed tokens
  | .number ht => .plain (by rw [ht]; trivial) .nil
  | .group hl h hr => .enclosed (.inl ⟨hl, hr⟩) h.bracketed .nil
  | .name ht _ => .plain (by rw [ht]; trivial) .nil
  | .call ht hl h hr =>
    .plain (by rw [ht]; trivial) (.enclosed (.inl ⟨hl, hr⟩) h.bracketed .nil)

/-- A term is bracketed. -/
lemma Term.bracketed {tokens : List Token} {next : Option Token} {node : Node} :
    Term tokens next node → Bracketed tokens
  | .value h => h.bracketed
  | .product h ht _ h' => h.bracketed.append (.plain (by rw [ht]; trivial) h'.bracketed)

/-- An expression is bracketed. -/
lemma Expression.bracketed {tokens : List Token} {next : Option Token} {node : Node} :
    Expression tokens next node → Bracketed tokens
  | .term h => h.bracketed
  | .sum h ht _ h' => h.bracketed.append (.plain (by rw [ht]; trivial) h'.bracketed)

/-- The entries of a list are bracketed. -/
lemma Entries.bracketed {tokens : List Token} {next : Option Token} {nodes : List Node} :
    Entries tokens next nodes → Bracketed tokens
  | .last h => h.bracketed
  | .trailing h hc => h.bracketed.append (.plain (by rw [hc]; trivial) .nil)
  | .cons h hc h' => h.bracketed.append (.plain (by rw [hc]; trivial) h'.bracketed)

/-- A list is bracketed. -/
lemma Listing.bracketed {tokens : List Token} {next : Option Token} {nodes : List Node} :
    Listing tokens next nodes → Bracketed tokens
  | .nil => .nil
  | .entries h => h.bracketed

end

mutual

/-- A statement is bracketed. -/
lemma Statement.bracketed {tokens : List Token} {next : Option Token} {node : Node} :
    Statement tokens next node → Bracketed tokens
  | .declare hk hn he h =>
    .plain (by rw [hk]; trivial) (.plain (by rw [hn]; trivial)
      (.plain (by rw [he]; trivial) h.bracketed))
  | .define hk hn hl h hr h' => .params hk hn hl hr h.bracketed h'.bracketed
  | .choose hk h h' => .plain (by rw [hk]; trivial) (h.bracketed.append h'.bracketed)
  | .loop hk h => .plain (by rcases hk with hk | hk <;> rw [hk] <;> trivial) h.bracketed
  | .expression h => h.bracketed

/-- An arm is bracketed. -/
lemma Arm.bracketed {tokens : List Token} {arm : Branch Node} :
    Arm tokens arm → Bracketed tokens
  | .mk h h' => h.bracketed.append h'.bracketed

/-- Further arms are bracketed. -/
lemma ElseArms.bracketed {tokens : List Token} {arms : List (Branch Node)}
    {otherwise : Option Block} : ElseArms tokens arms otherwise → Bracketed tokens
  | .nil => .nil
  | .otherwise he h => .plain (by rw [he]; trivial) h.bracketed
  | .cons he hi h h' =>
    .plain (by rw [he]; trivial) (.plain (by rw [hi]; trivial) (h.bracketed.append h'.bracketed))

/-- A block is bracketed. -/
lemma Braced.bracketed {tokens : List Token} {block : Block} :
    Braced tokens block → Bracketed tokens
  | .mk hl h hr => .enclosed (.inr ⟨hl, hr⟩) h.bracketed .nil

/-- **The brackets of a program match.** -/
theorem Program.bracketed {tokens : List Token} {next : Option Token} {block : Block} :
    Program tokens next block → Bracketed tokens
  | .nil => .nil
  | .cons h h' => h.bracketed.append h'.bracketed

end

end Grammar

end Abacus
