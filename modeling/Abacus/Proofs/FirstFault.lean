import Mathlib.Tactic.Common
import Abacus.Proofs.Faults
import Abacus.Proofs.Layout

/-!
# Which fault of a script is reported

Where tokens are no program, the error is reported at one of them, or at their end.  The tokens
before that place can be completed to a program, so nothing before it is wrong, but for two
exceptions.  The brace that closes a block may be missing; this is found before the block is read,
and the end of the script is reported.  And the list of a function's parameters may be broken off by
a fault; then entries before that which are no names are passed over.

In a script the place tells the token: later tokens have larger offsets.

## Main definitions

* `Abacus.Sighting.At` — the index at which an error is reported.
* `Abacus.Token.LeavesOpen`, `Abacus.Token.MisnamesParameters` — the two exceptions.
* `Abacus.Node.FaultAt` — a fault that is reported at an index.

## Main results

* `Abacus.Token.Layout.pairwise_offset` — later tokens have larger offsets.
* `Abacus.Node.fault_reported` — the tokens before the place can be completed, but for the
  exceptions.
* `Abacus.Node.fault_passed_over` — the second exception is one.
-/

namespace Abacus

/-! ## The token that is reported -/

/-- Where an error is reported that says what was found: at the token with the index `i`, or after
all tokens if nothing was found. -/
def Sighting.At (sighting : Sighting) (tokens : List Token) (i : Nat) : Prop :=
  sighting.found = none ∧ i = tokens.length ∨
    sighting.found ≠ none ∧ ∃ t, tokens[i]? = some t ∧ sighting.span = some t.span

/-- What is found where some tokens are left is reported at the first of them. -/
lemma Slice.sight_at (limit : Nat) (read left : List Token) :
    ((Slice.ofTokens limit (read ++ left)).sight left).At (read ++ left) read.length := by
  cases left with
  | nil => exact .inl ⟨rfl, by rw [List.append_nil]⟩
  | cons t left => exact .inr ⟨Option.some_ne_none _, t, by simp, rfl⟩

namespace Token

/-- **Later tokens have larger offsets**, and all have larger ones than the text before them.

**Proof sketch.** Induction on the layout: between the places of two tokens lies the lexeme of the
first one, which is not empty. -/
theorem Layout.pairwise_offset {before text : List Char} {tokens : List Token}
    (h : Layout before text tokens) :
    (∀ t ∈ tokens, (String.ofList before).utf8ByteSize ≤ t.span.offset) ∧
      tokens.Pairwise fun t u => t.span.offset < u.span.offset := by
  induction h with
  | last => exact ⟨List.forall_mem_nil _, .nil⟩
  | @token before gap rest t tokens _ hne hmarks _ ih =>
    have hpos : 0 < t.lexeme.utf8ByteSize := by
      rw [Nat.pos_iff_ne_zero]
      exact fun hzero => hne (String.utf8ByteSize_eq_zero_iff.1 hzero)
    have hplace := hmarks.offset
    simp only [String.ofList_append, String.utf8ByteSize_append, String.ofList_toList] at ih hplace
    obtain ⟨hlater, hpairwise⟩ := ih
    have hlater' : ∀ u ∈ tokens, t.span.offset < u.span.offset := by
      intro u hu
      have := hlater u hu
      omega
    refine ⟨List.forall_mem_cons.2 ⟨by omega, fun u hu => ?_⟩, .cons hlater' hpairwise⟩
    have := hlater' u hu
    omega

end Token

/-- In a script an error is reported at one index only. -/
lemma Sighting.At.eq {source : String} {tokens : List Token} {sighting : Sighting} {i j : Nat}
    (hsource : Token.tokenize source = .ok tokens) (hi : sighting.At tokens i)
    (hj : sighting.At tokens j) : i = j := by
  rcases hi with ⟨hnone, rfl⟩ | ⟨hsome, t, ht, hspan⟩
  · rcases hj with ⟨-, rfl⟩ | ⟨hsome, -⟩
    · rfl
    · exact absurd hnone hsome
  · rcases hj with ⟨hnone, -⟩ | ⟨-, u, hu, hspan'⟩
    · exact absurd hnone hsome
    · have hoffset : t.span.offset = u.span.offset := by
        rw [Option.some.inj (hspan.symm.trans hspan')]
      have hpairwise := (Token.layout_of_scan hsource Span.marks_start).pairwise_offset.2
      rw [List.pairwise_iff_getElem] at hpairwise
      obtain ⟨hilt, rfl⟩ := List.getElem?_eq_some_iff.1 ht
      obtain ⟨hjlt, rfl⟩ := List.getElem?_eq_some_iff.1 hu
      rcases Nat.lt_trichotomy i j with hlt | heq | hlt
      · exact absurd hoffset (Nat.ne_of_lt (hpairwise i j hilt hjlt hlt))
      · exact heq
      · exact absurd hoffset.symm (Nat.ne_of_lt (hpairwise j i hjlt hilt hlt))

/-! ## Faults that are passed over -/

namespace Token

open Grammar

/-- Tokens with a block that is not closed, where a block may stand. -/
def LeavesOpen (tokens : List Token) : Prop :=
  ∃ front l left, tokens = front ++ l :: left ∧ l.kind = .mark .leftBrace ∧
    Parse.enclosed? 0 left = none ∧ Viable (front ++ [l])

/-- Tokens that end in the parameters of a function, where a function may stand, such that what
there is of the parameters can be completed to a list, but not to a list of names. -/
def MisnamesParameters (read : List Token) : Prop :=
  ∃ front k n l inner id, read = front ++ k :: n :: l :: inner ∧ k.kind = .keyword .fn ∧
    n.kind = .identifier id ∧ l.kind = .mark .leftParen ∧ Viable (front ++ [k, n, l]) ∧
    (∃ nodes, ListingBegins inner nodes) ∧
    ∀ params : List String, ¬ ListingBegins inner (params.map .name)

end Token

namespace Node

open Token (Viable LeavesOpen MisnamesParameters)

/-- How a fault is reported: the error is at one place among the tokens only, and nothing before
that place is wrong, so that the tokens there can be completed to a program.  The exceptions are
that a closing brace is missing, which is reported at the end, and that the place is in the
parameters of a function, and those before it are not all names. -/
structure FaultAt (tokens : List Token) (what : Expectation) (sighting : Sighting) (i : Nat) :
    Prop where
  at_iff : ∀ j, sighting.At tokens j ↔ j = i
  before : Viable (tokens.take i) ∨
    (what = .text Mark.rightBrace.quoted ∧ i = tokens.length ∧ LeavesOpen tokens) ∨
    MisnamesParameters (tokens.take i)

/-- **Which fault is reported.**  Let a script be no program, for another reason than its nesting.
Then the error is reported at one place among its tokens, and nothing before that place is wrong:
the tokens there can be completed to a program.  The exceptions are that a closing brace is missing,
which is reported at the end, and that the place is in the parameters of a function, and those
before it are not all names. -/
theorem fault_reported {source : String} {tokens : List Token} {limit : Nat} {what : Expectation}
    {sighting : Sighting} (hsource : Token.tokenize source = .ok tokens)
    (h : parse limit tokens = .error (.expected what sighting)) :
    ∃ i, FaultAt tokens what sighting i := by
  have hplace : ∀ i, sighting.At tokens i → ∀ j, sighting.At tokens j ↔ j = i :=
    fun i hi j => ⟨fun hj => hj.eq hsource hi, fun heq => heq ▸ hi⟩
  generalize he : ParseError.expected what sighting = e at h
  cases parse_faults h with
  | snag hsnag =>
    cases hsnag with
    | @wanted what' read left hread =>
      obtain ⟨rfl, rfl⟩ := ParseError.expected.inj he
      refine ⟨read.length, hplace _ (Slice.sight_at limit read left), .inl ?_⟩
      rwa [List.take_left]
    | group => cases he
    | call => cases he
  | block => cases he
  | @unclosed read left l hl hnone hread =>
    obtain ⟨rfl, rfl⟩ := ParseError.expected.inj he
    refine ⟨_, hplace _ (.inl ⟨rfl, rfl⟩), .inr (.inl ⟨rfl, rfl, ?_⟩)⟩
    exact ⟨read, l, left, rfl, hl, hnone, hread⟩
  | @masked what' read inner left k n l id hk hn hl hread hlist hparams =>
    obtain ⟨rfl, rfl⟩ := ParseError.expected.inj he
    have hsplit : read ++ k :: n :: l :: (inner ++ left) =
        read ++ k :: n :: l :: inner ++ left := by simp
    rw [hsplit] at hplace ⊢
    refine ⟨_, hplace _ (Slice.sight_at limit _ left), .inr (.inr ?_)⟩
    rw [List.take_left]
    exact ⟨read, k, n, l, inner, id, rfl, hk, hn, hl, hread, hlist, hparams⟩

/-- In `if a { ref ref` the brace that closes the block is missing, and the end of the script is
reported. -/
theorem fault_reported_unclosed :
    let tokens : List Token := [⟨.keyword .if_, "if", ⟨0, 1, 0⟩⟩, ⟨.identifier "a", "a", ⟨3, 1, 3⟩⟩,
      ⟨.mark .leftBrace, "\x7b", ⟨5, 1, 5⟩⟩, ⟨.keyword .ref, "ref", ⟨7, 1, 7⟩⟩,
      ⟨.keyword .ref, "ref", ⟨11, 1, 11⟩⟩]
    let wanted : Expectation := .text Mark.rightBrace.quoted
    let sighting : Sighting := ⟨none, some ⟨11, 1, 11⟩⟩
    Token.tokenize "if a \x7b ref ref" = .ok tokens ∧
      parse 1 tokens = .error (.expected wanted sighting) ∧
      ∃ i, FaultAt tokens wanted sighting i := by
  intro tokens wanted sighting
  have htokens : Token.tokenize "if a \x7b ref ref" = .ok tokens := by
    rw [Token.tokenize_eq_scanWithin]
    rfl
  have hparse : parse 1 tokens = .error (.expected wanted sighting) := rfl
  exact ⟨htokens, hparse, fault_reported htokens hparse⟩

end Node

/-! ## A call among parameters -/

namespace Grammar

/-- A program that starts with `fn` has parameters. -/
lemma Program.params {k n l : Token} {tokens : List Token} {next : Option Token} {block : Block}
    (h : Program (k :: n :: l :: tokens) next block) (hk : k.kind = .keyword .fn) :
    ∃ (inner after : List Token) (r : Token) (params : List String), tokens = inner ++ r :: after ∧
      r.kind = .mark .rightParen ∧ Listing inner (some r) (params.map .name) := by
  generalize hall : k :: n :: l :: tokens = all at h
  cases h with
  | nil => cases hall
  | @cons first rest _ node nodes hfirst _ =>
    -- of the reserved words, only `fn` starts a function
    cases hfirst with
    | declare hk' =>
      obtain ⟨rfl, -⟩ := List.cons.inj hall
      cases hk.symm.trans hk'
    | @define k' n' l' r inner body _ id params block _ _ _ hlist hr _ =>
      cases hall
      exact ⟨inner, body ++ rest, r, params, by simp, hr, hlist⟩
    | choose hk' =>
      obtain ⟨rfl, -⟩ := List.cons.inj hall
      cases hk.symm.trans hk'
    | loop hk' =>
      obtain ⟨rfl, -⟩ := List.cons.inj hall
      rcases hk' with hk' | hk' <;> cases hk.symm.trans hk'
    | expression hexpression =>
      obtain ⟨t, more, rfl, ht⟩ := hexpression.head
      obtain ⟨rfl, -⟩ := List.cons.inj hall
      rw [hk] at ht
      exact ht.elim

/-- An expression whose tree is a name is that name, or is in parentheses. -/
lemma Expression.of_name {tokens : List Token} {next : Option Token} {id : String}
    (h : Expression tokens next (.name id)) :
    (∃ t, tokens = [t] ∧ ¬ Opens next) ∨
      ∃ l rest, tokens = l :: rest ∧ l.kind = .mark .leftParen := by
  cases h with
  | term hterm =>
    cases hterm with
    | value hvalue =>
      cases hvalue with
      | group hl => exact .inr ⟨_, _, rfl, hl⟩
      | name _ hnext => exact .inl ⟨_, rfl, hnext⟩

/-- A name with a parenthesis after it begins no list of names. -/
lemma Listing.not_call {inner after more : List Token} {r t p : Token} {params : List String}
    {id : String} (h : Listing inner (some r) (params.map .name)) (hr : r.kind = .mark .rightParen)
    (ht : t.kind = .identifier id) (hp : p.kind = .mark .leftParen) :
    t :: p :: more ≠ inner ++ r :: after := by
  intro hall
  generalize hnames : params.map Node.name = nodes at h
  cases h with
  | nil =>
    cases hall
    cases ht.symm.trans hr
  | entries hentries =>
    obtain ⟨first, others, node, nodes, rfl, rfl, hfirst, -⟩ := hentries.more
    obtain ⟨name, names, -, rfl, -⟩ := List.map_eq_cons_iff.1 hnames
    rcases hfirst.of_name with ⟨t', rfl, hnext⟩ | ⟨l, rest, rfl, hl⟩
    · -- the parenthesis is what follows the name
      have hp' : following others (some r) = some p := by
        have htail := congrArg (fun tokens => tokens.tail.head?) hall
        cases others <;> exact htail.symm
      rw [hp'] at hnext
      exact hnext (leads_some_iff.2 hp)
    · obtain ⟨rfl, -⟩ := List.cons.inj hall
      cases ht.symm.trans hl

end Grammar

namespace Node

open Token (Viable)

/-- A function whose first parameter is a call can not be completed. -/
private lemma not_viable_call_parameter {k n l t p : Token} {id : String}
    (hk : k.kind = .keyword .fn)
    (ht : t.kind = .identifier id) (hp : p.kind = .mark .leftParen) (rest : List Token) :
    ¬ Viable (k :: n :: l :: t :: p :: rest) := by
  rintro ⟨_, limit, block, ⟨more, rfl⟩, hparse⟩
  have hprogram := (parse_ok_iff_nesting_le.1 hparse).1
  obtain ⟨inner, after, r, params, hsplit, hr, hlist⟩ := hprogram.params hk
  exact hlist.not_call hr ht hp hsplit

/-- **A fault can be passed over.**  In `fn f(g(), +) { a }` the call is no parameter, but the
operator after the comma is reported, since no expression starts with it. -/
theorem fault_passed_over :
    ¬ ∀ (source : String) (tokens : List Token) (limit : Nat) (what : Expectation)
      (sighting : Sighting) (i : Nat), Token.tokenize source = .ok tokens →
        tokens.length ≤ limit → parse limit tokens = .error (.expected what sighting) →
          sighting.At tokens i → Viable (tokens.take i) := by
  intro hall
  let read : List Token := [⟨.keyword .fn, "fn", ⟨0, 1, 0⟩⟩, ⟨.identifier "f", "f", ⟨3, 1, 3⟩⟩,
    ⟨.mark .leftParen, "(", ⟨4, 1, 4⟩⟩, ⟨.identifier "g", "g", ⟨5, 1, 5⟩⟩,
    ⟨.mark .leftParen, "(", ⟨6, 1, 6⟩⟩, ⟨.mark .rightParen, ")", ⟨7, 1, 7⟩⟩,
    ⟨.mark .comma, ",", ⟨8, 1, 8⟩⟩]
  let plus : Token := ⟨.operator .add, "+", ⟨10, 1, 10⟩⟩
  let left : List Token := [⟨.mark .rightParen, ")", ⟨11, 1, 11⟩⟩,
    ⟨.mark .leftBrace, "\x7b", ⟨13, 1, 13⟩⟩, ⟨.identifier "a", "a", ⟨15, 1, 15⟩⟩,
    ⟨.mark .rightBrace, "\x7d", ⟨17, 1, 17⟩⟩]
  have htokens : Token.tokenize "fn f(g(), +) \x7b a \x7d" = .ok (read ++ plus :: left) := by
    rw [Token.tokenize_eq_scanWithin]
    rfl
  have hparse : parse 12 (read ++ plus :: left) =
      .error (.expected .expression ⟨some plus.kind.describe, some plus.span⟩) := rfl
  have hplace := Slice.sight_at 12 read (plus :: left)
  have hviable := hall _ _ _ _ _ 7 htokens (by decide) hparse hplace
  exact not_viable_call_parameter rfl rfl rfl _ hviable

end Node

end Abacus
