import Mathlib.Tactic.Common
import Abacus.Proofs.Faults
import Abacus.Proofs.Scanning

/-!
# Where too deep a nesting is reported

A level of nesting is opened by a parenthesis around an expression, by the parenthesis of a call and
by the brace of a block.  When a level would be opened past the limit, exactly as many levels are
open as may be.  A parenthesis around an expression and the brace of a block are then reported
themselves.  The parenthesis of a call is not: it has been taken when the levels are counted, so the
token after it is reported, or the last of all tokens if there is none.  And where a block has to
come, the levels are counted before its brace is looked for, so whatever token stands there is
reported.

## Main definitions

* `Abacus.Token.place` — the place of what comes next, or else of the last token.
* `Abacus.Node.Reported`, `Abacus.Node.TooDeep` — what is reported, and at how many open levels.

## Main results

* `Abacus.Token.openLevels_concat` — only brackets and `fn` change how many levels are open.
* `Abacus.Node.tooDeep_reported` — what is reported, and that as many levels are open as may be.
* `Abacus.Node.tooDeep_reported_past_parenthesis` — it need not be a bracket.
-/

namespace Abacus

open Grammar

namespace Kind

/-- Only brackets and `fn` change how many levels are open. -/
private lemma openAfter_concat {kind : Kind} (h : kind.IsPlain) (params : Bool)
    (brackets : List Bool)
    (kinds : List Kind) :
    openAfter params brackets (kinds ++ [kind]) = openAfter params brackets kinds := by
  fun_induction openAfter params brackets kinds with
  | case1 params brackets => exact openAfter_plain h
  | _ => simp_all [openAfter]

end Kind

namespace Token

/-- Only brackets and `fn` change how many levels are open after some tokens. -/
theorem openLevels_concat {t : Token} (h : t.kind.IsPlain) (tokens : List Token) :
    openLevels (tokens ++ [t]) = openLevels tokens := by
  rw [openLevels, List.map_append]
  exact Kind.openAfter_concat h _ _ _

/-- The place of what comes next, where `rest` of all tokens are left: that of the next token, or
else of the last of all. -/
def place (all rest : List Token) : Option Span := (rest.head?.or all.getLast?).map (·.span)

/-- What is found where some tokens are left has the place of what comes next. -/
lemma sight_span (limit : Nat) (all rest : List Token) :
    ((Slice.ofTokens limit all).sight rest).span = place all rest := by
  cases rest with
  | nil => rfl
  | cons t rest => rfl

end Token

namespace Node

open Token (openLevels place)

/-- What is reported where some tokens have been `read`, others are left, and no further level may
be opened: a parenthesis or a brace itself; or what comes after the parenthesis of a call; or what
stands where a block has to come and does not. -/
inductive Reported (tokens read : List Token) : List Token → Option Span → Prop
  | bracket {l : Token} {rest : List Token} :
      l.kind = .mark .leftParen ∨ l.kind = .mark .leftBrace →
        Reported tokens read (l :: rest) (some l.span)
  | called {t l : Token} {id : String} {rest : List Token} :
      read.getLast? = some t → t.kind = .identifier id → l.kind = .mark .leftParen →
        Reported tokens read (l :: rest) (place tokens rest)
  | blockless {left : List Token} :
      ¬ Leads (.mark .leftBrace) left.head? →
        (∀ l : Token, l.kind = .mark .leftBrace → Token.Viable (read ++ [l])) →
        Reported tokens read left (place tokens left)

/-- How too deep a nesting is reported: the limit is told, and the report is about a place at which
exactly that many levels are open. -/
structure TooDeep (limit : Nat) (tokens : List Token) (depth : Nat)
    (span : Option Span) : Prop where
  depth_eq : depth = limit
  exists_place : ∃ read left, tokens = read ++ left ∧ openLevels read = limit ∧
    Reported tokens read left span

/-- **Where too deep a nesting is reported.**  If some tokens are nested too deep, then the limit is
told, and at some place exactly that many levels are open.  Either the token at that place is a
parenthesis or a brace, and is reported; or it is the parenthesis of a call, and the token after it
is reported; or a block has to come at that place and does not, and the token there is reported.
Where there is no token to report, the last of all is.

**Proof sketch.** A block that has to come either has its brace or not; the other two cases are
those in which reading an expression fails so. -/
theorem tooDeep_reported {limit depth : Nat} {tokens : List Token} {span : Option Span}
    (h : parse limit tokens = .error (.nestingTooDeep depth span)) :
    TooDeep limit tokens depth span := by
  generalize he : ParseError.nestingTooDeep depth span = e at h
  cases parse_faults h with
  | snag hsnag =>
    cases hsnag with
    | wanted => cases he
    | @group read left l hl hread =>
      cases he
      exact ⟨rfl, read, l :: left, rfl, hread, .bracket (.inl hl)⟩
    | @call read left t l id ht hl hread =>
      obtain ⟨rfl, rfl⟩ := ParseError.nestingTooDeep.inj he
      have hplain : t.kind.IsPlain := by
        rw [ht]
        trivial
      refine ⟨rfl, read ++ [t], l :: left, by simp, ?_, ?_⟩
      · rw [Token.openLevels_concat hplain, hread]
      · rw [Token.sight_span]
        exact .called List.getLast?_concat ht hl
  | @block read left hread hviable =>
    obtain ⟨rfl, rfl⟩ := ParseError.nestingTooDeep.inj he
    refine ⟨rfl, read, left, rfl, hread, ?_⟩
    by_cases hbrace : Leads (.mark .leftBrace) left.head?
    · cases left with
      | nil => exact absurd hbrace (not_leads_none _)
      | cons l rest => exact .bracket (.inr (leads_some_iff.1 hbrace))
    · rw [Token.sight_span]
      exact .blockless hbrace hviable
  | unclosed => cases he
  | masked => cases he

/-- In `if a { f(b) }` the call opens a second level.  Under a limit of one the name `b` is
reported, and one level is open before the parenthesis of the call. -/
theorem tooDeep_reported_in_block :
    let b : Token := ⟨.identifier "b", "b", ⟨9, 1, 9⟩⟩
    let l : Token := ⟨.mark .leftParen, "(", ⟨8, 1, 8⟩⟩
    let read : List Token := [⟨.keyword .if_, "if", ⟨0, 1, 0⟩⟩, ⟨.identifier "a", "a", ⟨3, 1, 3⟩⟩,
      ⟨.mark .leftBrace, "\x7b", ⟨5, 1, 5⟩⟩, ⟨.identifier "f", "f", ⟨7, 1, 7⟩⟩]
    let left : List Token := [⟨.mark .rightParen, ")", ⟨10, 1, 10⟩⟩,
      ⟨.mark .rightBrace, "\x7d", ⟨12, 1, 12⟩⟩]
    let tokens : List Token := read ++ l :: b :: left
    parse 1 tokens = .error (.nestingTooDeep 1 (some b.span)) ∧ openLevels read = 1 ∧
      TooDeep 1 tokens 1 (some b.span) := by
  intro b l read left tokens
  have hparse : parse 1 tokens = .error (.nestingTooDeep 1 (some b.span)) := rfl
  exact ⟨hparse, rfl, tooDeep_reported hparse⟩

/-- **What is reported need not be a bracket**: in `f(a)`, under a limit of zero, it is `a`. -/
theorem tooDeep_reported_past_parenthesis :
    ¬ ∀ (source : String) (tokens : List Token) (limit depth : Nat) (span : Option Span),
      Token.tokenize source = .ok tokens →
        parse limit tokens = .error (.nestingTooDeep depth span) →
          ∃ read l rest, tokens = read ++ l :: rest ∧ openLevels read = limit ∧
            (l.kind = .mark .leftParen ∨ l.kind = .mark .leftBrace) ∧ span = some l.span := by
  intro hall
  let tokens : List Token := [⟨.identifier "f", "f", ⟨0, 1, 0⟩⟩, ⟨.mark .leftParen, "(", ⟨1, 1, 1⟩⟩,
    ⟨.identifier "a", "a", ⟨2, 1, 2⟩⟩, ⟨.mark .rightParen, ")", ⟨3, 1, 3⟩⟩]
  have htokens : Token.tokenize "f(a)" = .ok tokens := by
    rw [Token.tokenize_eq_scanWithin]
    rfl
  have hparse : parse 0 tokens = .error (.nestingTooDeep 0 (some ⟨2, 1, 2⟩)) := rfl
  obtain ⟨read, l, rest, hsplit, -, hl, hspan⟩ := hall _ _ _ _ _ htokens hparse
  have hmem : l ∈ tokens := hsplit ▸ List.mem_append_cons_self
  -- the only token at that place is the name
  simp only [tokens, List.mem_cons, List.not_mem_nil, or_false] at hmem
  rcases hmem with rfl | rfl | rfl | rfl <;> simp_all

end Node

end Abacus
