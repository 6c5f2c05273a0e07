import Mathlib.Tactic.Common
import Abacus.Proofs.NestingLimit

/-!
# Where a parse error points

A rule of the grammar sees a slice of the tokens: all of them, or the body of a block, with the
brace that closes it.  Whatever rule fails, its error points at a real token of its slice, or at
that brace.  The end of the input is reported only where the slice is not closed by a brace, and
then the error points at the last of all tokens.

The search for the end of a block fails only among all tokens: in the body of a block every opening
brace is closed.  So it is never in a block that a closing brace is missed.

This is what a reader keeps while it reads, so it is a pairing of the reader with itself.

## Main definitions

* `Abacus.ParseError.Points` — an error that points at a real token.
* `Abacus.Slice.Covers` — what holds of the slices that are read.
* `Abacus.Parse.placing` — a reader whose errors point at real tokens.

## Main results

* `Abacus.Parse.braced_placing` — blocks, from their contents.
* `Abacus.Parse.program_placing` — all rules of the language.
* `Abacus.Node.parse_error_points_at_token` — every parse error points at a real token.
-/

namespace Abacus

/-- An error that points at a real token, where a slice has the tokens `all` and perhaps a brace
that closes it: at one of these, with that token in words; or else, at the end of the input, at the
last token of a slice that is not closed.  Only there a closing brace is wanted. -/
inductive ParseError.Points (all : List Token) (closing : Option Token) : ParseError → Prop
  | token {what : Expectation} {t : Token} : t ∈ all ++ closing.toList →
      what ≠ .text Mark.rightBrace.quoted →
        Points all closing (.expected what ⟨some t.kind.describe, some t.span⟩)
  | last {what : Expectation} {t : Token} : closing = none → all.getLast? = some t →
      Points all closing (.expected what ⟨none, some t.span⟩)
  | tooDeep {limit : Nat} {t : Token} : t ∈ all ++ closing.toList →
      Points all closing (.nestingTooDeep limit (some t.span))

/-- An error in the body of a block points at a real token of the slice that the block is in. -/
lemma ParseError.Points.of_body {all body : List Token} {closing : Token} {outer : Option Token}
    {e : ParseError} (h : e.Points body (some closing))
    (hall : ∀ t ∈ body ++ [closing], t ∈ all) : e.Points all outer := by
  cases h with
  | token ht hwhat => exact .token (List.mem_append_left _ (hall _ ht)) hwhat
  | last hnone => cases hnone
  | tooDeep ht => exact .tooDeep (List.mem_append_left _ (hall _ ht))

/-- What holds of a slice with the tokens `all`: it knows the last of them, and if it is not closed
by a brace there is one.  If it is closed, every brace that is opened in it is closed in it. -/
structure Slice.Covers (s : Slice) (all : List Token) : Prop where
  last : s.last = all.getLast?
  inhabited : s.closing = none → all ≠ []
  matched : s.closing ≠ none → Parse.Matched all

namespace Slice.Covers

variable {s : Slice} {all tokens : List Token}

/-- A slice without a closing brace has a last token to point at. -/
lemma exists_last (hs : s.Covers all) (hclosing : s.closing = none) :
    ∃ t, all.getLast? = some t :=
  ⟨_, List.getLast?_eq_some_getLast (hs.inhabited hclosing)⟩

/-- What stands where some tokens of the slice are left: a token of the slice, or the brace that
closes it, or nothing, with the last token of the slice to point at. -/
lemma sight_eq (hs : s.Covers all) (htokens : tokens <:+ all) :
    (∃ t ∈ all ++ s.closing.toList, s.sight tokens = ⟨some t.kind.describe, some t.span⟩) ∨
      ∃ t, s.closing = none ∧ all.getLast? = some t ∧ s.sight tokens = ⟨none, some t.span⟩ := by
  unfold Slice.sight
  cases tokens with
  | cons t rest =>
    exact .inl ⟨t, List.mem_append_left _ (htokens.subset List.mem_cons_self), rfl⟩
  | nil =>
    cases hclosing : s.closing with
    | some t => exact .inl ⟨t, by simp, rfl⟩
    | none =>
      obtain ⟨t, ht⟩ := hs.exists_last hclosing
      refine .inr ⟨t, rfl, ht, ?_⟩
      simp [hs.last, ht]

/-- What is wanted where some tokens of the slice are left is wanted at a real token. -/
private lemma points_expected (hs : s.Covers all) (htokens : tokens <:+ all) {what : Expectation}
    (hwhat : what ≠ .text Mark.rightBrace.quoted) :
    (ParseError.expected what (s.sight tokens)).Points all s.closing := by
  rcases hs.sight_eq htokens with ⟨t, ht, hsight⟩ | ⟨t, hclosing, ht, hsight⟩
  · rw [hsight]
    exact .token ht hwhat
  · rw [hsight]
    exact .last hclosing ht

/-- A level that is opened where some tokens of the slice are left is refused at a real token. -/
private lemma points_tooDeep (hs : s.Covers all) (htokens : tokens <:+ all) :
    (ParseError.nestingTooDeep s.limit (s.sight tokens).span).Points all s.closing := by
  rcases hs.sight_eq htokens with ⟨t, ht, hsight⟩ | ⟨t, -, ht, hsight⟩
  · rw [hsight]
    exact .tooDeep ht
  · rw [hsight]
    exact .tooDeep (List.mem_append_left _ (List.mem_of_getLast? ht))

/-- Where a brace is opened that is not closed, neither is the slice. -/
private lemma closing_eq_none (hs : s.Covers all) {l : Token} (htokens : l :: tokens <:+ all)
    (hl : l.kind = .mark .leftBrace) (hopen : Parse.enclosed? 0 tokens = none) :
    s.closing = none := by
  by_contra hclosed
  obtain ⟨found, hfound⟩ := hs.matched hclosed htokens hl
  rw [hopen] at hfound
  cases hfound

end Slice.Covers

namespace Parse

variable {s : Slice} {all : List Token}

/-! ## Readers whose errors point at real tokens -/

/-- A plain reader in a slice with the tokens `all`, beside itself: its errors point at real tokens,
and what it has left are tokens from the end of the slice. -/
def placing (hs : s.Covers all) : Pairing (List Token) (List Token) where
  slice := s
  slice' := s
  Start tokens tokens' := tokens = tokens' ∧ tokens <:+ all
  Fails _ _ e := e.Points all s.closing
  Seen t := t ∈ all
  Cuts := False
  same_slice := rfl
  left_eq h := h.1.symm
  moved h hsuffix := ⟨rfl, hsuffix.trans h.2⟩
  seen h ht := h.2.subset ht
  expected h hwhat := hs.points_expected h.2 hwhat
  unnamed _ ht := .token (List.mem_append_left _ ht) (by decide)
  back h he := ⟨⟨rfl, h.2⟩, he⟩

/-- Failing at the limit points at a real token. -/
lemma failTooDeep_placing (hs : s.Covers all) (α : Type) :
    Pairs (placing hs) 0 (failTooDeep : Plain α) failTooDeep Any := by
  rintro tokens _ ⟨rfl, htokens⟩
  exact .error (hs.points_tooDeep htokens) List.suffix_rfl

/-- **Expressions** fail at real tokens. -/
private lemma expression_placing (hs : s.Covers all) (levels : Nat) :
    Pairs (placing hs) 0 (Plain.expression levels) (Plain.expression levels) Any :=
  expression_pairs id (failTooDeep_placing hs) levels

/-! ## Blocks and programs -/

/-- Contents of blocks whose errors point at real tokens, in all slices that are read. -/
def ContentsPlace (contents : Plain Block) : Prop :=
  ∀ ⦃s : Slice⦄ ⦃all : List Token⦄ (hs : s.Covers all), Pairs (placing hs) 0 contents contents Any

/-- The body of a block, with the brace that closes it, is a slice that is read. -/
lemma covers_body {tokens : List Token} {found : Enclosed} (h : enclosed? 0 tokens = some found)
    (limit : Nat) :
    (Slice.mk limit found.body.getLast? (some found.closing)).Covers found.body where
  last := rfl
  inhabited := nofun
  matched _ := matched_body h

/-- **A block that has an end** is read up to it, or fails at a token of its body or at its closing
brace. -/
private lemma braced_of_enclosed? {contents : Plain Block} (h : ContentsPlace contents) {l : Token}
    (hl : l.kind = .mark .leftBrace) {tokens : List Token} {found : Enclosed}
    (hfound : enclosed? 0 tokens = some found) (s : Slice) :
    (∃ block, braced contents s (l :: tokens) = .ok block found.rest) ∨
      ∃ e, braced contents s (l :: tokens) = .error e tokens ∧
        e.Points found.body (some found.closing) := by
  have hbody : Meets _ _ _ _ _ _ := h (covers_body hfound s.limit) ⟨rfl, List.suffix_rfl⟩
  obtain ⟨body, closing, rest⟩ := found
  rw [braced, bind_run, expectMark_of_left rfl hl]
  simp only [enclosed, Reading.left_list, Reading.leave_list, Reading.enter_list, hfound]
  simp only [placing] at hbody
  generalize contents ⟨s.limit, body.getLast?, some closing⟩ body = r at hbody ⊢
  cases hbody with
  | ok => exact .inl ⟨_, rfl⟩
  | error he => exact .inr ⟨_, rfl, he⟩
  | cut hcut => exact hcut.elim

/-- **Blocks**, from their contents.

**Proof sketch.** If the search for the end of the block fails, the slice is not closed, since a
closed one closes every brace that is opened in it; so the error may point at the last of all
tokens.  Otherwise the tokens of the body and its closing brace are tokens of the slice. -/
theorem braced_placing (hs : s.Covers all) {contents : Plain Block} (h : ContentsPlace contents) :
    Pairs (placing hs) 0 (braced contents) (braced contents) Any := by
  refine braced_pairs ?_ ?_
  · rintro tokens _ l rest ⟨rfl, htokens⟩ hleft hl hopen
    -- only the slice of all tokens can leave a brace open
    have hclosing := hs.closing_eq_none (hleft ▸ htokens) hl hopen
    obtain ⟨t, ht⟩ := hs.exists_last hclosing
    have hlast : (placing hs).slice.last.map (·.span) = some t.span := by
      simp [placing, hs.last, ht]
    rw [hlast]
    exact .last hclosing ht
  · rintro tokens _ found ⟨rfl, htokens⟩ hfound
    rw [Reading.left_list] at hfound
    refine ⟨placing (covers_body hfound s.limit), ⟨rfl, rfl, ⟨rfl, List.suffix_rfl⟩, ?_, id⟩, h _⟩
    intro failed failed' e he
    refine he.of_body fun t ht => htokens.subset ?_
    rw [(enclosed?_eq_some hfound).1, List.append_cons]
    exact List.mem_append_left found.rest ht

/-- Statements, from the rule for blocks. -/
lemma statement_placing_of_block (hs : s.Covers all) {levels : Nat}
    (hb : Pairs (placing hs) 0 (Plain.block levels) (Plain.block levels) Any) :
    Pairs (placing hs) 0 (Plain.statement levels) (Plain.statement levels) Any := by
  have hexpression := expression_placing hs levels
  have hlist := commaList_pairs (fun hcut => absurd hcut id) hexpression
  exact (statementWith_pairs (hexpression.of_not_cuts id) hlist hb).mono (Nat.le_succ _)

/-- Blocks fail at real tokens.

**Proof sketch.** Induction on the levels of nesting that may be opened: the contents of a block may
open one level less. -/
private lemma block_placing (levels : Nat) : ∀ {s : Slice} {all : List Token} (hs : s.Covers all),
    Pairs (placing hs) 0 (Plain.block levels) (Plain.block levels) Any := by
  induction levels with
  | zero => exact fun hs => failTooDeep_placing hs Block
  | succ levels ih =>
    intro s all hs
    exact braced_placing hs fun _ _ hs' =>
      allStatements_pairs (statement_placing_of_block hs' (ih hs'))

/-- **All rules of the language** fail at real tokens. -/
theorem program_placing (levels : Nat) : ContentsPlace (Plain.program levels) :=
  fun _ _ hs => allStatements_pairs (statement_placing_of_block hs (block_placing levels hs))

end Parse

namespace Node

open Parse

/-- All tokens, of which there is one at least, are a slice that is read. -/
private lemma covers_ofTokens {tokens : List Token} (h : tokens ≠ []) (limit : Nat) :
    (Slice.ofTokens limit tokens).Covers tokens where
  last := rfl
  inhabited _ := h
  matched hclosed := absurd rfl hclosed

/-- An error of reading all tokens points at one of them. -/
lemma points_of_parse {limit : Nat} {tokens : List Token} {e : ParseError}
    (h : parse limit tokens = .error e) : e.Points tokens none := by
  -- without tokens there is nothing to point at, but the empty program is read under any limit
  have hne : tokens ≠ [] := by
    rintro rfl
    rw [parse_ok_iff_nesting_le.2 ⟨.nil, Nat.zero_le limit⟩] at h
    cases h
  have hplaced : Meets _ _ _ _ _ _ :=
    program_placing limit (covers_ofTokens hne limit) ⟨rfl, List.suffix_rfl⟩
  obtain ⟨rest, hprogram⟩ := parse_eq_error_iff.1 h
  simp only [placing, hprogram] at hplaced
  cases hplaced with
  | error he => exact he
  | cut hcut => exact hcut.elim

/-- **Every parse error points at a real token.**  Where reading all tokens fails, the error has the
place of a token.  What was found, if anything was, is that token in words.  If nothing was found,
it is the last of all tokens.  It is only there that a closing brace is wanted.

Where a block has an end and reading it fails, the error points at a token of its body or at its
closing brace, and that token was found: the end of the input is never reported there, and a closing
brace is never wanted. -/
theorem parse_error_points_at_token :
    (∀ (limit : Nat) (tokens : List Token) (e : ParseError), parse limit tokens = .error e →
      ∃ t ∈ tokens, e.span = some t.span ∧ ∀ what sighting, e = .expected what sighting →
        (∀ text, sighting.found = some text → text = t.kind.describe) ∧
        (sighting.found = none → tokens.getLast? = some t) ∧
        (what = .text Mark.rightBrace.quoted → sighting.found = none)) ∧
    ∀ (s : Slice) (depth : Nat) (l : Token) (tokens : List Token) (block : Enclosed)
      (e : ParseError) (failed : Place), depth < s.limit → l.kind = .mark .leftBrace →
        enclosed? 0 tokens = some block →
        here Parse.block s ⟨l :: tokens, depth⟩ = .error e failed →
          ∃ t ∈ block.body ++ [block.closing], e.span = some t.span ∧
            ∀ what sighting, e = .expected what sighting →
              sighting.found = some t.kind.describe ∧ what ≠ .text Mark.rightBrace.quoted := by
  constructor
  · intro limit tokens e h
    cases points_of_parse h with
    | @token what t ht hwhat =>
      rw [Option.toList_none, List.append_nil] at ht
      refine ⟨t, ht, rfl, ?_⟩
      rintro _ _ ⟨⟩
      exact ⟨fun text htext => (Option.some.inj htext).symm, nofun, fun h => absurd h hwhat⟩
    | @last what t _ ht =>
      refine ⟨t, List.mem_of_getLast? ht, rfl, ?_⟩
      rintro _ _ ⟨⟩
      exact ⟨nofun, fun _ => ht, fun _ => rfl⟩
    | @tooDeep limit t ht =>
      rw [Option.toList_none, List.append_nil] at ht
      exact ⟨t, ht, rfl, nofun⟩
  · intro s depth l tokens block e failed hdepth hl hblock h
    rw [block_run, restored_eq_error_iff] at h
    obtain ⟨levels, hlevels⟩ : ∃ n, s.limit - depth = n + 1 := ⟨s.limit - depth - 1, by omega⟩
    rw [hlevels] at h
    replace h := h.1
    rcases braced_of_enclosed? (program_placing levels) hl hblock s with
      ⟨_, hread⟩ | ⟨e', hfail, he⟩
    · cases hread.symm.trans h
    · cases hfail.symm.trans h
      cases he with
      | @token what t ht hwhat =>
        refine ⟨t, ht, rfl, ?_⟩
        rintro _ _ ⟨⟩
        exact ⟨rfl, hwhat⟩
      | last hnone => cases hnone
      | @tooDeep limit t ht => exact ⟨t, ht, rfl, nofun⟩

/-- The tokens of `if a { b`, where the block has no end, and those of `{ b + }`, where an operand
is missing right before the end of the block. -/
theorem parse_error_points_at_token_block :
    let l : Token := ⟨.mark .leftBrace, "\x7b", ⟨5, 1, 5⟩⟩
    let b : Token := ⟨.identifier "b", "b", ⟨7, 1, 7⟩⟩
    let plus : Token := ⟨.operator .add, "+", ⟨9, 1, 9⟩⟩
    let r : Token := ⟨.mark .rightBrace, "\x7d", ⟨11, 1, 11⟩⟩
    let tokens : List Token :=
      [⟨.keyword .if_, "if", ⟨0, 1, 0⟩⟩, ⟨.identifier "a", "a", ⟨3, 1, 3⟩⟩, l, b]
    let missing : ParseError := .expected (.text Mark.rightBrace.quoted) ⟨none, some b.span⟩
    let dangling : ParseError := .expected .expression ⟨some r.kind.describe, some r.span⟩
    (parse 1 tokens = .error missing ∧
        ∃ t ∈ tokens, some b.span = some t.span ∧ tokens.getLast? = some t) ∧
      enclosed? 0 [b, plus, r] = some ⟨[b, plus], r, []⟩ ∧
      here Parse.block (.ofTokens 1 []) ⟨[l, b, plus, r], 0⟩ =
        .error dangling ⟨[b, plus, r], 0⟩ ∧
      ∃ t ∈ [b, plus, r], some r.span = some t.span ∧
        some r.kind.describe = some t.kind.describe := by
  intro l b plus r tokens missing dangling
  have hmissing : parse 1 tokens = .error missing := rfl
  have hblock : enclosed? 0 [b, plus, r] = some ⟨[b, plus], r, []⟩ := rfl
  have hdangling : here Parse.block (.ofTokens 1 []) ⟨[l, b, plus, r], 0⟩ =
      .error dangling ⟨[b, plus, r], 0⟩ := rfl
  obtain ⟨hall, hbody⟩ := parse_error_points_at_token
  obtain ⟨t, ht, hspan, hlast⟩ := hall 1 tokens missing hmissing
  obtain ⟨t', ht', hspan', hfound⟩ := hbody _ 0 l _ _ dangling _ Nat.one_pos rfl hblock hdangling
  exact ⟨⟨hmissing, t, ht, hspan, (hlast _ _ rfl).2.1 rfl⟩, hblock, hdangling, t', ht', hspan',
    (hfound _ _ rfl).1⟩

end Node

end Abacus
