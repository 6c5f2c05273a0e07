import Mathlib.Tactic.Common
import Abacus.Proofs.Lexemes

/-!
# Splitting a text into lexemes

A text is split by writing it as gaps and lexemes in turn, with a gap at the end, such that no
lexeme is joined by the character after it.  Scanning finds such a splitting where there is one, and
there is at most one.

A splitting may also stop in front of the rest of a text, which then has a say in where the last
lexeme ends.  So every text has a splitting in front of the first place that cannot be read.

## Main definitions

* `Abacus.Piece` — a lexeme with the gap in front of it.
* `Abacus.Splitting` — a text as pieces, and a gap after them.

## Main results

* `Abacus.Splitting.scan` — scanning reads the pieces of a splitting.
* `Abacus.Splitting.unique` — a text has at most one splitting.
* `Abacus.exists_splitting` — every text is split up to its end, or to a place that no rule reads.
* `Abacus.Token.tokenize_iff_splitting` — tokens are what a text is split into.
-/

namespace Abacus

open Token (Gap Solid)

/-- A lexeme with its kind and with the gap in front of it. -/
structure Piece where
  gap : List Char
  lexeme : List Char
  kind : Kind

/-- The tokens of some pieces of a text that starts at the place `s`. -/
def Piece.tokens (s : Span) : List Piece → List Token
  | [] => []
  | p :: pieces =>
    ⟨p.kind, String.ofList p.lexeme, s.advance p.gap⟩ ::
      tokens ((s.advance p.gap).advance p.lexeme) pieces

/-- A text as pieces and a gap after them, in front of the rest of the text: a gap is blanks and
comments, and no lexeme is joined by the character after it. -/
inductive Splitting (rest : List Char) : List Char → List Piece → List Char → Prop
  | last {gap : List Char} : Gap rest gap → Splitting rest gap [] gap
  | piece {p : Piece} {text last : List Char} {pieces : List Piece} :
      Gap (p.lexeme ++ (text ++ rest)) p.gap → Lexeme p.lexeme p.kind →
        (∀ c ∈ (text ++ rest).head?, ¬ p.kind.Joins p.lexeme c) →
          Splitting rest text pieces last →
            Splitting rest (p.gap ++ (p.lexeme ++ text)) (p :: pieces) last

/-! ## Scanning reads the pieces -/

/-- A piece that nothing joins is read first. -/
lemma Piece.scan {p : Piece} {rest : List Char} (hgap : Gap (p.lexeme ++ rest) p.gap)
    (hlexeme : Lexeme p.lexeme p.kind) (hstops : ∀ c ∈ rest.head?, ¬ p.kind.Joins p.lexeme c)
    (s : Span) :
    Token.scan s (p.gap ++ (p.lexeme ++ rest)) =
      (Token.scan ((s.advance p.gap).advance p.lexeme) rest).map
        (⟨p.kind, String.ofList p.lexeme, s.advance p.gap⟩ :: ·) := by
  have hskip : Token.skipTrivia s (p.gap ++ (p.lexeme ++ rest)) =
      (s.advance p.gap, p.lexeme ++ rest) :=
    Token.skipTrivia_eq_iff.2 ⟨p.gap, rfl, hgap, hlexeme.solid_append hstops, rfl⟩
  obtain ⟨rule, hread⟩ := hlexeme.first?_append hstops
  exact Token.scan_of_match (m := ⟨rule, p.lexeme, p.kind⟩) hskip hread

namespace Splitting

variable {rest text last : List Char} {pieces : List Piece}

/-- **Scanning reads the pieces of a splitting**, and goes on with the rest of the text. -/
theorem scan (h : Splitting rest text pieces last) (s : Span) :
    Token.scan s (text ++ rest) =
      (Token.scan (s.advance text) rest).map (Piece.tokens s pieces ++ ·) := by
  induction h generalizing s with
  | @last gap hgap =>
    rw [Token.scan_congr (hgap.skipTrivia s)]
    cases Token.scan (s.advance gap) rest <;> rfl
  | @piece p text last pieces hgap hlexeme hstops _ ih =>
    have happend : p.gap ++ (p.lexeme ++ text) ++ rest = p.gap ++ (p.lexeme ++ (text ++ rest)) := by
      simp
    rw [happend, Piece.scan hgap hlexeme hstops, ih, Span.advance_append, Span.advance_append]
    cases Token.scan (((s.advance p.gap).advance p.lexeme).advance text) rest <;> rfl

/-- Where the rest of a text cannot be read, scanning fails there. -/
lemma scan_of_stuck (h : Splitting rest text pieces last) (hrest : rest ≠ [])
    (hsolid : Solid rest) (hstuck : Match.first? rest = none) (s : Span) :
    Token.scan s (text ++ rest) = .error
      ⟨s.advance text, String.ofList (rest.takeWhile fun c => !Text.isBlank c)⟩ := by
  rw [h.scan, Token.scan_of_stuck (Token.skipTrivia_of_solid hsolid _) hrest hstuck]
  rfl

/-- The tokens of a text with a splitting are its pieces. -/
lemma tokenize {source : String} (h : Splitting [] source.toList pieces last) :
    Token.tokenize source = .ok (Piece.tokens .start pieces) := by
  have hscan := h.scan .start
  have hend : ∀ s, Token.scan s [] = .ok [] := fun s =>
    Token.scan_of_end (Token.skipTrivia_of_solid Token.solid_nil s)
  rw [List.append_nil, hend] at hscan
  rw [Token.tokenize, hscan]
  simp [Except.map]

/-- **A text has at most one splitting.**

**Proof sketch.** Induction on the first splitting.  Both split the text into a first gap and
something else, so the first gaps are the same, and so are the lexemes after them, if any. -/
theorem unique (h : Splitting [] text pieces last) :
    ∀ {text' last' : List Char} {pieces' : List Piece}, Splitting [] text' pieces' last' →
      text = text' → pieces = pieces' ∧ last = last' := by
  induction h with
  | @last gap hgap =>
    intro text' last' pieces' h' htext
    cases h' with
    | last hgap' => exact ⟨rfl, htext⟩
    | @piece p text _ _ hgap' hlexeme hstops _ =>
      rw [List.append_nil] at hgap' hstops
      rw [← List.append_nil gap] at htext
      have hsolid := hlexeme.solid_append hstops
      -- the gap takes up the whole text, so nothing is left for a lexeme
      have hnil := (hgap.unique Token.solid_nil hgap' hsolid htext).2
      exact absurd hnil.symm (hlexeme.append_ne_nil hstops)
  | @piece p text _ _ hgap hlexeme hstops _ ih =>
    intro text' last' pieces' h' htext
    -- the splitting is one of a whole text, after which nothing stands
    rw [List.append_nil] at hgap hstops
    have hsolid := hlexeme.solid_append hstops
    cases h' with
    | last hgap' =>
      rw [← List.append_nil text'] at htext
      have hnil := (hgap.unique hsolid hgap' Token.solid_nil htext).2
      exact absurd hnil (hlexeme.append_ne_nil hstops)
    | @piece p' text' _ _ hgap' hlexeme' hstops' h' =>
      rw [List.append_nil] at hgap' hstops'
      have hsolid' := hlexeme'.solid_append hstops'
      obtain ⟨hgap_eq, hrest⟩ := hgap.unique hsolid hgap' hsolid' htext
      obtain ⟨hlexeme_eq, hkind, htext⟩ := hlexeme.unique hstops hlexeme' hstops' hrest
      obtain ⟨hpieces, hlast⟩ := ih h' htext
      refine ⟨?_, hlast⟩
      rw [hpieces, show p = p' from congr (congr (congrArg Piece.mk hgap_eq) hlexeme_eq) hkind]

end Splitting

/-- **Every text is split** up to its end, or to a place that no rule reads. -/
theorem exists_splitting (cs : List Char) :
    ∃ text rest pieces last, cs = text ++ rest ∧ Splitting rest text pieces last ∧ Solid rest ∧
      Match.first? rest = none := by
  refine Token.scan_induction (P := fun _ cs => ∃ text rest pieces last, cs = text ++ rest ∧
    Splitting rest text pieces last ∧ Solid rest ∧ Match.first? rest = none) ?_ ?_ ?_ .start cs
  · intro s t cs hskip
    obtain ⟨gap, rfl, hgap, hsolid, -⟩ := Token.skipTrivia_eq_iff.1 hskip
    exact ⟨gap, [], [], gap, rfl, .last hgap, hsolid, rfl⟩
  · intro s t cs rest m hskip hm ih
    obtain ⟨gap, rfl, hgap, hsolid, -⟩ := Token.skipTrivia_eq_iff.1 hskip
    obtain ⟨text, left, pieces, last, rfl, hsplit, hend⟩ := ih
    obtain ⟨hlexeme, hstops⟩ := Match.lexeme_of_first? hm hsolid
    refine ⟨gap ++ (m.lexeme ++ text), left, ⟨gap, m.lexeme, m.kind⟩ :: pieces, last, by simp, ?_,
      hend⟩
    exact .piece (p := ⟨gap, m.lexeme, m.kind⟩) hgap hlexeme hstops hsplit
  · intro s t cs rest hskip hrest hm
    obtain ⟨gap, rfl, hgap, hsolid, -⟩ := Token.skipTrivia_eq_iff.1 hskip
    exact ⟨gap, rest, [], gap, rfl, .last hgap, hsolid, hm⟩

/-! ## Tokens are what a text is split into -/

/-- The tokens of pieces have their lexemes and kinds. -/
lemma Piece.map_tokens (s : Span) (pieces : List Piece) :
    (Piece.tokens s pieces).map (fun t => (t.lexeme, t.kind)) =
      pieces.map fun p => (String.ofList p.lexeme, p.kind) := by
  induction pieces generalizing s with
  | nil => rfl
  | cons p pieces ih => rw [Piece.tokens, List.map_cons, List.map_cons, ih]

/-- A text that is read has a splitting. -/
lemma Token.splitting_of_tokenize {source : String} {tokens : List Token}
    (h : tokenize source = .ok tokens) :
    ∃ pieces last, Splitting [] source.toList pieces last := by
  obtain ⟨text, rest, pieces, last, htext, hsplit, hsolid, hstuck⟩ :=
    exists_splitting source.toList
  by_cases hrest : rest = []
  · rw [hrest, List.append_nil] at htext
    exact ⟨pieces, last, htext ▸ hrest ▸ hsplit⟩
  · rw [tokenize, htext, hsplit.scan_of_stuck hrest hsolid hstuck] at h
    cases h

namespace Token

/-- **Tokens are what a text is split into.**  A text is read as some lexemes with their kinds
exactly if it is these lexemes, each wholly a number, an operator, a word or a punctuation mark of
its kind, with gaps before, between and after them, where neither a digit joins a number or a minus
sign, nor a point a number that has none, nor a letter, a digit, `_` or `$` a word, nor a slash a
slash.  There is at most one way to split a text so. -/
theorem tokenize_iff_splitting (source : String) :
    (∀ lexemes : List (String × Kind),
      (∃ tokens, tokenize source = .ok tokens ∧
          tokens.map (fun t => (t.lexeme, t.kind)) = lexemes) ↔
        ∃ pieces last, Splitting [] source.toList pieces last ∧
          pieces.map (fun p => (String.ofList p.lexeme, p.kind)) = lexemes) ∧
      ∀ {pieces pieces' : List Piece} {last last' : List Char},
        Splitting [] source.toList pieces last → Splitting [] source.toList pieces' last' →
          pieces = pieces' ∧ last = last' := by
  refine ⟨fun lexemes => ⟨?_, ?_⟩, fun h h' => h.unique h' rfl⟩
  · rintro ⟨tokens, hread, rfl⟩
    obtain ⟨pieces, last, hsplit⟩ := splitting_of_tokenize hread
    rw [hsplit.tokenize] at hread
    cases hread
    exact ⟨pieces, last, hsplit, (Piece.map_tokens .start pieces).symm⟩
  · rintro ⟨pieces, last, hsplit, rfl⟩
    exact ⟨_, hsplit.tokenize, Piece.map_tokens .start pieces⟩

/-- A name, a negative number that ends with its point, and a comment up to the end of the text. -/
theorem tokenize_iff_splitting_comment :
    ∃ pieces last, Splitting [] "f-2.//5".toList pieces last ∧
      (∃ tokens, tokenize "f-2.//5" = .ok tokens ∧ tokens.map (fun t => (t.lexeme, t.kind)) =
        [("f", .identifier "f"), ("-2.", .number (Decimal.ofDigits true ['2'] [] 0).toFloat)]) ∧
      ∀ {pieces' last'}, Splitting [] "f-2.//5".toList pieces' last' →
        pieces = pieces' ∧ last = last' := by
  have htext : "f-2.//5".toList = ['f', '-', '2', '.', '/', '/', '5'] := rfl
  have hname : Lexeme "f".toList (.identifier "f") := .identifier (by decide)
  have hspells : Decimal.Spells (Decimal.sign true ++ (['2'] ++ ['.']))
      (Decimal.ofDigits true ['2'] [] 0) :=
    .fraction (List.cons_ne_nil '2' []) (List.forall_mem_singleton.2 (by decide))
      (List.forall_mem_nil _)
  have hcomment : Gap [] ('/' :: '/' :: (['5'] ++ [])) := .comment (by decide) (.inl rfl) .nil
  have hsplit : Splitting [] ['f', '-', '2', '.', '/', '/', '5']
      [⟨[], ['f'], .identifier "f"⟩,
        ⟨[], ['-', '2', '.'], .number (Decimal.ofDigits true ['2'] [] 0).toFloat⟩]
      ['/', '/', '5'] := by
    refine .piece (p := ⟨[], ['f'], _⟩) .nil hname ?_
      (.piece (p := ⟨[], ['-', '2', '.'], _⟩) .nil (.number hspells) ?_ (.last hcomment))
    · rintro c ⟨⟩
      exact (by decide : ¬ Rule.continuesName '-' = true)
    · rintro c ⟨⟩
      simp [Kind.Joins]
  rw [← htext] at hsplit
  refine ⟨_, _, hsplit, ((tokenize_iff_splitting _).1 _).2 ⟨_, _, hsplit, rfl⟩, ?_⟩
  exact (tokenize_iff_splitting _).2 hsplit

end Token

end Abacus
