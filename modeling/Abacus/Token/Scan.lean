import Abacus.Failure
import Abacus.Text.Blank
import Abacus.Token.Rule

/-!
# Scripts as tokens

A script is read from left to right.  Blanks and comments are skipped, then the rule table reads
a token, until the text is used up or no rule applies.  A comment starts with two slashes and
lasts to the end of its line.

## Main definitions

* `Abacus.Token.skipTrivia` — skips blanks and comments, keeping count of the place.
* `Abacus.Token.scan` — the tokens from a place on.
* `Abacus.Token.tokenize` — the tokens of a script, or the first place that no rule reads.

## Main results

* `Abacus.Token.skipTrivia_suffix` — skipping leaves an end of the text.
-/

namespace Abacus

namespace Token

open Text (isBlank)

mutual

/-- Skips blanks and comments: the place and the text after them. -/
def skipTrivia (s : Span) : List Char → Span × List Char
  | '/' :: '/' :: cs => skipComment ((s.step '/').step '/') cs
  | c :: cs => if isBlank c then skipTrivia (s.step c) cs else (s, c :: cs)
  | [] => (s, [])

/-- Skips the rest of a comment, and blanks and comments after it. -/
def skipComment (s : Span) : List Char → Span × List Char
  | '\n' :: cs => skipTrivia (s.step '\n') cs
  | c :: cs => skipComment (s.step c) cs
  | [] => (s, [])

end

mutual

/-- Skipping blanks and comments leaves an end of the text. -/
theorem skipTrivia_suffix (s : Span) (cs : List Char) : (skipTrivia s cs).2 <:+ cs := by
  match cs with
  | [] => simp [skipTrivia]
  | '/' :: '/' :: cs =>
    rw [skipTrivia]
    exact (skipComment_suffix _ cs).trans ⟨['/', '/'], rfl⟩
  | c :: cs =>
    by_cases hslash : ∃ ds, c = '/' ∧ cs = '/' :: ds
    · obtain ⟨ds, rfl, rfl⟩ := hslash
      rw [skipTrivia]
      exact (skipComment_suffix _ ds).trans ⟨['/', '/'], rfl⟩
    · rw [skipTrivia]
      · split
        · exact (skipTrivia_suffix _ cs).trans (List.suffix_cons c cs)
        · exact List.suffix_rfl
      · rintro ds rfl rfl
        exact hslash ⟨ds, rfl, rfl⟩

/-- Skipping a comment leaves an end of the text. -/
theorem skipComment_suffix (s : Span) (cs : List Char) : (skipComment s cs).2 <:+ cs := by
  match cs with
  | [] => simp [skipComment]
  | c :: cs =>
    by_cases hc : c = '\n'
    · subst hc
      rw [skipComment]
      exact (skipTrivia_suffix _ cs).trans (List.suffix_cons _ cs)
    · rw [skipComment]
      · exact (skipComment_suffix _ cs).trans (List.suffix_cons c cs)
      · exact fun h => hc h

end

/-- Reading a token leaves less text than there was. -/
theorem length_drop_lexeme_lt {cs rest : List Char} {s t : Span} {m : Match}
    (hskip : skipTrivia s cs = (t, rest)) (hm : Match.first? rest = some m) :
    (rest.drop m.lexeme.length).length < cs.length := by
  have hsuffix := (skipTrivia_suffix s cs).length_le
  obtain ⟨hne, more, hmore⟩ := Match.first?_lexeme hm
  have hpos := List.length_pos_iff.2 hne
  rw [hskip] at hsuffix
  have hlen := congrArg List.length hmore
  simp only [List.length_append] at hlen
  simp only [List.length_drop] at hsuffix ⊢
  omega

/-- The tokens of a text that starts at the place `s`. -/
def scan (s : Span) (cs : List Char) : Except LexError (List Token) :=
  match hskip : skipTrivia s cs with
  | (_, []) => .ok []
  | (t, c :: rest) =>
    match hm : Match.first? (c :: rest) with
    | none => .error ⟨t, String.ofList ((c :: rest).takeWhile fun d => !isBlank d)⟩
    | some m =>
      have := length_drop_lexeme_lt hskip hm
      match scan (t.advance m.lexeme) ((c :: rest).drop m.lexeme.length) with
      | .error e => .error e
      | .ok tokens => .ok (⟨m.kind, String.ofList m.lexeme, t⟩ :: tokens)
termination_by cs.length
decreasing_by assumption

/-- The tokens of a script. -/
def tokenize (source : String) : Except LexError (List Token) := scan .start source.toList

end Token

end Abacus
