import Mathlib.Tactic.Common
import Abacus.Proofs.Layout
import Abacus.Proofs.Splitting

/-!
# Where a script cannot be read

A script that cannot be read has a splitting in front of a character that starts neither a gap nor a
lexeme.  The rest of a text has a say in a splitting only by its first character, so that the text
in front of the unreadable character can be read, and what follows that character changes nothing
about where reading fails.

## Main definitions

* `Abacus.Token.Unreadable` — the characters that no gap and no lexeme starts with.

## Main results

* `Abacus.Splitting.mono` — a splitting depends on the first character of the rest alone.
* `Abacus.Token.exists_splitting_of_error` — a script that cannot be read, split.
* `Abacus.Token.tokenize_fails_at_unreadable` — where reading fails, and what is reported.
-/

namespace Abacus

open Text (isBlank)

/-! ## The rest of a text has a say by its first character -/

section FirstCharacter

variable {rest rest' : List Char} (hfirst : ∀ c ∈ rest'.head?, c ∈ rest.head?)

include hfirst

/-- Whatever text comes before, the first character is the same or missing. -/
lemma mem_head?_append (text : List Char) :
    ∀ c ∈ (text ++ rest').head?, c ∈ (text ++ rest).head? := by
  cases text with
  | nil => exact hfirst
  | cons d text => exact fun c hc => hc

/-- A line that ends still does with another rest that starts alike, or with none. -/
lemma Token.EndsLine.mono {text : List Char} (h : EndsLine (text ++ rest)) :
    EndsLine (text ++ rest') := by
  have hnext := mem_head?_append hfirst text
  cases htext : text ++ rest' with
  | nil => exact .inl rfl
  | cons c more =>
    rw [htext] at hnext
    have hc := hnext c rfl
    rcases h with hnil | ⟨more', hline⟩
    · rw [hnil] at hc
      cases hc
    · rw [hline] at hc
      cases hc
      exact .inr ⟨more, rfl⟩

/-- A gap is one still in front of another rest that starts alike, or of none. -/
lemma Token.Gap.mono {gap : List Char} (h : Gap rest gap) : Gap rest' gap := by
  induction h with
  | nil => exact .nil
  | blank hc _ ih => exact .blank hc ih
  | comment hbody hends _ ih => exact .comment hbody (hends.mono hfirst) ih

/-- **A splitting depends on the first character of the rest alone.** -/
theorem Splitting.mono {text last : List Char} {pieces : List Piece}
    (h : Splitting rest text pieces last) : Splitting rest' text pieces last := by
  induction h with
  | last hgap => exact .last (hgap.mono hfirst)
  | @piece p text last pieces hgap hlexeme hstops _ ih =>
    have hnext := mem_head?_append hfirst text
    refine .piece (hgap.mono (mem_head?_append hnext p.lexeme)) hlexeme ?_ ih
    exact fun c hc => hstops c (hnext c hc)

end FirstCharacter

namespace Token

/-! ## Unreadable characters -/

/-- A character that no gap and no lexeme starts with. -/
structure Unreadable (c : Char) : Prop where
  not_blank : isBlank c = false
  not_startsLexeme : ¬ Rule.StartsLexeme c

/-- What is unreadable is not skipped. -/
lemma Unreadable.solid {c : Char} (h : Unreadable c) (rest : List Char) : Solid (c :: rest) := by
  constructor
  · rintro d more ⟨⟩
    exact h.not_blank
  · -- a comment starts with a slash, which is an operator by itself
    rintro more ⟨⟩
    exact h.not_startsLexeme (.inr (.inr (by decide)))

/-- No rule reads what is unreadable. -/
lemma Unreadable.first?_eq_none {c : Char} (h : Unreadable c) (rest : List Char) :
    Match.first? (c :: rest) = none := by
  refine Match.first?_eq_none_iff.2 ?_
  rintro d ⟨⟩
  exact h.not_startsLexeme

/-- A text that is split in front of an unreadable character cannot be read, and fails there. -/
lemma scan_of_unreadable {before after last : List Char} {pieces : List Piece} {c : Char}
    (hsplit : Splitting (c :: after) before pieces last) (hc : Unreadable c) (s : Span) :
    scan s (before ++ c :: after) =
      .error ⟨s.advance before,
        String.ofList ((c :: after).takeWhile fun c => !isBlank c)⟩ :=
  hsplit.scan_of_stuck (List.cons_ne_nil c after) (hc.solid after) (hc.first?_eq_none after) s

/-- **A script that cannot be read is split** in front of an unreadable character. -/
theorem exists_splitting_of_error {source : String} {e : LexError}
    (h : tokenize source = .error e) :
    ∃ before c after pieces last, source.toList = before ++ c :: after ∧
      Splitting (c :: after) before pieces last ∧ Unreadable c := by
  obtain ⟨before, rest, pieces, last, htext, hsplit, hsolid, hstuck⟩ :=
    exists_splitting source.toList
  cases rest with
  | nil =>
    rw [List.append_nil] at htext
    rw [Splitting.tokenize (htext ▸ hsplit)] at h
    cases h
  | cons c after =>
    refine ⟨before, c, after, pieces, last, htext, hsplit, hsolid.1 c after rfl, ?_⟩
    exact Match.first?_eq_none_iff.1 hstuck c rfl

/-- The text in front of an unreadable character can be read by itself. -/
private lemma exists_tokenize_before {before after last : List Char} {pieces : List Piece}
    {c : Char}
    (hsplit : Splitting (c :: after) before pieces last) :
    ∃ tokens, tokenize (String.ofList before) = .ok tokens := by
  have halone : Splitting [] before pieces last := hsplit.mono (by simp)
  rw [← String.toList_ofList (l := before)] at halone
  exact ⟨_, halone.tokenize⟩

/-! ## What is reported -/

/-- The longest run of characters at the start of a text that are not blank. -/
structure LongestRun (cs run : List Char) : Prop where
  starts : run <+: cs
  not_blank : ∀ c ∈ run, isBlank c = false
  longest : ∀ {other : List Char}, other <+: cs → (∀ c ∈ other, isBlank c = false) → other <+: run

/-- What is taken up to the next blank is the longest run without blanks. -/
lemma longestRun_takeWhile (cs : List Char) :
    LongestRun cs (cs.takeWhile fun c => !isBlank c) := by
  refine ⟨List.takeWhile_prefix _, fun c hc => ?_, ?_⟩
  · simpa using List.mem_takeWhile_imp hc
  · rintro other ⟨more, rfl⟩ hother
    rw [List.takeWhile_append_of_pos fun c hc => by simp [hother c hc]]
    exact List.prefix_append other _

/-- **Where reading fails, and what is reported.**  Nothing is read off a text exactly if it is
empty or its first character starts no lexeme.  If a script cannot be read, the place that is
reported is that of a character that is not blank and starts no lexeme.  The text in front of it can
be read by itself.  The fragment that is reported is not empty, and is the longest run of characters
from there that are not blank.  Every script that starts with the same text and the same character
fails at the same place. -/
theorem tokenize_fails_at_unreadable :
    (∀ cs : List Char, Match.first? cs = none ↔ ∀ c ∈ cs.head?, ¬ Rule.StartsLexeme c) ∧
      ∀ (source : String) (e : LexError), tokenize source = .error e →
        ∃ before c after, source.toList = before ++ c :: after ∧ e.span.Marks before ∧
          (∃ tokens, tokenize (String.ofList before) = .ok tokens) ∧ Unreadable c ∧
          e.fragment ≠ "" ∧ LongestRun (c :: after) e.fragment.toList ∧
          ∀ other : String, before ++ [c] <+: other.toList →
            ∃ fragment, tokenize other = .error ⟨e.span, fragment⟩ := by
  refine ⟨fun cs => Match.first?_eq_none_iff, fun source e h => ?_⟩
  obtain ⟨before, c, after, pieces, last, htext, hsplit, hc⟩ := exists_splitting_of_error h
  rw [tokenize, htext, scan_of_unreadable hsplit hc] at h
  cases h
  refine ⟨before, c, after, htext, Span.marks_start.advance before,
    exists_tokenize_before hsplit, hc, ?_, ?_, ?_⟩
  · simp [hc.not_blank]
  · rw [String.toList_ofList]
    exact longestRun_takeWhile _
  · rintro other ⟨more, hother⟩
    have hsplit' : Splitting (c :: more) before pieces last := hsplit.mono (by simp)
    rw [List.append_assoc, List.singleton_append] at hother
    rw [tokenize, ← hother, scan_of_unreadable hsplit' hc]
    exact ⟨_, rfl⟩

/-- A name, a blank, and a fragment of two characters, of which the first cannot be read. -/
theorem tokenize_fails_at_unreadable_hash :
    tokenize "a #b c" = .error ⟨⟨2, 1, 2⟩, "#b"⟩ ∧
      ∃ before c after, "a #b c".toList = before ++ c :: after ∧ Span.Marks before ⟨2, 1, 2⟩ ∧
        (∃ tokens, tokenize (String.ofList before) = .ok tokens) ∧ Unreadable c ∧
        LongestRun (c :: after) "#b".toList ∧
        ∀ other : String, before ++ [c] <+: other.toList →
          ∃ fragment, tokenize other = .error ⟨⟨2, 1, 2⟩, fragment⟩ := by
  have hstuck : tokenize "a #b c" = .error ⟨⟨2, 1, 2⟩, "#b"⟩ := by
    rw [tokenize_eq_scanWithin]
    rfl
  obtain ⟨before, c, after, htext, hmarks, hread, hc, -, hrun, hothers⟩ :=
    tokenize_fails_at_unreadable.2 _ _ hstuck
  exact ⟨hstuck, before, c, after, htext, hmarks, hread, hc, hrun, hothers⟩

end Token

end Abacus
