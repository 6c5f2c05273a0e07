import Mathlib.Tactic.Common
import Abacus.Proofs.Scanning

/-!
# The layout of a script

A script that can be read is a gap, a lexeme, a gap, a lexeme and so on, up to a last gap: the
tokens lose nothing but blanks and comments.  Every token tells the place where its lexeme starts,
counted in bytes, lines and characters, and so does the error for a script that cannot be read.

Places are counted while the text is read, one character after the other.  That the count is right
is an invariant of reading: the place is that of the text read so far.

## Main definitions

* `Abacus.Span.Marks` — the place after a text, by counting in that text.
* `Abacus.Token.Layout` — a text as gaps and lexemes, with the places of the lexemes.

## Main results

* `Abacus.Span.Marks.step`, `Abacus.Span.Marks.advance` — places are counted right.
* `Abacus.Token.tokenize_layout` — tokens lose nothing, and every place is right.
-/

namespace Abacus

/-! ## Places -/

namespace Span

/-- The place after the text `before`: the bytes of its UTF-8 encoding, one line more than it has
line feeds, and the characters after the last line feed, or all if there is none. -/
structure Marks (before : List Char) (s : Span) : Prop where
  offset : s.offset = (String.ofList before).utf8ByteSize
  line : s.line = 1 + before.count '\n'
  column : s.column = (before.reverse.takeWhile (· ≠ '\n')).length

/-- The start marks the end of the empty text. -/
lemma marks_start : start.Marks [] := ⟨rfl, rfl, rfl⟩

variable {before : List Char} {s : Span}

/-- The place after one more character. -/
theorem Marks.step (h : s.Marks before) (c : Char) : (s.step c).Marks (before ++ [c]) := by
  have hsize : (String.ofList (before ++ [c])).utf8ByteSize =
      (String.ofList before).utf8ByteSize + c.utf8Size := by
    simp
  by_cases hc : c = '\n'
  · rw [Span.step, if_pos hc]
    refine ⟨by rw [hsize, ← h.offset], ?_, ?_⟩
    · have hcount : (before ++ [c]).count '\n' = before.count '\n' + 1 := by simp [hc]
      have hline := h.line
      show s.line + 1 = 1 + _
      omega
    · simp [hc]
  · rw [Span.step, if_neg hc]
    refine ⟨by rw [hsize, ← h.offset], ?_, ?_⟩
    · have hcount : (before ++ [c]).count '\n' = before.count '\n' := by simp [hc]
      rw [hcount, ← h.line]
    · simp [hc, h.column]

/-- The place after some more characters. -/
theorem Marks.advance (h : s.Marks before) (cs : List Char) :
    (s.advance cs).Marks (before ++ cs) := by
  induction cs generalizing before s with
  | nil => simpa using h
  | cons c cs ih =>
    have hrest := ih (h.step c)
    rwa [List.append_assoc, List.singleton_append] at hrest

end Span

/-! ## Layouts -/

namespace Token

/-- After the text `before`, a text that is laid out in tokens: a gap, the lexeme of the first
token, a gap, the lexeme of the second, and so on, with a gap at the end.  Every token tells the
place of its lexeme. -/
inductive Layout : List Char → List Char → List Token → Prop
  | last {before gap : List Char} : Gap [] gap → Layout before gap []
  | token {before gap rest : List Char} {t : Token} {tokens : List Token} :
      Gap (t.lexeme.toList ++ rest) gap → t.lexeme ≠ "" → t.span.Marks (before ++ gap) →
        Layout (before ++ gap ++ t.lexeme.toList) rest tokens →
        Layout before (gap ++ (t.lexeme.toList ++ rest)) (t :: tokens)

/-- **What is scanned is laid out in the tokens.**

**Proof sketch.** Induction on the script.  The place at which scanning has come is that of the text
before it; a gap takes it to the place of the next lexeme, and the lexeme to the place after that.
-/
lemma layout_of_scan {s : Span} {cs : List Char} {tokens : List Token}
    (h : scan s cs = .ok tokens) : ∀ {before : List Char}, s.Marks before →
      Layout before cs tokens := by
  refine scan_ok_induction (P := fun s cs tokens => ∀ {before}, s.Marks before →
    Layout before cs tokens) ?_ ?_ h
  · intro s t cs hskip before _
    obtain ⟨gap, rfl, hgap, -, -⟩ := skipTrivia_eq_iff.1 hskip
    rw [List.append_nil]
    exact .last hgap
  · intro s t cs rest m tokens hskip hm ih before hs
    obtain ⟨gap, rfl, hgap, -, rfl⟩ := skipTrivia_eq_iff.1 hskip
    obtain ⟨hne, -⟩ := Match.first?_lexeme hm
    have hplace : (s.advance gap).Marks (before ++ gap) := hs.advance gap
    have hrest := ih (hplace.advance m.lexeme)
    have hlexeme : (String.ofList m.lexeme).toList = m.lexeme := String.toList_ofList
    have hlaid := Layout.token (t := ⟨m.kind, String.ofList m.lexeme, s.advance gap⟩)
      (hlexeme.symm ▸ hgap) (by simpa using hne) hplace (hlexeme.symm ▸ hrest)
    rwa [hlexeme] at hlaid

/-- **Where scanning ends early**, the fragment that is reported stands at the place that is
reported. -/
private lemma fragment_of_scan (s : Span) (cs : List Char) : ∀ {before : List Char} {e : LexError},
    s.Marks before → scan s cs = .error e →
      ∃ passed after, cs = passed ++ e.fragment.toList ++ after ∧
        e.span.Marks (before ++ passed) := by
  refine scan_induction (P := fun s cs => ∀ {before e}, s.Marks before → scan s cs = .error e →
    ∃ passed after, cs = passed ++ e.fragment.toList ++ after ∧
      e.span.Marks (before ++ passed)) ?_ ?_ ?_ s cs
  · intro s t cs hskip before e _ hscan
    rw [scan_of_end hskip] at hscan
    cases hscan
  · intro s t cs rest m hskip hm ih before e hs hscan
    obtain ⟨gap, rfl, -, -, rfl⟩ := skipTrivia_eq_iff.1 hskip
    rw [scan_of_match hskip hm] at hscan
    cases hothers : scan ((s.advance gap).advance m.lexeme) rest with
    | ok others =>
      rw [hothers] at hscan
      cases hscan
    | error e' =>
      rw [hothers] at hscan
      cases hscan
      obtain ⟨passed, after, rfl, hmarks⟩ := ih ((hs.advance gap).advance m.lexeme) hothers
      refine ⟨gap ++ m.lexeme ++ passed, after, by simp, ?_⟩
      simpa using hmarks
  · intro s t cs rest hskip hrest hm before e hs hscan
    obtain ⟨gap, rfl, -, -, rfl⟩ := skipTrivia_eq_iff.1 hskip
    rw [scan_of_stuck hskip hrest hm] at hscan
    cases hscan
    refine ⟨gap, rest.dropWhile fun c => !Text.isBlank c, ?_, hs.advance gap⟩
    rw [String.toList_ofList, List.append_assoc, List.takeWhile_append_dropWhile]

/-- **Tokens lose nothing, and every place is right.**  A script that can be read is a gap, the
lexeme of the first token, a gap, the lexeme of the second and so on, with a gap at the end, where a
gap is blanks and comments; the place of every token is that of the text in front of its lexeme.  If
a script cannot be read, the fragment that is reported stands in it at the place that is
reported. -/
theorem tokenize_layout (source : String) :
    (∀ tokens, tokenize source = .ok tokens → Layout [] source.toList tokens) ∧
      ∀ e, tokenize source = .error e →
        ∃ before after, source.toList = before ++ e.fragment.toList ++ after ∧
          e.span.Marks before := by
  constructor
  · intro tokens h
    exact layout_of_scan h Span.marks_start
  · intro e h
    exact fragment_of_scan .start source.toList Span.marks_start h

/-- Two names with a comment between them, in which a character takes up two bytes, and an
unreadable character on the second line. -/
theorem tokenize_layout_comment :
    Layout [] "a // é\n b".toList
        [⟨.identifier "a", "a", ⟨0, 1, 0⟩⟩, ⟨.identifier "b", "b", ⟨9, 2, 1⟩⟩] ∧
      ∃ before after, "// é\n #x y".toList = before ++ "#x".toList ++ after ∧
        Span.Marks before ⟨7, 2, 1⟩ := by
  have hread : tokenize "a // é\n b" =
      .ok [⟨.identifier "a", "a", ⟨0, 1, 0⟩⟩, ⟨.identifier "b", "b", ⟨9, 2, 1⟩⟩] := by
    rw [tokenize_eq_scanWithin]
    rfl
  have hstuck : tokenize "// é\n #x y" = .error ⟨⟨7, 2, 1⟩, "#x"⟩ := by
    rw [tokenize_eq_scanWithin]
    rfl
  exact ⟨(tokenize_layout _).1 _ hread, (tokenize_layout _).2 _ hstuck⟩

end Token

end Abacus
