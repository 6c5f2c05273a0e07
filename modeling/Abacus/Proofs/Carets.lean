import Mathlib.Data.Nat.Digits.Defs
import Mathlib.Tactic.Common
import Abacus.Proofs.Excerpts

/-!
# Where the caret stands

A report shows a line of the script after its number, and below it a line with a caret.  The number
is moved to the right of three columns, or takes up more if it has more digits, and a bar with a
blank on either side follows it.  The line of the caret always starts with three blanks, a bar and a
single blank.  So the caret never stands under the offending character: it stands to the left of it,
by one column up to line 999, and by one more for every further digit.

## Main definitions

* `Abacus.Report.gutter` — how many characters come before the text of the script.
* `Abacus.Report.CaretLeft` — a report whose caret stands to the left of the offending character.

## Main results

* `Abacus.Text.StandsAt.exists_char` — there is a character at the place of a word.
* `Abacus.Report.getElem?_excerptLine`, `Abacus.Report.idxOf?_caretLine` — where the text of the
  script and the caret stand in their lines.
* `Abacus.Report.caret_stands_left` — the caret stands to the left of the offending character.
-/

namespace Abacus

/-- There is a character at the line and column of a word that stands in a text. -/
theorem Text.StandsAt.exists_char {text word : List Char} {s : Span}
    (h : Text.StandsAt text s word) :
    ∃ shown c, (lines text)[s.line - 1]? = some shown ∧ shown[s.column]? = some c := by
  obtain ⟨shown, hline, hword⟩ := h.shown
  cases word with
  | nil => exact absurd rfl h.isWord.ne_nil
  | cons c rest => exact ⟨shown, c, hline, getElem?_of_shown hword⟩

namespace Report

/-! ## The two lines -/

/-- How many characters come before the text of the script in the line that shows it. -/
def gutter (number : Nat) : Nat := max 3 (toString number).length + 3

/-- The text of the script stands right of the gutter. -/
theorem getElem?_excerptLine (number column : Nat) (shown : List Char) :
    (excerptLine number shown)[gutter number + column]? = shown[column]? := by
  have hgutter : ((toString number).toList.leftpad 3 ' ' ++ " | ".toList).length =
      gutter number := by
    rw [List.length_append, List.length_leftpad, String.length_toList]
    rfl
  rw [excerptLine, ← hgutter, List.getElem?_append_right (Nat.le_add_right _ _),
    Nat.add_sub_cancel_left]

/-- Five characters and the column come before the caret. -/
theorem idxOf?_caretLine (column : Nat) : (caretLine column).idxOf? '^' = some (column + 5) := by
  have hblanks : ∀ n, (List.replicate n ' ' ++ ['^']).idxOf? '^' = some n := by
    intro n
    induction n with
    | zero => rfl
    | succ n ih => simp [List.replicate_succ, List.idxOf?_cons, ih]
  have hline : caretLine column =
      [' ', ' ', ' ', '|', ' '] ++ (List.replicate column ' ' ++ ['^']) := by
    simp [caretLine]
  rw [hline]
  simp [List.idxOf?_cons, hblanks]

/-- Up to line 999 the gutter is six characters wide. -/
private lemma gutter_of_lt {number : Nat} (h : number < 1000) : gutter number = 6 := by
  have hdigits : (toString number).length ≤ 3 := Nat.repr_length number 3 (by omega) (by omega)
  rw [gutter]
  omega

/-! ## The caret -/

/-- A script that is not run fails because it cannot be read, or is no program. -/
private lemma program_of_run {session : Session} {patience : Nat} {source : String} {f : Failure}
    (h : (session.run patience source).1 = .error (.failure f)) (hf : ∀ e, f ≠ .runtime e) :
    Session.program session.environment.limits.nesting source = .error f := by
  rw [Session.run] at h
  split at h
  · next hprogram =>
    cases h
    exact hprogram
  · -- what a program itself fails with is a failure of evaluation
    rw [Session.runBlock] at h
    split at h
    · cases h
    · next stop env _ =>
      cases stop with
      | failure e =>
        cases h
        exact absurd rfl (hf e)
      | tooDeep => cases h
      | tooLong => cases h

/-- What a report prints of a failure at a place, and where the caret stands.  The script has a line
with the number of the place and a character `c` at its column.  The report prints that line after
its number, and right below it the line with the caret.  In the first of these `c` is the character
at `place`, and in the second the caret is the character at `mark`.  The caret does not stand under
`c`: `place` is as much larger than `mark` as the number of the line takes up columns beyond the
first two, which is one column up to line 999. -/
structure CaretLeft (r : Report) (f : Failure) (s : Span) (shown : List Char) (c : Char)
    (mark place : Nat) : Prop where
  span_eq : f.span = some s
  line_eq : (Text.lines r.source.toList)[s.line - 1]? = some shown
  char_eq : shown[s.column]? = some c
  printed : Text.HasLines (r.render f).toList [excerptLine s.line shown, caretLine s.column]
  place_eq : place = gutter s.line + s.column
  char_at : (excerptLine s.line shown)[place]? = some c
  caret_at : (caretLine s.column).idxOf? '^' = some mark
  shift : place = mark + (max 3 (toString s.line).length - 2)
  left : mark < place
  left_by_one : s.line < 1000 → place = mark + 1

/-- **The caret stands to the left of the offending character.**  Let a script be run that cannot be
read or is no program, in any session.  The report shows the line of the failure and right below it
the line with the caret, and the caret stands to the left of the character of the script at the line
and column of the failure. -/
theorem caret_stands_left (r : Report) (session : Session) (patience : Nat) (f : Failure)
    (hrun : (session.run patience r.source).1 = .error (.failure f)) (hf : ∀ e, f ≠ .runtime e) :
    ∃ s shown c mark place, r.CaretLeft f s shown c mark place := by
  obtain ⟨s, word, hspan, -, hstands⟩ := exists_offends (program_of_run hrun hf)
  obtain ⟨shown, c, hline, hc⟩ := hstands.exists_char
  have hplace : gutter s.line + s.column =
      s.column + 5 + (max 3 (toString s.line).length - 2) := by
    rw [gutter]
    omega
  refine ⟨s, shown, c, s.column + 5, gutter s.line + s.column, hspan, hline, hc,
    hasLines_render hspan hline, rfl, ?_, idxOf?_caretLine s.column, hplace, ?_, fun hlt => ?_⟩
  · rw [getElem?_excerptLine, hc]
  · omega
  · rw [gutter_of_lt hlt]
    omega

/-- A script with an unreadable character on its second line: the caret is the sixteenth character
of its line, and the unreadable character is the seventeenth of the line above. -/
theorem caret_stands_left_second_line :
    let source : String := "ref a = 1\nref b = a # 2"
    let f : Failure := .lex ⟨⟨20, 2, 10⟩, "#"⟩
    let r : Report := ⟨"script.tally", source⟩
    let session : Session := .ofSettings .initial
    (session.run 0 source).1 = .error (.failure f) ∧ (∀ e, f ≠ .runtime e) ∧
      ∃ s shown c mark place, r.CaretLeft f s shown c mark place := by
  intro source f r session
  have hrun : (session.run 0 source).1 = .error (.failure f) := by decide +kernel
  have hf : ∀ e, f ≠ .runtime e := fun _ => Failure.noConfusion
  exact ⟨hrun, hf, caret_stands_left r session 0 f hrun hf⟩

/-- The caret does not stand under the character that it marks. -/
theorem caret_not_under_fault :
    let source : String := "ref a = 1\nref b = a # 2"
    let f : Failure := .lex ⟨⟨20, 2, 10⟩, "#"⟩
    ((Session.ofSettings .initial).run 0 source).1 = .error (.failure f) ∧
      (Report.mk "script.tally" source).render f =
        "error[T0001]: unexpected input `#` at 2:11\n  --> script.tally:2:11\n   |\n" ++
          "  2 | ref b = a # 2\n" ++ "   |           ^\n" ++
          "\nhelp: only numbers, names, `+ - * /` and `( ) \x7b \x7d [ ] , =` are valid\n" ∧
      "  2 | ref b = a # 2".toList.idxOf? '#' = some 16 ∧
      "   |           ^".toList.idxOf? '^' = some 15 := by
  decide +kernel

end Report

end Abacus
