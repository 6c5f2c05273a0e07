import Abacus.Failure
import Abacus.Text.Lines

/-!
# Reports

A report tells a reader about a failure: its code and message, the file and place, the line of the
source with a caret under the place, and advice.

## Main definitions

* `Abacus.Report` — a source text with the name under which it is reported.
* `Abacus.Report.sourceLine` — a line of the source, by its number.
* `Abacus.Report.excerpt` — the place, the source line and the caret.
* `Abacus.Report.render` — the text of a report.
-/

namespace Abacus

/-- A source text with the name under which it is reported. -/
structure Report where
  file : String
  source : String

namespace Report

/-- A text on a line of its own. -/
def line (text : String) : String := text ++ "\n"

/-- The text of a number, moved to the right of three columns. -/
def padded (n : Nat) : String :=
  let digits := toString n
  String.ofList (List.replicate (3 - digits.length) ' ') ++ digits

/-- The line of the source with a given number, counted from one.  There is no text on a line that
the source does not have. -/
def sourceLine (r : Report) (number : Nat) : String :=
  String.ofList (((Text.lines r.source.toList)[number - 1]?).getD [])

/-- The line that marks a column with a caret. -/
def caret (column : Nat) : String :=
  line ("   | " ++ String.ofList (List.replicate column ' ') ++ "^")

/-- The place of a failure, its source line, and a caret under the place. -/
def excerpt (r : Report) (span : Span) : String :=
  line ("  --> " ++ r.file ++ ":" ++ span.text) ++ line "   |" ++
    line (padded span.line ++ " | " ++ r.sourceLine span.line) ++ caret span.column

/-- The text of a report. -/
def render (r : Report) (f : Failure) : String :=
  let place := match f.span with
    | some span => r.excerpt span
    | none => line ("  --> " ++ r.file)
  let advice := match f.help with
    | some text => "\n" ++ line ("help: " ++ text)
    | none => ""
  line ("error[" ++ f.code ++ "]: " ++ f.message) ++ place ++ advice

end Report

end Abacus
