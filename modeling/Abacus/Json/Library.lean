import Abacus.Json.Reader
import Abacus.Json.Writer

/-!
# Libraries for JSON texts

What is read from JSON texts and written as such does not depend on how that is done.  A library
reads the value of a text, writes the text of a value, and has its own way with doubles.

## Main definitions

* `Abacus.Json.Library` — a reader and a writer of JSON texts.
* `Abacus.Json.library` — the reader and the writer that are used here.
-/

namespace Abacus

namespace Json

/-- A library for JSON texts: it reads the value of a text, if there is one, and writes the text of
a value.  Numbers that are not natural stand for the doubles that the library gives for them. -/
structure Library where
  read? : String → Option Json
  write : Json → String
  double : Numeral → Float

/-- The strict reader, and the writer without blanks. -/
def library : Library := ⟨parse?, write .compact, Numeral.toFloat⟩

end Json

end Abacus
