/-!
# Blank characters

The characters that separate words: those with the property `White_Space` of the Unicode
character database.  They are the horizontal tab to the carriage return, the space, and the
spaces and separators outside ASCII, twenty-five in all.

## Main definitions

* `Abacus.Text.isBlank` — whether a character is blank.
-/

namespace Abacus

namespace Text

/-- The ranges of code points with the property `White_Space`, in increasing order. -/
def blankRanges : List (Nat × Nat) :=
  [(0x09, 0x0d), (0x20, 0x20), (0x85, 0x85), (0xa0, 0xa0), (0x1680, 0x1680), (0x2000, 0x200a),
    (0x2028, 0x2029), (0x202f, 0x202f), (0x205f, 0x205f), (0x3000, 0x3000)]

/-- Whether a character is blank. -/
def isBlank (c : Char) : Bool :=
  blankRanges.any fun (first, last) => first ≤ c.toNat && c.toNat ≤ last

/-- Every character that ends a line is blank. -/
theorem isBlank_newline : isBlank '\n' = true := by decide

end Text

end Abacus
