/-!
# Lines of a text

A line ends with a line feed, and a carriage return right before the line feed belongs to the
ending.  A text that ends with a line feed has no further, empty line after it.  A carriage
return elsewhere, at the very end of the text too, is part of its line.

## Main definitions

* `Abacus.Text.lines` — the lines of a text, without their endings.
-/

namespace Abacus

namespace Text

/-- The characters before the first line feed, and the text after it if there is one. -/
def splitLine : List Char → List Char × Option (List Char)
  | [] => ([], none)
  | '\n' :: cs => ([], some cs)
  | c :: cs =>
    let (line, rest) := splitLine cs
    (c :: line, rest)

/-- The line without a carriage return at its end. -/
def dropReturn (line : List Char) : List Char :=
  if line.getLast? = some '\r' then line.dropLast else line

/-- What is left after a line feed is shorter than the text. -/
theorem length_lt_of_splitLine {cs line rest : List Char}
    (h : splitLine cs = (line, some rest)) : rest.length < cs.length := by
  fun_induction splitLine cs generalizing line with
  | case1 => simp at h
  | case2 cs =>
    obtain ⟨-, h⟩ := Prod.mk.inj h
    simp [Option.some.inj h]
  | case3 c cs _ l r hl ih =>
    obtain ⟨-, h⟩ := Prod.mk.inj h
    have := ih (hl.trans (by rw [h]))
    simp only [List.length_cons]
    omega

/-- The lines of a text, without their endings. -/
def lines (cs : List Char) : List (List Char) :=
  match cs with
  | [] => []
  | c :: tail =>
    match h : splitLine (c :: tail) with
    | (line, none) => [line]
    | (line, some rest) =>
      have := length_lt_of_splitLine h
      dropReturn line :: lines rest
termination_by cs.length
decreasing_by assumption

end Text

end Abacus
