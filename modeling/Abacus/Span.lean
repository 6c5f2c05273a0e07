/-!
# Places in a text

A span is the place of a character in a text, counted three ways: bytes of its UTF-8 encoding
before it, the number of its line, and characters before it on that line.  Only a line feed
starts a new line.

## Main definitions

* `Abacus.Span` — byte offset, line and column.
* `Abacus.Span.advance` — the place after a run of characters.
* `Abacus.Span.text` — line and column for a reader, both counted from one.
-/

namespace Abacus

/-- A place in a text.  Lines count from one, offsets and columns from zero. -/
structure Span where
  offset : Nat
  line : Nat
  column : Nat
deriving DecidableEq, Repr

namespace Span

/-- The first place of a text. -/
def start : Span := ⟨0, 1, 0⟩

/-- The place after the character `c`. -/
def step (s : Span) (c : Char) : Span :=
  if c = '\n' then ⟨s.offset + c.utf8Size, s.line + 1, 0⟩
  else ⟨s.offset + c.utf8Size, s.line, s.column + 1⟩

/-- The place after a run of characters. -/
def advance (s : Span) (cs : List Char) : Span := cs.foldl step s

/-- Line and column, both counted from one. -/
def text (s : Span) : String := toString s.line ++ ":" ++ toString (s.column + 1)

@[simp]
theorem advance_nil (s : Span) : s.advance [] = s := rfl

@[simp]
theorem advance_cons (s : Span) (c : Char) (cs : List Char) :
    s.advance (c :: cs) = (s.step c).advance cs := rfl

theorem advance_append (s : Span) (cs ds : List Char) :
    s.advance (cs ++ ds) = (s.advance cs).advance ds := List.foldl_append

end Span

end Abacus
