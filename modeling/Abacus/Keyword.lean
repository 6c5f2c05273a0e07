/-!
# Reserved words

The words that cannot be names.  `do` is reserved and has no use yet; `for` means the same as
`while`.

## Main definitions

* `Abacus.Keyword` — the reserved words.
* `Abacus.Keyword.text`, `Abacus.Keyword.ofText?` — their spelling.
-/

namespace Abacus

/-- A reserved word. -/
inductive Keyword where
  | ref
  | fn
  | if_
  | else_
  | while_
  | do_
  | for_
deriving DecidableEq, Repr

namespace Keyword

/-- All reserved words. -/
def all : List Keyword := [ref, fn, if_, else_, while_, do_, for_]

/-- The spelling of a reserved word. -/
def text : Keyword → String
  | ref => "ref"
  | fn => "fn"
  | if_ => "if"
  | else_ => "else"
  | while_ => "while"
  | do_ => "do"
  | for_ => "for"

/-- The reserved word with exactly this spelling. -/
def ofText? (word : String) : Option Keyword := all.find? (·.text = word)

/-- A reserved word is found by its own spelling. -/
theorem ofText?_text (k : Keyword) : ofText? k.text = some k := by
  cases k <;> rfl

end Keyword

end Abacus
