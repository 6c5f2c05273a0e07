import Abacus.Node.Statement

/-!
# The parser

Parentheses, argument lists and blocks open a level of nesting, and only so many levels may be open
at once.  The parser counts the open levels while it reads: the count is part of its state, goes up
where a level is opened and down again where it is closed, however what stands in between ends.
The contents of a block are read by a parser of their own, which starts one level deeper.

Where a level is opened, one level less may be opened inside.  The rules are given how many levels
may still be opened, and recurse on that; whether one may be opened is told by the state alone.

## Main definitions

* `Abacus.Place`, `Abacus.Parse` — the state of the parser, and its rules.
* `Abacus.Parse.checkDepth`, `Abacus.Parse.descend` — opening a level.
* `Abacus.Parse.here` — a rule with the levels that may still be opened.
* `Abacus.Parse.value`, `expression`, `block`, `statement`, `program` — the rules of the language.
* `Abacus.Cursor` — a place in a slice, from which rules are run one by one.
* `Abacus.Node.parse` — the program of a list of tokens.
-/

namespace Abacus

/-- The state of the parser: the tokens that are left, and how many levels of nesting are open. -/
structure Place where
  rest : List Token
  depth : Nat

instance : Reading Place where
  left := Place.rest
  leave p tokens := { p with rest := tokens }
  enter p tokens := ⟨tokens, p.depth + 1⟩
  left_leave _ _ := rfl
  leave_left _ := rfl
  leave_leave _ _ _ := rfl
  left_enter _ _ := rfl

/-- A rule of the parser. -/
abbrev Parse := ParseOver Place

namespace Parse

/-! ## Opening a level -/

/-- Fails if no further level may be opened. -/
def checkDepth : Parse Unit := fun s p => if p.depth < s.limit then .ok () p else failTooDeep s p

/-- Runs a rule one level deeper.  However the rule ends, the level is closed after it. -/
def deeper {α : Type} (rule : Parse α) : Parse α := fun s p =>
  match rule s { p with depth := p.depth + 1 } with
  | .ok a ended => .ok a { ended with depth := ended.depth - 1 }
  | .error e ended => .error e { ended with depth := ended.depth - 1 }

/-- Runs a rule one level deeper, if a further level may be opened. -/
def descend {α : Type} (rule : Parse α) : Parse α := do
  checkDepth
  deeper rule

/-- A rule with as many levels as may still be opened where it starts. -/
def here {α : Type} (rule : Nat → Parse α) : Parse α := fun s p => rule (s.limit - p.depth) s p

/-! ## The rules of the language -/

/-- One operand, where at most `levels` levels may be opened. -/
def value (levels : Nat) : Parse Node := fun s p =>
  match levels with
  | 0 => operand (descend failTooDeep) (descend failTooDeep) s p
  | levels + 1 =>
    let expression : Parse Node := climbing fun s p => value levels s p
    operand (descend (parenthesized expression)) (descend (arguments (commaList expression))) s p

/-- An expression, where at most `levels` levels may be opened. -/
def expression (levels : Nat) : Parse Node := climbing (value levels)

/-- A block, where at most `levels` levels may be opened, its own among them. -/
def block (levels : Nat) : Parse Block := fun s p =>
  match levels with
  | 0 => (do checkDepth; failTooDeep : Parse Block) s p
  | levels + 1 =>
    let block : Parse Block := fun s p => block levels s p
    let list := commaList (expression levels)
    let contents := allStatements (statementWith (expression levels) list block)
    (do checkDepth; braced contents : Parse Block) s p

/-- A statement, where at most `levels` levels may be opened. -/
def statement (levels : Nat) : Parse Node :=
  statementWith (expression levels) (commaList (expression levels)) (block levels)

/-- All statements of the slice, where at most `levels` levels may be opened. -/
def program (levels : Nat) : Parse Block := allStatements (statement levels)

end Parse

/-! ## Running rules -/

/-- A place in a slice. -/
structure Cursor extends Place where
  slice : Slice

namespace Cursor

/-- The start of a list of tokens, where no level is open. -/
def ofTokens (limit : Nat) (tokens : List Token) : Cursor :=
  { rest := tokens, depth := 0, slice := .ofTokens limit tokens }

/-- Runs a rule.  The cursor stays where the rule left it, also when it failed. -/
def run {α : Type} (c : Cursor) (rule : Nat → Parse α) : Except ParseError α × Cursor :=
  match Parse.here rule c.slice c.toPlace with
  | .ok a place => (.ok a, { c with toPlace := place })
  | .error e place => (.error e, { c with toPlace := place })

end Cursor

namespace Node

/-- The nesting that is allowed unless said otherwise. -/
def defaultNesting : Nat := 128

/-- The program of a list of tokens, nested at most `limit` levels deep. -/
def parse (limit : Nat) (tokens : List Token) : Except ParseError Block :=
  ((Cursor.ofTokens limit tokens).run Parse.program).1

end Node

end Abacus
