import Abacus.Failure
import Abacus.Token.Basic

/-!
# Reading tokens

The grammar reads a slice of tokens from left to right.  A rule of the grammar starts in a state in
which some tokens are left, and answers with a result or an error; either way it tells in which
state it ends, so that reading can go on from there.  The rules of this file only look at the
tokens that are left and take them from the front.  So they are given for any kind of state that
has such tokens, whatever else is kept in it.

## Main definitions

* `Abacus.Slice` — what a rule knows about the slice besides the tokens that are left.
* `Abacus.Reading` — states in which tokens are left.
* `Abacus.ParseOver` — a rule of the grammar.
* `Abacus.Parse.peek`, `advance`, `check`, `accept` — looking at the next token and taking it.
* `Abacus.Parse.expect`, `expectNumber`, `expectIdentifier`, `expectOperator` — required tokens.
* `Abacus.Parse.attempt` — tries a rule and goes back if it fails.
-/

namespace Abacus

/-- What a rule knows about its slice: how deep nesting may go, the last token of the slice, and
the token right after it, which is the brace that closes a block. -/
structure Slice where
  limit : Nat
  last : Option Token
  closing : Option Token

namespace Slice

/-- The slice of a whole list of tokens. -/
def ofTokens (limit : Nat) (tokens : List Token) : Slice := ⟨limit, tokens.getLast?, none⟩

/-- What stands where `tokens` are left: the next token, or else the closing brace.  At the end of
the input nothing is found, and the place is that of the last token. -/
def sight (s : Slice) (tokens : List Token) : Sighting :=
  match tokens.head?.or s.closing with
  | some token => ⟨some token.kind.describe, some token.span⟩
  | none => ⟨none, s.last.map (·.span)⟩

end Slice

/-- States of a reader.  In each of them some tokens are left. -/
class Reading (σ : Type) where
  /-- The tokens that are left. -/
  left : σ → List Token
  /-- The state in which other tokens are left. -/
  leave : σ → List Token → σ
  /-- The state in which the contents of a block are read, as a slice of their own. -/
  enter : σ → List Token → σ
  left_leave : ∀ st tokens, left (leave st tokens) = tokens
  leave_left : ∀ st, leave st (left st) = st
  leave_leave : ∀ st tokens tokens', leave (leave st tokens) tokens' = leave st tokens'
  left_enter : ∀ st tokens, left (enter st tokens) = tokens

/-- A rule of the grammar: it reads from the tokens that are left, and leaves some of them. -/
abbrev ParseOver (σ : Type) := ReaderT Slice (EStateM ParseError σ)

namespace Parse

open Reading

variable {σ : Type} [Reading σ]

/-! ## Failing -/

/-- Fails for want of something, at the tokens that are left. -/
def failExpected {α : Type} (what : Expectation) : ParseOver σ α :=
  fun s st => .error (.expected what (s.sight (left st))) st

/-- Fails because nesting would go too deep, at the tokens that are left. -/
def failTooDeep {α : Type} : ParseOver σ α :=
  fun s st => .error (.nestingTooDeep s.limit (s.sight (left st)).span) st

/-- The error that an expression is missing here. -/
def expectedExpression : ParseOver σ ParseError :=
  fun s st => .ok (.expected .expression (s.sight (left st))) st

/-! ## The next token -/

/-- The tokens that are left. -/
def remaining : ParseOver σ (List Token) := fun _ st => .ok (left st) st

/-- The next token, which is left in place. -/
def peek : ParseOver σ (Option Token) := fun _ st => .ok (left st).head? st

/-- What the next token is. -/
def peekKind : ParseOver σ (Option Kind) := fun _ st => .ok ((left st).head?.map (·.kind)) st

/-- The operator that comes next, if an operator does. -/
def peekOperator : ParseOver σ (Option Operator) := do
  match ← peekKind with
  | some (.operator op) => return some op
  | _ => return none

/-- Takes the next token. -/
def advance : ParseOver σ (Option Token) :=
  fun _ st => .ok (left st).head? (leave st (left st).tail)

/-- Whether all tokens have been read. -/
def atEnd : ParseOver σ Bool := fun _ st => .ok (left st).isEmpty st

/-- Whether the next token is of the given kind. -/
def check (kind : Kind) : ParseOver σ Bool := do
  match ← peekKind with
  | some found => return found.agrees kind
  | none => return false

/-- Takes the next token if it is of the given kind, and tells whether it was. -/
def accept (kind : Kind) : ParseOver σ Bool := do
  if ← check kind then
    let _ ← advance
    return true
  else return false

/-- Takes the next token if it is the given reserved word. -/
def acceptKeyword (word : Keyword) : ParseOver σ Bool := accept (.keyword word)

/-- Takes the next token if it is the given mark. -/
def acceptMark (m : Mark) : ParseOver σ Bool := accept (.mark m)

/-! ## Required tokens -/

/-- Takes the next token, which has to be of the given kind. -/
def expect (kind : Kind) (description : String) : ParseOver σ Token := fun s st =>
  match left st with
  | token :: rest =>
    if token.kind.agrees kind then .ok token (leave st rest)
    else failExpected (.text description) s st
  | [] => failExpected (.text description) s st

/-- Takes the next token, which has to be the given mark. -/
def expectMark (m : Mark) : ParseOver σ Unit := do
  let _ ← expect (.mark m) m.quoted

/-- Takes the next token, which has to be a name. -/
def expectIdentifier : ParseOver σ String := fun s st =>
  match left st with
  | ⟨.identifier name, _, _⟩ :: rest => .ok name (leave st rest)
  | _ => failExpected .identifier s st

/-- Takes the next token, which has to be a number. -/
def expectNumber : ParseOver σ Float := fun s st =>
  match left st with
  | ⟨.number value, _, _⟩ :: rest => .ok value (leave st rest)
  | _ => failExpected .number s st

/-- Takes the next token, which has to be an operator. -/
def expectOperator : ParseOver σ Operator := fun s st =>
  match left st with
  | ⟨.operator op, _, _⟩ :: rest => .ok op (leave st rest)
  | _ => failExpected .operator s st

/-! ## Going back -/

/-- Tries a rule.  If it fails, the tokens are left that were left before it. -/
def attempt {α : Type} (rule : ParseOver σ α) : ParseOver σ (Except ParseError α) :=
  fun s st =>
    match rule s st with
    | .ok a ended => .ok (.ok a) ended
    | .error e failed => .ok (.error e) (leave failed (left st))

end Parse

end Abacus
