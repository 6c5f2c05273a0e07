import Abacus.Node.Expression

/-!
# Statements and blocks

A statement binds a variable or a function, chooses, loops, or is an expression.  A block is a
list of statements in braces.  The tokens of a block are found first, by matching braces, and are
then read as a slice of their own that ends at the closing brace.

## Main definitions

* `Abacus.Parse.Enclosed`, `Abacus.Parse.enclosed?` — the tokens up to the matching brace.
* `Abacus.Parse.braced` — a block, given the rule for its contents.
* `Abacus.Parse.statementWith` — a statement, given the rules for expressions, lists and blocks.
* `Abacus.Parse.allStatements` — all statements of a slice, given the rule for one.
-/

namespace Abacus

namespace Parse

open Reading

variable {σ : Type} [Reading σ]

/-! ## Matching braces -/

/-- The tokens of a block, the brace that closes it, and the tokens after that. -/
structure Enclosed where
  body : List Token
  closing : Token
  rest : List Token

/-- The tokens up to the brace that closes the block, where `depth` further braces have been
opened on the way. -/
def enclosed? (depth : Nat) : List Token → Option Enclosed
  | [] => none
  | token :: tokens =>
    match token.kind, depth with
    | .mark .leftBrace, _ => (enclosed? (depth + 1) tokens).map (push token)
    | .mark .rightBrace, 0 => some ⟨[], token, tokens⟩
    | .mark .rightBrace, depth + 1 => (enclosed? depth tokens).map (push token)
    | _, _ => (enclosed? depth tokens).map (push token)
where
  /-- Puts a token in front of the body. -/
  push (token : Token) (e : Enclosed) : Enclosed := { e with body := token :: e.body }

/-- What stands in a block after its opening brace: the contents up to the matching brace, read by
`contents`, and that brace.  If the contents fail, no token is taken. -/
def enclosed (contents : ParseOver σ Block) : ParseOver σ Block := fun s st =>
  match enclosed? 0 (left st) with
  | none => .error (.expected (.text Mark.rightBrace.quoted) ⟨none, s.last.map (·.span)⟩) st
  | some ⟨body, closing, rest⟩ =>
    match contents ⟨s.limit, body.getLast?, some closing⟩ (enter st body) with
    | .ok statements _ => .ok statements (leave st rest)
    | .error e _ => .error e st

/-- A block: contents in braces. -/
def braced (contents : ParseOver σ Block) : ParseOver σ Block := do
  expectMark .leftBrace
  enclosed contents

/-! ## Statements -/

/-- The names of a function's parameters.  An entry that is not a plain name is reported at its
first token. -/
def paramNames : List Entry → Except ParseError (List String)
  | [] => .ok []
  | ⟨.name id, _⟩ :: entries => return id :: (← paramNames entries)
  | ⟨_, first⟩ :: _ =>
    .error (.expected .identifier ⟨some first.kind.describe, some first.span⟩)

/-- A declaration, after its reserved word. -/
def declaration (expression : ParseOver σ Node) : ParseOver σ Node := do
  let name ← expectIdentifier
  expectMark .equals
  return .declare name (← expression)

/-- A function definition, after its reserved word.  Its parameters are read by `list`. -/
def definition (list : ParseOver σ (List Entry)) (block : ParseOver σ Block) :
    ParseOver σ Node := do
  let name ← expectIdentifier
  expectMark .leftParen
  let entries ← list
  match paramNames entries with
  | .error e => throw e
  | .ok params =>
    expectMark .rightParen
    return .define ⟨name, params, ← block⟩

/-- A condition with its body. -/
def branch (expression : ParseOver σ Node) (block : ParseOver σ Block) :
    ParseOver σ (Branch Node) := do
  let condition ← expression
  return ⟨condition, ← block⟩

/-- What follows the first arm of a conditional: further arms, at most `count` of them, and the body
to be run if no condition holds. -/
def elseArms (expression : ParseOver σ Node) (block : ParseOver σ Block) (count : Nat) :
    ParseOver σ (List (Branch Node) × Option Block) :=
  match count with
  | 0 => return ([], none)
  | count + 1 => do
    if ← acceptKeyword .else_ then
      if ← acceptKeyword .if_ then
        let arm ← branch expression block
        let (arms, otherwise) ← elseArms expression block count
        return (arm :: arms, otherwise)
      else return ([], some (← block))
    else return ([], none)

/-- A conditional, after its reserved word. -/
def conditional (expression : ParseOver σ Node) (block : ParseOver σ Block) : ParseOver σ Node := do
  let first ← branch expression block
  let tokens ← remaining
  let (arms, otherwise) ← elseArms expression block tokens.length
  return .choose (first :: arms) otherwise

/-- A loop, after its reserved word. -/
def loop (expression : ParseOver σ Node) (block : ParseOver σ Block) : ParseOver σ Node := do
  let condition ← expression
  return .loop [condition] (← block)

/-- A statement, told by the reserved word that it starts with. -/
def statementWith (expression : ParseOver σ Node) (list : ParseOver σ (List Entry))
    (block : ParseOver σ Block) : ParseOver σ Node := do
  if ← acceptKeyword .ref then declaration expression
  else if ← acceptKeyword .fn then definition list block
  else if ← acceptKeyword .if_ then conditional expression block
  else if ← acceptKeyword .while_ then loop expression block
  else if ← acceptKeyword .for_ then loop expression block
  else expression

/-- Statements up to the end of the slice, at most `count` of them. -/
def statements (statement : ParseOver σ Node) (count : Nat) : ParseOver σ Block :=
  match count with
  | 0 => return []
  | count + 1 => do
    if ← atEnd then return []
    else
      let first ← statement
      return first :: (← statements statement count)

/-- All statements of the slice.  A statement takes up a token at least, so there are no more
statements than tokens. -/
def allStatements (statement : ParseOver σ Node) : ParseOver σ Block := do
  let tokens ← remaining
  statements statement tokens.length

end Parse

end Abacus
