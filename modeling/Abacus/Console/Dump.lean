import Abacus.Json.Basic
import Abacus.Node.Basic
import Abacus.Token.Basic

/-!
# Tokens and programs as JSON

The command line can show the tokens or the program of a script instead of running it.  A kind or
node with contents is an object with one member, whose key tells which it is.

## Main definitions

* `Abacus.Token.toJson` — a token.
* `Abacus.Node.toJson`, `Abacus.Node.blockToJson` — a node, and a list of nodes.
-/

namespace Abacus

/-- A value under a key that tells what it is. -/
def Json.tagged (tag : String) (value : Json) : Json := .object [.named tag value]

/-! ## Tokens -/

/-- The name of an operator. -/
def Operator.name : Operator → String
  | add => "Add"
  | subtract => "Subtract"
  | multiply => "Multiply"
  | divide => "Divide"

/-- The name of a reserved word. -/
def Keyword.name : Keyword → String
  | ref => "Ref"
  | fn => "Fn"
  | if_ => "If"
  | else_ => "Else"
  | while_ => "While"
  | do_ => "Do"
  | for_ => "For"

/-- The name of a mark. -/
def Mark.name : Mark → String
  | leftParen => "LeftParen"
  | rightParen => "RightParen"
  | leftBrace => "LeftBrace"
  | rightBrace => "RightBrace"
  | leftBracket => "LeftBracket"
  | rightBracket => "RightBracket"
  | comma => "Comma"
  | equals => "Equals"

/-- A kind of token. -/
def Kind.toJson : Kind → Json
  | operator op => .tagged "Operator" (.text op.name)
  | number value => .tagged "Number" (.real value)
  | identifier name => .tagged "Identifier" (.text name)
  | keyword word => .tagged "Keyword" (.text word.name)
  | mark m => .text m.name

/-- A place. -/
def Span.toJson (s : Span) : Json :=
  .object
    [.named "offset" (.natural s.offset), .named "line" (.natural s.line),
      .named "column" (.natural s.column)]

/-- A token. -/
def Token.toJson (t : Token) : Json :=
  .object
    [.named "kind" t.kind.toJson, .named "lexeme" (.text t.lexeme),
      .named "span" t.span.toJson]

/-! ## Programs -/

namespace Node

/-- A list of nodes under the key for statements. -/
def statementsJson (items : List Json) : Json := .tagged "statements" (.array items)

mutual

/-- A node. -/
def toJson : Node → Json
  | literal value => .tagged "Literal" (.real value)
  | name id => .tagged "Identifier" (.text id)
  | binary op left right =>
    .tagged "Infix" (.object
      [.named "operator" (.text op.name), .named "left" left.toJson,
        .named "right" right.toJson])
  | call callee arguments =>
    .tagged "FunctionCall" (.object
      [.named "name" (.text callee), .named "arguments" (.array (listToJson arguments))])
  | declare id value =>
    .tagged "VariableDeclaration" (.object
      [.named "name" (.text id), .named "value" value.toJson])
  | define ⟨id, params, body⟩ =>
    .tagged "FunctionDefinition" (.object
      [.named "name" (.text id), .named "params" (.array (params.map .text)),
        .named "body" (statementsJson (listToJson body))])
  | choose branches none =>
    .tagged "If" (.object
      [.named "branches" (.array (branchesToJson branches)), .named "else_body" .null])
  | choose branches (some body) =>
    .tagged "If" (.object
      [.named "branches" (.array (branchesToJson branches)),
        .named "else_body" (statementsJson (listToJson body))])
  | loop conditions body =>
    .tagged "While" (.object
      [.named "conditions" (.array (listToJson conditions)),
        .named "body" (statementsJson (listToJson body))])
  | block body => .tagged "Block" (statementsJson (listToJson body))

/-- The nodes of a list. -/
def listToJson : List Node → List Json
  | [] => []
  | node :: nodes => node.toJson :: listToJson nodes

/-- The arms of a conditional. -/
def branchesToJson : List (Branch Node) → List Json
  | [] => []
  | ⟨condition, body⟩ :: branches =>
    .object [.named "condition" condition.toJson,
      .named "body" (statementsJson (listToJson body))] :: branchesToJson branches

end

/-- A block. -/
def blockToJson (body : Block) : Json := statementsJson (listToJson body)

end Node

end Abacus
