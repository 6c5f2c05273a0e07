import Abacus.Keyword
import Abacus.Number
import Abacus.Operator
import Abacus.Span

/-!
# Tokens

A token is a word of a script: what it is, how it was written, and where it starts.

## Main definitions

* `Abacus.Mark` — brackets, braces, parentheses, the comma and the equals sign.
* `Abacus.Kind` — what a token is.
* `Abacus.Kind.describe` — a kind in words, for messages.
* `Abacus.Kind.agrees` — whether two kinds are the same, numbers compared as numbers.
* `Abacus.Token` — a kind, its spelling and its place.
-/

namespace Abacus

/-- A punctuation mark. -/
inductive Mark where
  | leftParen
  | rightParen
  | leftBrace
  | rightBrace
  | leftBracket
  | rightBracket
  | comma
  | equals
deriving DecidableEq, Repr

namespace Mark

/-- The spelling of a mark. -/
def symbol : Mark → Char
  | leftParen => '('
  | rightParen => ')'
  | leftBrace => '\x7b'
  | rightBrace => '\x7d'
  | leftBracket => '['
  | rightBracket => ']'
  | comma => ','
  | equals => '='

/-- All marks. -/
def all : List Mark :=
  [leftParen, rightParen, leftBrace, rightBrace, leftBracket, rightBracket, comma, equals]

/-- The mark with a given spelling. -/
def ofSymbol? (c : Char) : Option Mark := all.find? (·.symbol = c)

/-- A mark in words: its spelling between backticks. -/
def quoted (m : Mark) : String := String.ofList ['`', m.symbol, '`']

/-- A mark is found by its own spelling. -/
theorem ofSymbol?_symbol (m : Mark) : ofSymbol? m.symbol = some m := by
  cases m <;> rfl

end Mark

/-- What a token is.  Numbers and names carry what they stand for. -/
inductive Kind where
  | operator (op : Operator)
  | number (value : Float)
  | identifier (name : String)
  | keyword (word : Keyword)
  | mark (m : Mark)

namespace Kind

/-- A kind in words, for messages. -/
def describe : Kind → String
  | operator op => "operator `" ++ String.singleton op.symbol ++ "`"
  | number value => "number `" ++ Number.text value ++ "`"
  | identifier name => "identifier `" ++ name ++ "`"
  | keyword word => "keyword `" ++ word.text ++ "`"
  | mark m => m.quoted

/-- Whether two kinds are the same.  Numbers are compared as numbers: the undefined number
agrees with nothing, and the two zeros agree. -/
def agrees : Kind → Kind → Bool
  | operator a, operator b => a = b
  | number x, number y => x == y
  | identifier a, identifier b => a = b
  | keyword a, keyword b => a = b
  | mark a, mark b => a = b
  | _, _ => false

end Kind

/-- A word of a script. -/
structure Token where
  kind : Kind
  lexeme : String
  span : Span

end Abacus
