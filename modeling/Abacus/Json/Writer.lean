import Abacus.Json.Numeral

/-!
# Writing JSON

A JSON value is written in one of two styles: without any blanks, or with every item and member on a
line of its own, indented by two spaces a level.  Writers put their text in front of what follows.

## Main definitions

* `Abacus.Json.Style`, `Abacus.Json.Style.compact`, `Abacus.Json.Style.pretty` — the two styles.
* `Abacus.Json.quote` — a string between quotes.
* `Abacus.Json.writeOnto`, `Abacus.Json.write` — the text of a value.
-/

namespace Abacus

namespace Json

/-! ## Strings -/

/-- A hexadecimal digit. -/
def hexDigit (n : Nat) : Char := if n < 10 then Char.ofNat (48 + n) else Char.ofNat (87 + n)

/-- A character of a string as it is written.  Quotes, backslashes and control characters are
escaped, all else stands for itself. -/
def escape (c : Char) : List Char :=
  match c with
  | '"' => ['\\', '"']
  | '\\' => ['\\', '\\']
  | '\x08' => ['\\', 'b']
  | '\x0c' => ['\\', 'f']
  | '\n' => ['\\', 'n']
  | '\r' => ['\\', 'r']
  | '\t' => ['\\', 't']
  | c =>
    if c.toNat < 0x20 then ['\\', 'u', '0', '0', hexDigit (c.toNat / 16), hexDigit (c.toNat % 16)]
    else [c]

/-- A string between quotes.  One without a text is written as half of a surrogate pair. -/
def quote : Option String → List Char
  | some s => '"' :: (s.toList.flatMap escape ++ ['"'])
  | none => ['"', '\\', 'u', 'd', '8', '0', '0', '"']

/-! ## Values -/

/-- A style of writing: what stands before an item of a given depth, and between a key and its
value. -/
structure Style where
  lineBreak : Nat → List Char
  colon : List Char

/-- Without any blanks. -/
def Style.compact : Style := ⟨fun _ => [], [':']⟩

/-- Every item on a line of its own. -/
def Style.pretty : Style := ⟨fun depth => '\n' :: List.replicate (2 * depth) ' ', [':', ' ']⟩

mutual

/-- Writes a value, nested `depth` deep, in front of `rest`. -/
def writeOnto (style : Style) (depth : Nat) : Json → List Char → List Char
  | null, rest => 'n' :: 'u' :: 'l' :: 'l' :: rest
  | bool true, rest => 't' :: 'r' :: 'u' :: 'e' :: rest
  | bool false, rest => 'f' :: 'a' :: 'l' :: 's' :: 'e' :: rest
  | natural n, rest => Decimal.digitsOf n ++ rest
  | real x, rest => realText x ++ rest
  | string text, rest => quote text ++ rest
  | array [], rest => '[' :: ']' :: rest
  | array (item :: items), rest =>
    '[' :: style.lineBreak (depth + 1) ++
      writeOnto style (depth + 1) item
        (writeItems style depth items (style.lineBreak depth ++ ']' :: rest))
  | object [], rest => '\x7b' :: '\x7d' :: rest
  | object (⟨key, value⟩ :: members), rest =>
    '\x7b' :: style.lineBreak (depth + 1) ++ quote key ++ style.colon ++
      writeOnto style (depth + 1) value
        (writeMembers style depth members (style.lineBreak depth ++ '\x7d' :: rest))

/-- Writes further items of an array that is nested `depth` deep. -/
def writeItems (style : Style) (depth : Nat) : List Json → List Char → List Char
  | [], rest => rest
  | item :: items, rest =>
    ',' :: style.lineBreak (depth + 1) ++
      writeOnto style (depth + 1) item (writeItems style depth items rest)

/-- Writes further members of an object that is nested `depth` deep. -/
def writeMembers (style : Style) (depth : Nat) : List (Member Json) → List Char → List Char
  | [], rest => rest
  | ⟨key, value⟩ :: members, rest =>
    ',' :: style.lineBreak (depth + 1) ++ quote key ++ style.colon ++
      writeOnto style (depth + 1) value (writeMembers style depth members rest)

end

/-- The text of a value. -/
def write (style : Style) (value : Json) : String := String.ofList (writeOnto style 0 value [])

end Json

end Abacus
