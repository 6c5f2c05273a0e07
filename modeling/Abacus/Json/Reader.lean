import Abacus.Json.Numeral

/-!
# Reading JSON

A strict reader of JSON texts: blanks between tokens are the space, the tab, the line feed and the
carriage return; there are no comments, no commas at the end of a list and no control characters
in strings; nothing follows the value.  Every reader answers with what it read and the rest of the
text.

## Main definitions

* `Abacus.Json.units?`, `Abacus.Json.decode?` — the contents of a string.
* `Abacus.Json.value?`, `items?`, `members?` — values, and the contents of arrays and objects.
* `Abacus.Json.parse?` — the value of a whole text.
-/

namespace Abacus

namespace Json

/-- Drops blanks. -/
def skipBlanks (cs : List Char) : List Char :=
  cs.dropWhile fun c => c = ' ' || c = '\t' || c = '\n' || c = '\r'

/-- Reads exactly these characters. -/
def exactly? (wanted cs : List Char) : Option (List Char) :=
  if wanted.isPrefixOf cs then some (cs.drop wanted.length) else none

/-! ## Strings -/

/-- The value of a hexadecimal digit. -/
def hexValue? (c : Char) : Option Nat :=
  if c.isDigit then some (c.toNat - '0'.toNat)
  else if 'a' ≤ c && c ≤ 'f' then some (c.toNat - 'a'.toNat + 10)
  else if 'A' ≤ c && c ≤ 'F' then some (c.toNat - 'A'.toNat + 10)
  else none

/-- The value of four hexadecimal digits. -/
def hexValue4? (a b c d : Char) : Option Nat := do
  return 16 * (16 * (16 * (← hexValue? a) + (← hexValue? b)) + (← hexValue? c)) + (← hexValue? d)

/-- The character that a letter after a backslash stands for. -/
def escaped? : Char → Option Char
  | '"' => some '"'
  | '\\' => some '\\'
  | '/' => some '/'
  | 'b' => some '\x08'
  | 'f' => some '\x0c'
  | 'n' => some '\n'
  | 'r' => some '\r'
  | 't' => some '\t'
  | _ => none

/-- Reads the contents of a string and its closing quote: the code points of the characters, and
those of halves of surrogate pairs as they are written. -/
def units? : List Char → Option (List Nat × List Char)
  | [] => none
  | '"' :: cs => some ([], cs)
  | '\\' :: 'u' :: a :: b :: c :: d :: cs => do
    let unit ← hexValue4? a b c d
    let (units, rest) ← units? cs
    return (unit :: units, rest)
  | '\\' :: letter :: cs => do
    let c ← escaped? letter
    let (units, rest) ← units? cs
    return (c.toNat :: units, rest)
  | c :: cs => do
    if c.toNat < 0x20 then none
    let (units, rest) ← units? cs
    return (c.toNat :: units, rest)

/-- Whether a code point is the first half of a surrogate pair. -/
def isHigh (n : Nat) : Bool := 0xd800 ≤ n && n ≤ 0xdbff

/-- Whether a code point is the second half of a surrogate pair. -/
def isLow (n : Nat) : Bool := 0xdc00 ≤ n && n ≤ 0xdfff

/-- The characters of some code points, surrogate pairs joined.  There are none if a half is left
over. -/
def decode? : List Nat → Option (List Char)
  | [] => some []
  | [n] => if isHigh n || isLow n then none else some [Char.ofNat n]
  | m :: n :: units =>
    if isHigh m && isLow n then
      (decode? units).map (Char.ofNat (0x10000 + (m - 0xd800) * 0x400 + (n - 0xdc00)) :: ·)
    else if isHigh m || isLow m then none
    else (decode? (n :: units)).map (Char.ofNat m :: ·)

/-- Reads a string after its opening quote. -/
def string? (cs : List Char) : Option (Option String × List Char) := do
  let (units, rest) ← units? cs
  return ((decode? units).map String.ofList, rest)

/-! ## Values -/

mutual

/-- Reads a value, after blanks.  A value nested inside takes up less of the text, so the length of
the text bounds the nesting; `fuel` counts it down. -/
def value? (fuel : Nat) (cs : List Char) : Option (Json × List Char) :=
  match fuel with
  | 0 => none
  | fuel + 1 =>
    match skipBlanks cs with
    | '"' :: cs => (string? cs).map fun (text, rest) => (string text, rest)
    | '[' :: cs =>
      match skipBlanks cs with
      | ']' :: rest => some (array [], rest)
      | cs => (items? fuel cs).map fun (items, rest) => (array items, rest)
    | '\x7b' :: cs =>
      match skipBlanks cs with
      | '\x7d' :: rest => some (object [], rest)
      | cs => (members? fuel cs).map fun (members, rest) => (object members, rest)
    | 'n' :: cs => (exactly? ['u', 'l', 'l'] cs).map fun rest => (null, rest)
    | 't' :: cs => (exactly? ['r', 'u', 'e'] cs).map fun rest => (bool true, rest)
    | 'f' :: cs => (exactly? ['a', 'l', 's', 'e'] cs).map fun rest => (bool false, rest)
    | cs => (Numeral.read? cs).map fun (n, rest) => (n.toJson Numeral.toFloat, rest)

/-- Reads the items of an array, at least one, and the closing bracket. -/
def items? (fuel : Nat) (cs : List Char) : Option (List Json × List Char) :=
  match fuel with
  | 0 => none
  | fuel + 1 => do
    let (item, cs) ← value? fuel cs
    match skipBlanks cs with
    | ']' :: rest => return ([item], rest)
    | ',' :: cs =>
      let (items, rest) ← items? fuel cs
      return (item :: items, rest)
    | _ => none

/-- Reads the members of an object, at least one, and the closing brace. -/
def members? (fuel : Nat) (cs : List Char) : Option (List (Member Json) × List Char) :=
  match fuel with
  | 0 => none
  | fuel + 1 =>
    match skipBlanks cs with
    | '"' :: cs => do
      let (key, cs) ← string? cs
      match skipBlanks cs with
      | ':' :: cs =>
        let (value, cs) ← value? fuel cs
        match skipBlanks cs with
        | '\x7d' :: rest => return ([⟨key, value⟩], rest)
        | ',' :: cs =>
          let (members, rest) ← members? fuel cs
          return (⟨key, value⟩ :: members, rest)
        | _ => none
      | _ => none
    | _ => none

end

/-- The value of a whole text.  Two calls at most go by without reading a character. -/
def parse? (source : String) : Option Json := do
  let cs := source.toList
  let (value, rest) ← value? (2 * cs.length + 2) cs
  if (skipBlanks rest).isEmpty then some value else none

end Json

end Abacus
