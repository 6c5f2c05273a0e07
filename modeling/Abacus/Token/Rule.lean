import Abacus.Token.Basic

/-!
# Lexical rules

A rule reads one token off the front of a text.  The four rules are tried in a fixed order and
the first that applies wins, which is why a minus sign right before a digit belongs to the
number.

## Main definitions

* `Abacus.Rule`, `Abacus.Rule.table` — the rules, in the order in which they are tried.
* `Abacus.Match` — a rule, the characters it read and what they are.
* `Abacus.Rule.read?` — one rule at the start of a text.
* `Abacus.Match.first?` — the first rule of the table that applies.

## Main results

* `Abacus.Rule.read?_lexeme` — what a rule reads is a start of the text, and not empty.
-/

namespace Abacus

/-- A lexical rule. -/
inductive Rule where
  | number
  | operator
  | identifier
  | punctuation
deriving DecidableEq, Repr

/-- What a rule read off the front of a text. -/
structure Match where
  rule : Rule
  lexeme : List Char
  kind : Kind

namespace Rule

/-- The rules in the order in which they are tried. -/
def table : List Rule := [number, operator, identifier, punctuation]

/-- The name of a rule. -/
def name : Rule → String
  | number => "number"
  | operator => "operator"
  | identifier => "identifier"
  | punctuation => "punctuation"

/-- The characters that a name may start with. -/
def startsName (c : Char) : Bool := c.isAlpha || c = '_' || c = '$'

/-- The characters that a name may go on with. -/
def continuesName (c : Char) : Bool := startsName c || c.isDigit

/-- Splits off a minus sign. -/
def splitMinus : List Char → List Char × List Char
  | '-' :: cs => (['-'], cs)
  | cs => ([], cs)

/-- A point and the digits after it, of which there may be none. -/
def fraction : List Char → List Char
  | '.' :: cs => '.' :: cs.takeWhile Char.isDigit
  | _ => []

/-- Reads a number: digits, before them an optional minus sign, after them an optional
fraction. -/
def number? (cs : List Char) : Option Match :=
  let (sign, body) := splitMinus cs
  let whole := body.takeWhile Char.isDigit
  let part := fraction (body.dropWhile Char.isDigit)
  if whole.isEmpty then none
  else some
    { rule := number
      lexeme := sign ++ whole ++ part
      kind := .number (Decimal.ofDigits (!sign.isEmpty) whole (part.drop 1) 0).toFloat }

/-- Reads an operator. -/
def operator? : List Char → Option Match
  | [] => none
  | c :: _ => (Operator.ofSymbol? c).map fun op => ⟨operator, [c], .operator op⟩

/-- What a word is: a reserved word, or else a name. -/
def word (text : String) : Kind :=
  match Keyword.ofText? text with
  | some k => .keyword k
  | none => .identifier text

/-- Reads a name or a reserved word. -/
def identifier? : List Char → Option Match
  | [] => none
  | c :: cs =>
    if startsName c then
      let lexeme := c :: cs.takeWhile continuesName
      some ⟨identifier, lexeme, word (String.ofList lexeme)⟩
    else none

/-- Reads a punctuation mark. -/
def punctuation? : List Char → Option Match
  | [] => none
  | c :: _ => (Mark.ofSymbol? c).map fun m => ⟨punctuation, [c], .mark m⟩

/-- Reads a token by one rule off the front of a text. -/
def read? : Rule → List Char → Option Match
  | number => number?
  | operator => operator?
  | identifier => identifier?
  | punctuation => punctuation?

/-! ## What a rule reads -/

theorem splitMinus_append (cs : List Char) : (splitMinus cs).1 ++ (splitMinus cs).2 = cs := by
  unfold splitMinus
  split <;> rfl

theorem fraction_isPrefix (cs : List Char) : fraction cs <+: cs := by
  unfold fraction
  split
  · exact List.cons_prefix_cons.2 ⟨rfl, List.takeWhile_prefix _⟩
  · exact List.nil_prefix

theorem number?_lexeme {cs : List Char} {m : Match} (h : number? cs = some m) :
    m.lexeme ≠ [] ∧ m.lexeme <+: cs := by
  simp only [number?, Option.ite_none_left_eq_some, Option.some.injEq] at h
  obtain ⟨hne, rfl⟩ := h
  refine ⟨by simpa using fun _ h => absurd h (by simpa using hne), ?_⟩
  -- The digits and the fraction are a start of what follows the sign.
  obtain ⟨rest, hrest⟩ := fraction_isPrefix ((splitMinus cs).2.dropWhile Char.isDigit)
  refine ⟨rest, ?_⟩
  rw [List.append_assoc, hrest, List.append_assoc, List.takeWhile_append_dropWhile,
    splitMinus_append]

theorem identifier?_lexeme {cs : List Char} {m : Match} (h : identifier? cs = some m) :
    m.lexeme ≠ [] ∧ m.lexeme <+: cs := by
  match cs with
  | [] => simp [identifier?] at h
  | c :: cs =>
    simp only [identifier?] at h
    split at h
    · obtain rfl := Option.some.inj h
      exact ⟨by simp, (cs.dropWhile continuesName), by simp⟩
    · simp at h

/-- What a rule reads is a start of the text, and not empty. -/
theorem read?_lexeme {rule : Rule} {cs : List Char} {m : Match} (h : rule.read? cs = some m) :
    m.lexeme ≠ [] ∧ m.lexeme <+: cs := by
  cases rule with
  | number => exact number?_lexeme h
  | identifier => exact identifier?_lexeme h
  | operator =>
    cases cs with
    | nil => simp [read?, operator?] at h
    | cons c cs =>
      obtain ⟨op, -, rfl⟩ := Option.map_eq_some_iff.1 h
      exact ⟨by simp, cs, rfl⟩
  | punctuation =>
    cases cs with
    | nil => simp [read?, punctuation?] at h
    | cons c cs =>
      obtain ⟨op, -, rfl⟩ := Option.map_eq_some_iff.1 h
      exact ⟨by simp, cs, rfl⟩

end Rule

namespace Match

/-- The bytes of the characters read. -/
def size (m : Match) : Nat := m.lexeme.foldr (fun c bytes => c.utf8Size + bytes) 0

/-- What the first applicable rule of the table reads. -/
def first? (cs : List Char) : Option Match := Rule.table.findSome? (·.read? cs)

/-- What the table reads is a start of the text, and not empty. -/
theorem first?_lexeme {cs : List Char} {m : Match} (h : first? cs = some m) :
    m.lexeme ≠ [] ∧ m.lexeme <+: cs := by
  obtain ⟨rule, -, h⟩ := List.exists_of_findSome?_eq_some h
  exact Rule.read?_lexeme h

end Match

end Abacus
