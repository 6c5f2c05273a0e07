import Mathlib.Tactic.Common
import Abacus.Proofs.Numerals
import Abacus.Proofs.Separators
import Abacus.Proofs.Shape

/-!
# Lexemes

A lexeme is a text that is wholly a number, an operator, a word or a punctuation mark.  The rule
table reads a lexeme off the front of a text exactly if what follows cannot be read with it: digits
go on with a number and with a minus sign, a point with a number that has none, letters and digits
with a word, and a second slash makes a comment of a slash.

Which texts can be read at all is a matter of their first character alone.

## Main definitions

* `Abacus.Lexeme` — a text that is wholly one token, with its kind.
* `Abacus.Kind.Joins` — a character that is read with the lexeme before it.
* `Abacus.Rule.StartsLexeme` — the characters that a lexeme can start with.

## Main results

* `Abacus.Lexeme.first?_append`, `Abacus.Lexeme.solid_append` — a lexeme is read where nothing joins
  it.
* `Abacus.Lexeme.unique` — a text starts with one lexeme at most.
* `Abacus.Match.lexeme_of_first?` — what is read is a lexeme, and nothing joins it.
* `Abacus.Match.first?_eq_none_iff` — nothing is read exactly where no lexeme can start.
-/

namespace Abacus

/-! ## Lexemes and their kinds -/

/-- A text that is wholly one token, with its kind.  A word is a name unless it is reserved. -/
inductive Lexeme : List Char → Kind → Prop
  | number {text : List Char} {d : Decimal} :
      Decimal.Spells text d → Lexeme text (.number d.toFloat)
  | operator (op : Operator) : Lexeme [op.symbol] (.operator op)
  | keyword (word : Keyword) : Lexeme word.text.toList (.keyword word)
  | identifier {name : String} : IsName name → Lexeme name.toList (.identifier name)
  | mark (m : Mark) : Lexeme [m.symbol] (.mark m)

/-- A character right after a lexeme that is read with it, so that the lexeme is not a token. -/
def Kind.Joins (lexeme : List Char) (c : Char) : Kind → Prop
  | number _ => c.isDigit = true ∨ '.' ∉ lexeme ∧ c = '.'
  | identifier _ | keyword _ => Rule.continuesName c = true
  | operator op => op = .subtract ∧ c.isDigit = true ∨ op = .divide ∧ c = '/'
  | mark _ => False

/-- The characters that a lexeme can start with. -/
def Rule.StartsLexeme (c : Char) : Prop :=
  c.isAlpha = true ∨ c.isDigit = true ∨
    c ∈ ['_', '$', '*', '/', '+', '-', '(', ')', '=', '\x7b', '\x7d', '[', ']', ',']

/-! ## Rules that do not apply -/

/-- No operator starts a name. -/
lemma Operator.ofSymbol?_of_startsName {c : Char} (h : Rule.startsName c = true) :
    ofSymbol? c = none := by
  refine Option.eq_none_iff_forall_ne_some.2 fun op hop => ?_
  rw [eq_symbol_of_ofSymbol? hop] at h
  cases op <;> exact absurd h (by decide)

namespace Rule

/-- No number starts with anything but a minus sign or a digit. -/
lemma number?_of_not_digit {c : Char} (hminus : c ≠ '-') (hdigit : c.isDigit = false)
    (cs : List Char) : number? (c :: cs) = none := by
  have hsplit : splitMinus (c :: cs) = ([], c :: cs) := by
    rw [splitMinus]
    rintro _ ⟨⟩
    exact hminus rfl
  simp [number?, hsplit, hdigit]

/-- A number is read at every digit. -/
private lemma number?_of_digit {c : Char} (hdigit : c.isDigit = true) (cs : List Char) :
    number? (c :: cs) ≠ none := by
  have hsplit : splitMinus (c :: cs) = ([], c :: cs) := by
    rw [splitMinus]
    rintro _ ⟨⟩
    exact absurd hdigit (by decide)
  simp [number?, hsplit, hdigit]

/-- No number starts with what starts a name. -/
private lemma number?_of_startsName {c : Char} (h : startsName c = true) (cs : List Char) :
    number? (c :: cs) = none := by
  have hplace := toNat_of_startsName h
  refine number?_of_not_digit ?_ (Bool.eq_false_iff.2 fun hdigit => ?_) cs
  · rintro rfl
    exact absurd hplace (by decide)
  · have hplace' := toNat_of_isDigit hdigit
    omega

/-- A minus sign starts a number exactly in front of a digit. -/
lemma number?_minus_eq_none_iff {cs : List Char} :
    number? ('-' :: cs) = none ↔ ∀ c ∈ cs.head?, c.isDigit = false := by
  cases cs with
  | nil => simp [number?, splitMinus]
  | cons c cs => simp [number?, splitMinus]

/-- A name is read, up to something that cannot go on with it. -/
private lemma identifier?_append {text rest : List Char} (h : spellsWord text = true)
    (hrest : ∀ c ∈ rest.head?, continuesName c = false) :
    identifier? (text ++ rest) = some ⟨.identifier, text, word (String.ofList text)⟩ := by
  cases text with
  | nil => cases h
  | cons c cs =>
    rw [spellsWord, Bool.and_eq_true, List.all_eq_true] at h
    obtain ⟨hc, hcs⟩ := h
    simp [identifier?, hc, takeWhile_append_of_head? hcs hrest]

end Rule

namespace Match

/-- The rules of the table are tried in order. -/
lemma first?_eq (cs : List Char) :
    first? cs = (Rule.number? cs).or ((Rule.operator? cs).or
      ((Rule.identifier? cs).or (Rule.punctuation? cs))) := by
  simp only [first?, Rule.table, Rule.read?, List.findSome?_cons, List.findSome?_nil]
  cases Rule.number? cs <;> cases Rule.operator? cs <;> cases Rule.identifier? cs <;>
    cases Rule.punctuation? cs <;> rfl

/-- A word is read whole where no character goes on with it. -/
lemma first?_word {text rest : List Char} (h : Rule.spellsWord text = true)
    (hrest : ∀ c ∈ rest.head?, Rule.continuesName c = false) :
    first? (text ++ rest) = some ⟨.identifier, text, Rule.word (String.ofList text)⟩ := by
  have hread := Rule.identifier?_append h hrest
  cases text with
  | nil => cases h
  | cons c cs =>
    have hc : Rule.startsName c = true := by
      rw [Rule.spellsWord, Bool.and_eq_true] at h
      exact h.1
    rw [first?_eq, List.cons_append, Rule.number?_of_startsName hc, Rule.operator?,
      Operator.ofSymbol?_of_startsName hc, ← List.cons_append, hread]
    rfl

end Match

/-! ## Reading a lexeme -/

/-- A blank joins no lexeme. -/
lemma Kind.not_joins_of_isBlank {c : Char} (h : Text.isBlank c = true) (lexeme : List Char)
    (kind : Kind) : ¬ kind.Joins lexeme c := by
  have hdigit := Rule.isDigit_of_isBlank h
  have hname := Rule.continuesName_of_isBlank h
  cases kind with
  | number value =>
    rintro (hjoins | ⟨-, rfl⟩)
    · simp [hdigit] at hjoins
    · exact absurd h (by decide)
  | operator op =>
    rintro (⟨-, hjoins⟩ | ⟨-, rfl⟩)
    · simp [hdigit] at hjoins
    · exact absurd h (by decide)
  | identifier name => simp [Joins, hname]
  | keyword word => simp [Joins, hname]
  | mark m => exact id

namespace Lexeme

variable {lexeme rest : List Char} {kind : Kind}

/-- **A lexeme is read where nothing joins it.** -/
theorem first?_append (h : Lexeme lexeme kind)
    (hrest : ∀ c ∈ rest.head?, ¬ kind.Joins lexeme c) :
    ∃ rule, Match.first? (lexeme ++ rest) = some ⟨rule, lexeme, kind⟩ := by
  cases h with
  | number hspells =>
    refine ⟨.number, ?_⟩
    rw [Match.first?_eq, hspells.number?_append]
    · rfl
    · exact fun c hc => Bool.eq_false_iff.2 fun hdigit => hrest c hc (.inl hdigit)
    · exact fun hnot c hc hpoint => hrest c hc (.inr ⟨hnot, hpoint⟩)
  | operator op =>
    have hnumber : Rule.number? (op.symbol :: rest) = none := by
      cases op with
      | subtract =>
        refine Rule.number?_minus_eq_none_iff.2 fun c hc => Bool.eq_false_iff.2 fun hdigit => ?_
        exact hrest c hc (.inl ⟨rfl, hdigit⟩)
      | _ => rfl
    refine ⟨.operator, ?_⟩
    rw [Match.first?_eq, List.singleton_append, hnumber, Rule.operator?, Operator.ofSymbol?_symbol]
    rfl
  | keyword word =>
    refine ⟨.identifier, ?_⟩
    rw [Match.first?_word]
    · rw [String.ofList_toList, Rule.word, Keyword.ofText?_text]
    · cases word <;> decide
    · exact fun c hc => Bool.eq_false_iff.2 fun hnext => hrest c hc hnext
  | identifier hname =>
    refine ⟨.identifier, ?_⟩
    rw [Match.first?_word hname.spellsWord]
    · rw [String.ofList_toList, Rule.word, hname.not_reserved]
    · exact fun c hc => Bool.eq_false_iff.2 fun hnext => hrest c hc hnext
  | mark m => exact ⟨.punctuation, by cases m <;> rfl⟩

/-- Where nothing joins a lexeme, neither a blank nor a comment starts with it. -/
theorem solid_append (h : Lexeme lexeme kind)
    (hrest : ∀ c ∈ rest.head?, ¬ kind.Joins lexeme c) : Token.Solid (lexeme ++ rest) := by
  obtain ⟨rule, hread⟩ := h.first?_append hrest
  constructor
  · intro c more hcs
    rw [hcs] at hread
    refine Bool.eq_false_iff.2 fun hblank => ?_
    have hnone : Match.first? (c :: more) = none := Match.first?_append_blank hblank [] more
    rw [hnone] at hread
    cases hread
  · intro more hcs
    -- the rule table would read one slash, which the other one joins
    have hslash : Match.first? (lexeme ++ rest) = some ⟨.operator, ['/'], .operator .divide⟩ := by
      rw [hcs]
      rfl
    rw [hslash] at hread
    cases hread
    obtain rfl : rest = '/' :: more := by simpa using hcs
    exact hrest '/' rfl (.inr ⟨rfl, rfl⟩)

/-- A lexeme with anything after it is not empty. -/
lemma append_ne_nil (h : Lexeme lexeme kind)
    (hrest : ∀ c ∈ rest.head?, ¬ kind.Joins lexeme c) : lexeme ++ rest ≠ [] := by
  intro hnil
  obtain ⟨rule, hread⟩ := h.first?_append hrest
  rw [hnil] at hread
  cases hread

/-- A text is a lexeme and what follows it in one way only. -/
theorem unique {lexeme' rest' : List Char} {kind' : Kind} (h : Lexeme lexeme kind)
    (hrest : ∀ c ∈ rest.head?, ¬ kind.Joins lexeme c) (h' : Lexeme lexeme' kind')
    (hrest' : ∀ c ∈ rest'.head?, ¬ kind'.Joins lexeme' c)
    (htext : lexeme ++ rest = lexeme' ++ rest') :
    lexeme = lexeme' ∧ kind = kind' ∧ rest = rest' := by
  obtain ⟨rule, hread⟩ := h.first?_append hrest
  obtain ⟨rule', hread'⟩ := h'.first?_append hrest'
  rw [← htext, hread] at hread'
  cases hread'
  exact ⟨rfl, rfl, List.append_cancel_left htext⟩

end Lexeme

/-! ## What is read is a lexeme -/

/-- A reserved word is found by its text. -/
lemma Keyword.text_of_ofText? {text : String} {word : Keyword} (h : ofText? text = some word) :
    word.text = text := by
  simpa using List.find?_some h

/-- A mark is found by its symbol. -/
lemma Mark.symbol_of_ofSymbol? {c : Char} {m : Mark} (h : ofSymbol? c = some m) :
    m.symbol = c := by
  simpa using List.find?_some h

namespace Rule

variable {cs : List Char} {m : Match}

/-- What is read as an operator is its symbol. -/
private lemma operator?_eq_some (h : operator? cs = some m) :
    ∃ op more, cs = op.symbol :: more ∧ m = ⟨.operator, [op.symbol], .operator op⟩ := by
  cases cs with
  | nil => cases h
  | cons c cs =>
    obtain ⟨op, hop, rfl⟩ := Option.map_eq_some_iff.1 h
    obtain rfl := Operator.eq_symbol_of_ofSymbol? hop
    exact ⟨op, cs, rfl, rfl⟩

/-- What is read as punctuation is the symbol of a mark. -/
private lemma punctuation?_eq_some (h : punctuation? cs = some m) :
    ∃ (mark : Mark) (more : List Char), cs = mark.symbol :: more ∧
      m = ⟨.punctuation, [mark.symbol], .mark mark⟩ := by
  cases cs with
  | nil => cases h
  | cons c cs =>
    obtain ⟨mark, hmark, rfl⟩ := Option.map_eq_some_iff.1 h
    obtain rfl := Mark.symbol_of_ofSymbol? hmark
    exact ⟨mark, cs, rfl, rfl⟩

/-- What is read as a name is a word, and nothing follows that would go on with it. -/
private lemma identifier?_eq_some (h : identifier? cs = some m) :
    ∃ more, cs = m.lexeme ++ more ∧ spellsWord m.lexeme = true ∧
      m.kind = word (String.ofList m.lexeme) ∧ ∀ c ∈ more.head?, continuesName c = false := by
  cases cs with
  | nil => cases h
  | cons c cs =>
    simp only [identifier?, Option.ite_none_right_eq_some, Option.some.injEq] at h
    obtain ⟨hc, rfl⟩ := h
    refine ⟨cs.dropWhile continuesName, by simp, ?_, rfl, ?_⟩
    · rw [spellsWord, hc, Bool.true_and, List.all_eq_true]
      exact fun c hc => List.mem_takeWhile_imp hc
    · exact fun c hc => eq_false_of_mem_head?_dropWhile hc

end Rule

/-- A word with the kind that the rule for words gives it. -/
lemma Rule.lexeme_word {text : List Char} (h : spellsWord text = true) :
    Lexeme text (word (String.ofList text)) := by
  have htext : (String.ofList text).toList = text := String.toList_ofList
  unfold word
  split
  · next k hk =>
    rw [← Keyword.text_of_ofText? hk] at htext
    rw [← htext]
    exact .keyword k
  · next hk =>
    have hname : IsName (String.ofList text) := ⟨by rwa [htext], hk⟩
    have hlexeme := Lexeme.identifier hname
    rwa [htext] at hlexeme

/-- A word is joined by what goes on with a name. -/
lemma Rule.joins_word {text : String} {lexeme : List Char} {c : Char} :
    (word text).Joins lexeme c ↔ continuesName c = true := by
  unfold word
  split <;> rfl

namespace Match

variable {m : Match} {rest : List Char}

/-- **What is read is a lexeme, and nothing joins it**, if it does not start a comment. -/
theorem lexeme_of_first? (h : first? (m.lexeme ++ rest) = some m)
    (hsolid : Token.Solid (m.lexeme ++ rest)) :
    Lexeme m.lexeme m.kind ∧ ∀ c ∈ rest.head?, ¬ m.kind.Joins m.lexeme c := by
  rw [first?_eq, Option.or_eq_some_iff, Option.or_eq_some_iff, Option.or_eq_some_iff] at h
  rcases h with h | ⟨hnumber, h | ⟨-, h | ⟨-, h⟩⟩⟩
  · obtain ⟨d, rest', hrest, hkind, hspells, hdigit, hpoint⟩ := Decimal.exists_spells_of_number? h
    obtain rfl : rest = rest' := List.append_cancel_left hrest
    rw [hkind]
    refine ⟨.number hspells, ?_⟩
    rintro c hc (hjoins | ⟨hnot, hjoins⟩)
    · exact absurd hjoins (by simp [hdigit c hc])
    · exact hpoint hnot c hc hjoins
  · obtain ⟨op, more, hcs, rfl⟩ := Rule.operator?_eq_some h
    obtain rfl : rest = more := by simpa using hcs
    refine ⟨.operator op, ?_⟩
    rintro c hc (⟨rfl, hjoins⟩ | ⟨rfl, rfl⟩)
    · exact absurd hjoins (by simp [Rule.number?_minus_eq_none_iff.1 hnumber c hc])
    · obtain ⟨more, rfl⟩ := List.head?_eq_some_iff.1 hc
      exact hsolid.2 more rfl
  · obtain ⟨more, hcs, hspells, hkind, hstop⟩ := Rule.identifier?_eq_some h
    obtain rfl : rest = more := List.append_cancel_left hcs
    rw [hkind]
    refine ⟨Rule.lexeme_word hspells, fun c hc hjoins => ?_⟩
    rw [Rule.joins_word, hstop c hc] at hjoins
    cases hjoins
  · obtain ⟨mark, more, hcs, rfl⟩ := Rule.punctuation?_eq_some h
    exact ⟨.mark mark, fun _ _ => id⟩

/-! ## Where nothing is read -/

/-- What a lexeme can start with, rule by rule. -/
lemma startsLexeme_iff {c : Char} :
    Rule.StartsLexeme c ↔ Rule.startsName c = true ∨ c.isDigit = true ∨
      (Operator.ofSymbol? c).isSome = true ∨ (Mark.ofSymbol? c).isSome = true := by
  constructor
  · rintro (halpha | hdigit | hlist)
    · exact .inl (by rw [Rule.startsName, halpha]; rfl)
    · exact .inr (.inl hdigit)
    · simp only [List.mem_cons, List.not_mem_nil, or_false] at hlist
      rcases hlist with rfl | rfl | rfl | rfl | rfl | rfl | rfl | rfl | rfl | rfl | rfl | rfl |
        rfl | rfl <;> decide
  · rintro (hname | hdigit | hoperator | hmark)
    · rw [Rule.startsName, Bool.or_eq_true, Bool.or_eq_true, decide_eq_true_eq,
        decide_eq_true_eq] at hname
      rcases hname with (halpha | rfl) | rfl
      · exact .inl halpha
      · exact .inr (.inr (by decide))
      · exact .inr (.inr (by decide))
    · exact .inr (.inl hdigit)
    · obtain ⟨op, hop⟩ := Option.isSome_iff_exists.1 hoperator
      rw [Operator.eq_symbol_of_ofSymbol? hop]
      exact .inr (.inr (by cases op <;> decide))
    · obtain ⟨mark, hmark⟩ := Option.isSome_iff_exists.1 hmark
      rw [← Mark.symbol_of_ofSymbol? hmark]
      exact .inr (.inr (by cases mark <;> decide))

/-- **Nothing is read exactly where no lexeme can start**: at the end of a text, or at a character
that no lexeme starts with. -/
theorem first?_eq_none_iff {cs : List Char} :
    first? cs = none ↔ ∀ c ∈ cs.head?, ¬ Rule.StartsLexeme c := by
  cases cs with
  | nil =>
    constructor
    · intro _ c hc
      cases hc
    · exact fun _ => rfl
  | cons c cs =>
    rw [first?_eq, Option.or_eq_none_iff, Option.or_eq_none_iff, Option.or_eq_none_iff]
    constructor
    · rintro ⟨hnumber, hoperator, hidentifier, hpunctuation⟩ _ ⟨⟩ hstarts
      rw [Rule.operator?, Option.map_eq_none_iff] at hoperator
      rw [Rule.punctuation?, Option.map_eq_none_iff] at hpunctuation
      rcases startsLexeme_iff.1 hstarts with hname | hdigit | hop | hmark
      · simp [Rule.identifier?, hname] at hidentifier
      · exact Rule.number?_of_digit hdigit cs hnumber
      · simp [hoperator] at hop
      · simp [hpunctuation] at hmark
    · intro h
      have hnot := h c rfl
      rw [startsLexeme_iff, not_or, not_or, not_or, Bool.not_eq_true, Bool.not_eq_true,
        Option.not_isSome_iff_eq_none, Option.not_isSome_iff_eq_none] at hnot
      obtain ⟨hname, hdigit, hoperator, hmark⟩ := hnot
      have hminus : c ≠ '-' := by
        rintro rfl
        cases hoperator
      refine ⟨Rule.number?_of_not_digit hminus hdigit cs, ?_, ?_, ?_⟩
      · rw [Rule.operator?, hoperator]
        rfl
      · simp [Rule.identifier?, hname]
      · rw [Rule.punctuation?, hmark]
        rfl

end Match

end Abacus
