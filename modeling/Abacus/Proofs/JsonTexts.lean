import Mathlib.Tactic.Common
import Abacus.Proofs.JsonScalars

/-!
# JSON texts

A grammar of JSON texts: which texts are JSON, and which value a text spells.  Blanks may stand
around every value, key and mark; a comma stands only between two items or members.  The reader
accepts the texts of the grammar and no others, and answers with the value that they spell.

## Main definitions

* `Abacus.Json.Piece`, `Abacus.Json.Spells` — the pieces of a JSON text, and their texts.

## Main results

* `Abacus.Json.Spells.read` — every piece is read off the front of a text that begins with it.
* `Abacus.Json.exists_spells` — whatever is read is spelled by a text of the grammar.
* `Abacus.Json.parse?_eq_some_iff` — a text is read as a value exactly if it spells that value.
-/

namespace Abacus

namespace Json

/-! ## The grammar -/

/-- A piece of a JSON text: a value, a value with the blanks around it, a member with the blanks
around it, or the items of an array or members of an object, at least one, with the commas between
them. -/
inductive Piece where
  | value (v : Json)
  | element (v : Json)
  | items (vs : List Json)
  | member (m : Member Json)
  | members (ms : List (Member Json))

/-- A text spells a piece, where `double` gives the doubles that numbers stand for. -/
inductive Spells (double : Numeral → Float) : List Char → Piece → Prop
  | nullWord : Spells double ['n', 'u', 'l', 'l'] (.value .null)
  | trueWord : Spells double ['t', 'r', 'u', 'e'] (.value (.bool true))
  | falseWord : Spells double ['f', 'a', 'l', 's', 'e'] (.value (.bool false))
  | number {cs : List Char} {n : Numeral} :
      n.Spells cs → Spells double cs (.value (n.toJson double))
  | string {cs : List Char} {text : Option String} :
      Quotes cs text → Spells double cs (.value (.string text))
  | noItems {bs : List Char} : Blank bs → Spells double ('[' :: (bs ++ [']'])) (.value (.array []))
  | array {cs : List Char} {vs : List Json} :
      Spells double cs (.items vs) → Spells double ('[' :: (cs ++ [']'])) (.value (.array vs))
  | noMembers {bs : List Char} :
      Blank bs → Spells double ('\x7b' :: (bs ++ ['\x7d'])) (.value (.object []))
  | object {cs : List Char} {ms : List (Member Json)} :
      Spells double cs (.members ms) →
        Spells double ('\x7b' :: (cs ++ ['\x7d'])) (.value (.object ms))
  | element {bs cs bs' : List Char} {v : Json} :
      Blank bs → Spells double cs (.value v) → Blank bs' →
        Spells double (bs ++ (cs ++ bs')) (.element v)
  | lastItem {cs : List Char} {v : Json} :
      Spells double cs (.element v) → Spells double cs (.items [v])
  | item {cs cs' : List Char} {v : Json} {vs : List Json} :
      Spells double cs (.element v) → Spells double cs' (.items vs) →
        Spells double (cs ++ ',' :: cs') (.items (v :: vs))
  | member {bs quoted bs' cs : List Char} {key : Option String} {v : Json} :
      Blank bs → Quotes quoted key → Blank bs' → Spells double cs (.element v) →
        Spells double (bs ++ (quoted ++ (bs' ++ ':' :: cs))) (.member ⟨key, v⟩)
  | lastMember {cs : List Char} {m : Member Json} :
      Spells double cs (.member m) → Spells double cs (.members [m])
  | members {cs cs' : List Char} {m : Member Json} {ms : List (Member Json)} :
      Spells double cs (.member m) → Spells double cs' (.members ms) →
        Spells double (cs ++ ',' :: cs') (.members (m :: ms))

/-! ## Steps of the reader -/

section Steps

variable {fuel : Nat} {cs rest : List Char}

/-- Items are read: a value, and then a bracket, or a comma and further items. -/
lemma items?_eq_some_iff {vs : List Json} :
    items? (fuel + 1) cs = some (vs, rest) ↔
      ∃ v cs', value? fuel cs = some (v, cs') ∧
        (skipBlanks cs' = ']' :: rest ∧ vs = [v] ∨
          ∃ more vs', skipBlanks cs' = ',' :: more ∧ items? fuel more = some (vs', rest) ∧
            vs = v :: vs') := by
  rw [items?]
  constructor
  · intro h
    obtain ⟨⟨v, cs'⟩, hvalue, h⟩ := Option.bind_eq_some_iff.1 h
    refine ⟨v, cs', hvalue, ?_⟩
    simp only at h
    split at h
    · next heq =>
      cases h
      exact .inl ⟨heq, rfl⟩
    · next more heq =>
      obtain ⟨⟨vs', rest'⟩, hmore, h⟩ := Option.bind_eq_some_iff.1 h
      cases h
      exact .inr ⟨more, vs', heq, hmore, rfl⟩
    · cases h
  · rintro ⟨v, cs', hvalue, ⟨heq, rfl⟩ | ⟨more, vs', heq, hmore, rfl⟩⟩
    · simp [hvalue, heq]
    · simp [hvalue, heq, hmore]

/-- A member is read: its key, a colon and its value. -/
def ReadsMember (fuel : Nat) (cs : List Char) (m : Member Json) (rest : List Char) : Prop :=
  ∃ cs₁ cs₂ cs₃, skipBlanks cs = '"' :: cs₁ ∧ string? cs₁ = some (m.key, cs₂) ∧
    skipBlanks cs₂ = ':' :: cs₃ ∧ value? fuel cs₃ = some (m.value, rest)

/-- Members are read: a member, and then a brace, or a comma and further members. -/
lemma members?_eq_some_iff {ms : List (Member Json)} :
    members? (fuel + 1) cs = some (ms, rest) ↔
      ∃ m cs', ReadsMember fuel cs m cs' ∧
        (skipBlanks cs' = '\x7d' :: rest ∧ ms = [m] ∨
          ∃ more ms', skipBlanks cs' = ',' :: more ∧ members? fuel more = some (ms', rest) ∧
            ms = m :: ms') := by
  rw [members?]
  constructor
  · intro h
    split at h
    · next cs₁ hquote =>
      obtain ⟨⟨key, cs₂⟩, hkey, h⟩ := Option.bind_eq_some_iff.1 h
      simp only at h
      split at h
      · next cs₃ hcolon =>
        obtain ⟨⟨v, cs'⟩, hvalue, h⟩ := Option.bind_eq_some_iff.1 h
        refine ⟨⟨key, v⟩, cs', ⟨cs₁, cs₂, cs₃, hquote, hkey, hcolon, hvalue⟩, ?_⟩
        simp only at h
        split at h
        · next heq =>
          cases h
          exact .inl ⟨heq, rfl⟩
        · next more heq =>
          obtain ⟨⟨ms', rest'⟩, hmore, h⟩ := Option.bind_eq_some_iff.1 h
          cases h
          exact .inr ⟨more, ms', heq, hmore, rfl⟩
        · cases h
      · cases h
    · cases h
  · rintro ⟨m, cs', ⟨cs₁, cs₂, cs₃, hquote, hkey, hcolon, hvalue⟩,
      ⟨heq, rfl⟩ | ⟨more, ms', heq, hmore, rfl⟩⟩
    · simp [hquote, hkey, hcolon, hvalue, heq]
    · simp [hquote, hkey, hcolon, hvalue, heq, hmore]

/-- Blanks in front of a value do not matter. -/
lemma value?_congr {cs' : List Char} (h : skipBlanks cs = skipBlanks cs') :
    value? fuel cs = value? fuel cs' := by
  cases fuel with
  | zero => rw [value?, value?]
  | succ fuel => rw [value?, value?, h]

/-- Blanks in front of items do not matter. -/
lemma items?_skipBlanks : items? fuel (skipBlanks cs) = items? fuel cs := by
  cases fuel with
  | zero => rw [items?, items?]
  | succ fuel => rw [items?, items?, value?_congr (skipBlanks_skipBlanks cs)]

/-- Blanks in front of members do not matter. -/
lemma members?_skipBlanks : members? fuel (skipBlanks cs) = members? fuel cs := by
  cases fuel with
  | zero => rw [members?, members?]
  | succ fuel => rw [members?, members?, skipBlanks_skipBlanks cs]

/-- After a quote a string is read. -/
private lemma value?_string : value? (fuel + 1) ('"' :: cs) =
    (string? cs).map fun found => (string found.1, found.2) := by
  rw [value?, skipBlanks_cons (by decide)]
  rfl

/-- Between brackets there may be nothing but blanks. -/
private lemma value?_noItems (h : skipBlanks cs = ']' :: rest) :
    value? (fuel + 1) ('[' :: cs) = some (array [], rest) := by
  simp [value?, skipBlanks_cons (c := '[') (by decide), h]

/-- Between braces there may be nothing but blanks. -/
private lemma value?_noMembers (h : skipBlanks cs = '\x7d' :: rest) :
    value? (fuel + 1) ('\x7b' :: cs) = some (object [], rest) := by
  simp [value?, skipBlanks_cons (c := '\x7b') (by decide), h]

/-- After a bracket that is not closed at once items are read. -/
private lemma value?_array {c : Char} {cs' : List Char} (h : skipBlanks cs = c :: cs')
    (hc : c ≠ ']') :
    value? (fuel + 1) ('[' :: cs) =
      (items? fuel cs).map fun found => (array found.1, found.2) := by
  rw [← items?_skipBlanks]
  simp [value?, skipBlanks_cons (c := '[') (by decide), h, hc]

/-- After a brace that is not closed at once members are read. -/
private lemma value?_object {c : Char} {cs' : List Char} (h : skipBlanks cs = c :: cs')
    (hc : c ≠ '\x7d') :
    value? (fuel + 1) ('\x7b' :: cs) =
      (members? fuel cs).map fun found => (object found.1, found.2) := by
  rw [← members?_skipBlanks]
  simp [value?, skipBlanks_cons (c := '\x7b') (by decide), h, hc]

/-- A number starts with neither a blank nor a closing bracket. -/
lemma not_mem_of_number {c : Char} (hc : c = '-' ∨ c.isDigit = true) :
    c ∉ ']' :: '\x7d' :: blanks := by
  intro hmem
  simp only [blanks, List.mem_cons, List.not_mem_nil, or_false] at hmem
  rcases hmem with rfl | rfl | rfl | rfl | rfl | rfl <;> exact absurd hc (by decide)

/-- At a digit or a minus sign a number is read. -/
private lemma value?_number {c : Char} (hc : c = '-' ∨ c.isDigit = true) :
    value? (fuel + 1) (c :: cs) =
      (Numeral.read? (c :: cs)).map fun found => (found.1.toJson Numeral.toFloat, found.2) := by
  have hblank : c ∉ blanks := fun hmem => not_mem_of_number hc (by simp [hmem])
  rw [value?, skipBlanks_cons hblank]
  -- No other kind of value starts with a digit or a minus sign.
  split
  all_goals first | rfl | next heq => cases heq; exact absurd hc (by decide)

end Steps

/-! ## Reading what the grammar spells -/

/-- A text that comes after a value: it is empty, or a comma or closing bracket is next. -/
def Closes (rest : List Char) : Prop := ∀ c ∈ rest.head?, c ∈ [',', ']', '\x7d']

/-- The first character that is not blank is no closing bracket. -/
def Opens (cs : List Char) : Prop :=
  ∃ bs c cs', Blank bs ∧ cs = bs ++ c :: cs' ∧ c ∉ ']' :: '\x7d' :: blanks

section Ends

variable {bs cs rest : List Char}

/-- A comma or a closing bracket comes after a value. -/
lemma closes_cons {c : Char} (h : c ∈ [',', ']', '\x7d']) : Closes (c :: rest) := by
  rintro _ ⟨⟩
  exact h

/-- Of blanks and what comes after a value, the blanks are skipped. -/
lemma Closes.skipBlanks_append (h : Closes rest) (hbs : Blank bs) :
    skipBlanks (bs ++ rest) = rest := by
  rw [Json.skipBlanks_append hbs, skipBlanks_of_head?]
  intro c hc
  have hmem := h c hc
  simp only [List.mem_cons, List.not_mem_nil, or_false] at hmem
  rcases hmem with rfl | rfl | rfl <;> decide

/-- Blanks and what comes after a value end a number. -/
lemma Closes.ends_append (h : Closes rest) (hbs : Blank bs) : Numeral.Ends (bs ++ rest) := by
  have hmem : ∀ c ∈ (bs ++ rest).head?, c ∈ blanks ∨ c ∈ [',', ']', '\x7d'] := by
    intro c hc
    cases bs with
    | nil => exact .inr (h c hc)
    | cons b bs =>
      obtain rfl := Option.mem_some_iff.1 hc
      exact .inl (hbs _ (by simp))
  intro c hc
  have hmem := hmem c hc
  simp only [blanks, List.mem_cons, List.not_mem_nil, or_false] at hmem
  rcases hmem with (rfl | rfl | rfl | rfl) | rfl | rfl | rfl <;> decide

/-- Blanks in front and any text behind do not change how a text opens. -/
lemma Opens.append (h : Opens cs) (hbs : Blank bs) (rest : List Char) :
    Opens (bs ++ (cs ++ rest)) := by
  obtain ⟨bs', c, cs', hbs', rfl, hc⟩ := h
  refine ⟨bs ++ bs', c, cs' ++ rest, ?_, by simp, hc⟩
  exact List.forall_mem_append.2 ⟨hbs, hbs'⟩

/-- A text that opens is not empty. -/
lemma Opens.length_pos (h : Opens cs) : 0 < cs.length := by
  obtain ⟨bs, c, cs', -, rfl, -⟩ := h
  rw [List.length_append, List.length_cons]
  omega

/-- After the blanks in front of a text that opens comes no closing bracket. -/
lemma Opens.exists_skipBlanks (h : Opens cs) (rest : List Char) :
    ∃ c cs', skipBlanks (cs ++ rest) = c :: cs' ∧ c ≠ ']' ∧ c ≠ '\x7d' := by
  obtain ⟨bs, c, cs', hbs, rfl, hc⟩ := h
  simp only [List.mem_cons, not_or] at hc
  refine ⟨c, cs' ++ rest, ?_, hc.1, hc.2.1⟩
  rw [List.append_assoc, skipBlanks_append hbs, List.cons_append, skipBlanks_of_head?]
  rintro _ ⟨⟩
  exact hc.2.2

end Ends

/-- A text opens with a character that is neither blank nor a closing bracket. -/
lemma opens_cons {c : Char} (h : c ∉ ']' :: '\x7d' :: blanks) (cs : List Char) : Opens (c :: cs) :=
  ⟨[], c, cs, blank_nil, rfl, h⟩

/-- A number starts with a digit or a minus sign. -/
lemma Numeral.Spells.exists_cons {cs : List Char} {n : Numeral} (h : n.Spells cs) :
    ∃ c cs', cs = c :: cs' ∧ (c = '-' ∨ c.isDigit = true) := by
  obtain @⟨negative, whole, part, fraction, power, exponent, hwhole, hpart, hpower⟩ := h
  obtain ⟨d, ds, rfl, hd⟩ := hwhole.exists_cons
  cases negative with
  | true => exact ⟨_, _, rfl, .inl rfl⟩
  | false => exact ⟨_, _, rfl, .inr hd⟩

/-- A string starts with a quote. -/
lemma Quotes.exists_cons {cs : List Char} {text : Option String} (h : Quotes cs text) :
    ∃ cs', cs = '"' :: cs' := by
  obtain ⟨hinner⟩ := h
  exact ⟨_, rfl⟩

/-- Every piece starts with a character of its own. -/
lemma Spells.opens {double : Numeral → Float} {cs : List Char} {piece : Piece}
    (h : Spells double cs piece) : Opens cs := by
  induction h with
  | nullWord => exact opens_cons (by decide) _
  | trueWord => exact opens_cons (by decide) _
  | falseWord => exact opens_cons (by decide) _
  | number hn =>
    obtain ⟨c, cs', rfl, hc⟩ := hn.exists_cons
    exact opens_cons (not_mem_of_number hc) cs'
  | string hquotes =>
    obtain ⟨cs', rfl⟩ := hquotes.exists_cons
    exact opens_cons (by decide) _
  | noItems => exact opens_cons (by decide) _
  | array => exact opens_cons (by decide) _
  | noMembers => exact opens_cons (by decide) _
  | object => exact opens_cons (by decide) _
  | element hbs _ _ ih => exact ih.append hbs _
  | lastItem _ ih => exact ih
  | item _ _ ih => exact ih.append blank_nil _
  | member hbs hquotes =>
    obtain ⟨cs', rfl⟩ := hquotes.exists_cons
    exact (opens_cons (by decide) cs').append hbs _
  | lastMember _ ih => exact ih
  | members _ _ ih => exact ih.append blank_nil _

/-- A piece is read off the front of every text that begins with it and goes on as such a text can
go on, if the fuel is enough for its length. -/
def Piece.ReadOff (cs : List Char) : Piece → Prop
  | .value v => ∀ fuel rest, 2 * cs.length ≤ fuel + 1 → Numeral.Ends rest →
      value? (fuel + 1) (cs ++ rest) = some (v, rest)
  | .element v => ∀ fuel rest, 2 * cs.length ≤ fuel → Closes rest →
      ∃ bs, Blank bs ∧ value? fuel (cs ++ rest) = some (v, bs ++ rest)
  | .items vs => ∀ fuel rest, 2 * cs.length < fuel →
      items? fuel (cs ++ ']' :: rest) = some (vs, rest)
  | .member m => ∀ fuel rest, 2 * cs.length ≤ fuel → Closes rest →
      ∃ bs, Blank bs ∧ ReadsMember fuel (cs ++ rest) m (bs ++ rest)
  | .members ms => ∀ fuel rest, 2 * cs.length < fuel →
      members? fuel (cs ++ '\x7d' :: rest) = some (ms, rest)

/-- **Every piece of the grammar is read.**

**Proof sketch.** Induction on the grammar.  The fuel goes down by one for a value and by one for
each item or member; a value inside brackets is shorter than the whole by the brackets, and an item
by its comma, so that two units for each character are enough. -/
theorem Spells.read {cs : List Char} {piece : Piece} (h : Spells Numeral.toFloat cs piece) :
    piece.ReadOff cs := by
  induction h with
  | nullWord => exact fun _ _ _ _ => rfl
  | trueWord => exact fun _ _ _ _ => rfl
  | falseWord => exact fun _ _ _ _ => rfl
  | number hn =>
    intro fuel rest _ hends
    have hread := hn.read?_append hends
    obtain ⟨c, cs', rfl, hc⟩ := hn.exists_cons
    rw [List.cons_append] at hread ⊢
    rw [value?_number hc, hread, Option.map_some]
  | string hquotes =>
    intro fuel rest _ _
    obtain ⟨inner, heq, hread⟩ := hquotes.string? rest
    rw [heq, value?_string, hread, Option.map_some]
  | noItems hbs =>
    intro fuel rest _ _
    rw [List.cons_append, List.append_assoc]
    apply value?_noItems
    rw [skipBlanks_append hbs, List.cons_append, skipBlanks_cons (by decide), List.nil_append]
  | @array cs vs hitems ih =>
    intro fuel rest hfuel _
    obtain ⟨c, cs', hskip, hc, -⟩ := hitems.opens.exists_skipBlanks (']' :: rest)
    simp only [List.length_cons, List.length_append] at hfuel
    have hread := ih fuel rest (by omega)
    simp only [List.cons_append, List.append_assoc, List.nil_append]
    rw [value?_array hskip hc, hread, Option.map_some]
  | noMembers hbs =>
    intro fuel rest _ _
    rw [List.cons_append, List.append_assoc]
    apply value?_noMembers
    rw [skipBlanks_append hbs, List.cons_append, skipBlanks_cons (by decide), List.nil_append]
  | @object cs ms hmembers ih =>
    intro fuel rest hfuel _
    obtain ⟨c, cs', hskip, -, hc⟩ := hmembers.opens.exists_skipBlanks ('\x7d' :: rest)
    simp only [List.length_cons, List.length_append] at hfuel
    have hread := ih fuel rest (by omega)
    simp only [List.cons_append, List.append_assoc, List.nil_append]
    rw [value?_object hskip hc, hread, Option.map_some]
  | @element bs cs bs' v hbs hvalue hbs' ih =>
    intro fuel rest hfuel hcloses
    have hlength := hvalue.opens.length_pos
    simp only [List.length_append] at hfuel
    obtain ⟨fuel, rfl⟩ : ∃ less, fuel = less + 1 := ⟨fuel - 1, by omega⟩
    refine ⟨bs', hbs', ?_⟩
    simp only [List.append_assoc]
    rw [value?_congr (skipBlanks_append hbs _)]
    exact ih fuel _ (by omega) (hcloses.ends_append hbs')
  | lastItem _ ih =>
    rintro (_ | fuel) rest hfuel
    · cases hfuel
    · have hcloses : Closes (']' :: rest) := closes_cons (by simp)
      obtain ⟨bs, hbs, hread⟩ := ih fuel _ (Nat.le_of_lt_succ hfuel) hcloses
      exact items?_eq_some_iff.2 ⟨_, _, hread, .inl ⟨hcloses.skipBlanks_append hbs, rfl⟩⟩
  | @item cs cs' v vs _ _ ihElement ihItems =>
    rintro (_ | fuel) rest hfuel
    · cases hfuel
    · simp only [List.length_append, List.length_cons] at hfuel
      have hcloses : Closes (',' :: (cs' ++ ']' :: rest)) := closes_cons (by simp)
      obtain ⟨bs, hbs, hread⟩ := ihElement fuel _ (by omega) hcloses
      have hmore := ihItems fuel rest (by omega)
      rw [List.append_assoc, List.cons_append]
      exact items?_eq_some_iff.2
        ⟨_, _, hread, .inr ⟨_, _, hcloses.skipBlanks_append hbs, hmore, rfl⟩⟩
  | @member bs quoted bs' cs key v hbs hquotes hbs' _ ih =>
    intro fuel rest hfuel hcloses
    obtain ⟨bs'', hbs'', hread⟩ := ih fuel rest (by simp at hfuel; omega) hcloses
    obtain ⟨inner, heq, hkey⟩ := hquotes.string? (bs' ++ ':' :: (cs ++ rest))
    refine ⟨bs'', hbs'', inner, bs' ++ ':' :: (cs ++ rest), cs ++ rest, ?_, hkey, ?_, hread⟩
    · simp only [List.append_assoc, List.cons_append]
      rw [skipBlanks_append hbs, heq, skipBlanks_cons (by decide)]
    · rw [skipBlanks_append hbs', skipBlanks_cons (by decide)]
  | lastMember _ ih =>
    rintro (_ | fuel) rest hfuel
    · cases hfuel
    · have hcloses : Closes ('\x7d' :: rest) := closes_cons (by simp)
      obtain ⟨bs, hbs, hread⟩ := ih fuel _ (Nat.le_of_lt_succ hfuel) hcloses
      exact members?_eq_some_iff.2 ⟨_, _, hread, .inl ⟨hcloses.skipBlanks_append hbs, rfl⟩⟩
  | @members cs cs' m ms _ _ ihMember ihMembers =>
    rintro (_ | fuel) rest hfuel
    · cases hfuel
    · simp only [List.length_append, List.length_cons] at hfuel
      have hcloses : Closes (',' :: (cs' ++ '\x7d' :: rest)) := closes_cons (by simp)
      obtain ⟨bs, hbs, hread⟩ := ihMember fuel _ (by omega) hcloses
      have hmore := ihMembers fuel rest (by omega)
      rw [List.append_assoc, List.cons_append]
      exact members?_eq_some_iff.2
        ⟨_, _, hread, .inr ⟨_, _, hcloses.skipBlanks_append hbs, hmore, rfl⟩⟩

/-! ## Whatever is read is spelled -/

/-- What is read exactly stands at the front. -/
lemma exactly?_eq_some {wanted cs rest : List Char} (h : exactly? wanted cs = some rest) :
    cs = wanted ++ rest := by
  unfold exactly? at h
  split at h
  · next hwanted =>
    cases h
    exact (List.prefix_iff_eq_append.1 (List.isPrefixOf_iff_prefix.1 hwanted)).symm
  · cases h

/-- What a value is read off, from what the items and members inside are read off. -/
private lemma exists_spells_of_value? {fuel : Nat}
    (hitems : ∀ {cs vs rest}, items? fuel cs = some (vs, rest) →
      ∃ text, Spells Numeral.toFloat text (.items vs) ∧ cs = text ++ ']' :: rest)
    (hmembers : ∀ {cs ms rest}, members? fuel cs = some (ms, rest) →
      ∃ text, Spells Numeral.toFloat text (.members ms) ∧ cs = text ++ '\x7d' :: rest)
    {cs rest : List Char} {v : Json} (h : value? (fuel + 1) cs = some (v, rest)) :
    ∃ bs text, Blank bs ∧ Spells Numeral.toFloat text (.value v) ∧ cs = bs ++ (text ++ rest) := by
  -- The blanks in front are the same in all cases; what is left is a value.
  suffices hvalue : ∃ text, Spells Numeral.toFloat text (.value v) ∧ skipBlanks cs = text ++ rest by
    obtain ⟨text, hspells, hskip⟩ := hvalue
    obtain ⟨bs, hbs, hcs⟩ := exists_blank_of_skipBlanks hskip
    exact ⟨bs, text, hbs, hspells, hcs⟩
  rw [value?] at h
  split at h
  · next cs₁ heq =>
    obtain ⟨⟨text, rest'⟩, hread, h⟩ := Option.map_eq_some_iff.1 h
    cases h
    obtain ⟨quoted, hquotes, hquoted⟩ := exists_quotes_of_string? hread
    exact ⟨_, .string hquotes, heq.trans hquoted⟩
  · next cs₁ heq =>
    split at h
    · next rest' hskip =>
      cases h
      obtain ⟨bs, hbs, rfl⟩ := exists_blank_of_skipBlanks hskip
      exact ⟨_, .noItems hbs, by simp [heq]⟩
    · obtain ⟨⟨vs, rest'⟩, hread, h⟩ := Option.map_eq_some_iff.1 h
      cases h
      rw [items?_skipBlanks] at hread
      obtain ⟨text, hspells, rfl⟩ := hitems hread
      exact ⟨_, .array hspells, by simp [heq]⟩
  · next cs₁ heq =>
    split at h
    · next rest' hskip =>
      cases h
      obtain ⟨bs, hbs, rfl⟩ := exists_blank_of_skipBlanks hskip
      exact ⟨_, .noMembers hbs, by simp [heq]⟩
    · obtain ⟨⟨ms, rest'⟩, hread, h⟩ := Option.map_eq_some_iff.1 h
      cases h
      rw [members?_skipBlanks] at hread
      obtain ⟨text, hspells, rfl⟩ := hmembers hread
      exact ⟨_, .object hspells, by simp [heq]⟩
  · next cs₁ heq =>
    obtain ⟨rest', hread, h⟩ := Option.map_eq_some_iff.1 h
    cases h
    exact ⟨_, .nullWord, by rw [heq, exactly?_eq_some hread]; rfl⟩
  · next cs₁ heq =>
    obtain ⟨rest', hread, h⟩ := Option.map_eq_some_iff.1 h
    cases h
    exact ⟨_, .trueWord, by rw [heq, exactly?_eq_some hread]; rfl⟩
  · next cs₁ heq =>
    obtain ⟨rest', hread, h⟩ := Option.map_eq_some_iff.1 h
    cases h
    exact ⟨_, .falseWord, by rw [heq, exactly?_eq_some hread]; rfl⟩
  · obtain ⟨⟨n, rest'⟩, hread, h⟩ := Option.map_eq_some_iff.1 h
    cases h
    obtain ⟨text, hn, heq⟩ := Numeral.exists_spells_of_read? hread
    exact ⟨_, .number hn, heq⟩

/-- **Whatever is read is spelled**: the reader goes down one level of the grammar with each unit of
fuel. -/
theorem exists_spells (fuel : Nat) :
    (∀ {cs v rest}, value? fuel cs = some (v, rest) →
      ∃ bs text, Blank bs ∧ Spells Numeral.toFloat text (.value v) ∧ cs = bs ++ (text ++ rest)) ∧
    (∀ {cs vs rest}, items? fuel cs = some (vs, rest) →
      ∃ text, Spells Numeral.toFloat text (.items vs) ∧ cs = text ++ ']' :: rest) ∧
    ∀ {cs ms rest}, members? fuel cs = some (ms, rest) →
      ∃ text, Spells Numeral.toFloat text (.members ms) ∧ cs = text ++ '\x7d' :: rest := by
  induction fuel with
  | zero =>
    refine ⟨fun h => ?_, fun h => ?_, fun h => ?_⟩
    · cases h
    · cases h
    · cases h
  | succ fuel ih =>
    obtain ⟨ihValue, ihItems, ihMembers⟩ := ih
    refine ⟨exists_spells_of_value? ihItems ihMembers, fun h => ?_, fun h => ?_⟩
    · obtain ⟨v, cs', hvalue, hmore⟩ := items?_eq_some_iff.1 h
      obtain ⟨bs, text, hbs, hspells, rfl⟩ := ihValue hvalue
      rcases hmore with ⟨hskip, rfl⟩ | ⟨more, vs', hskip, hread, rfl⟩
      · obtain ⟨bs', hbs', rfl⟩ := exists_blank_of_skipBlanks hskip
        exact ⟨_, .lastItem (.element hbs hspells hbs'), by simp⟩
      · obtain ⟨bs', hbs', rfl⟩ := exists_blank_of_skipBlanks hskip
        obtain ⟨text', hitems, rfl⟩ := ihItems hread
        exact ⟨_, .item (.element hbs hspells hbs') hitems, by simp⟩
    · obtain ⟨⟨key, v⟩, cs', ⟨cs₁, cs₂, cs₃, hquote, hkey, hcolon, hvalue⟩, hmore⟩ :=
        members?_eq_some_iff.1 h
      obtain ⟨bs₁, hbs₁, rfl⟩ := exists_blank_of_skipBlanks hquote
      obtain ⟨quoted, hquotes, hquoted⟩ := exists_quotes_of_string? hkey
      obtain ⟨bs₂, hbs₂, rfl⟩ := exists_blank_of_skipBlanks hcolon
      obtain ⟨bs₃, text, hbs₃, hspells, rfl⟩ := ihValue hvalue
      rw [hquoted]
      rcases hmore with ⟨hskip, rfl⟩ | ⟨more, ms', hskip, hread, rfl⟩
      · obtain ⟨bs₄, hbs₄, rfl⟩ := exists_blank_of_skipBlanks hskip
        exact ⟨_, .lastMember (.member hbs₁ hquotes hbs₂ (.element hbs₃ hspells hbs₄)), by simp⟩
      · obtain ⟨bs₄, hbs₄, rfl⟩ := exists_blank_of_skipBlanks hskip
        obtain ⟨text', hmembers, rfl⟩ := ihMembers hread
        exact ⟨_, .members (.member hbs₁ hquotes hbs₂ (.element hbs₃ hspells hbs₄)) hmembers,
          by simp⟩

/-- **A text is read as a value exactly if it spells that value**, with blanks around it. -/
theorem parse?_eq_some_iff {source : String} {v : Json} :
    parse? source = some v ↔ Spells Numeral.toFloat source.toList (.element v) := by
  constructor
  · intro h
    obtain ⟨⟨v', rest⟩, hvalue, h⟩ := Option.bind_eq_some_iff.1 h
    simp only [Option.ite_none_right_eq_some, List.isEmpty_iff, Option.some.injEq] at h
    obtain ⟨hskip, rfl⟩ := h
    obtain ⟨bs, text, hbs, hspells, hcs⟩ := (exists_spells _).1 hvalue
    obtain ⟨bs', hbs', rfl⟩ := exists_blank_of_skipBlanks hskip
    rw [hcs, List.append_nil]
    exact .element hbs hspells hbs'
  · intro h
    have hcloses : Closes [] := fun c hc => nomatch hc
    obtain ⟨bs, hbs, hread⟩ := h.read (2 * source.toList.length + 2) [] (by omega) hcloses
    have hskip := hcloses.skipBlanks_append hbs
    rw [List.append_nil] at hread hskip
    simp [parse?, hread, hskip]

end Json

end Abacus
