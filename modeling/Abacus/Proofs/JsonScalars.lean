import Mathlib.Tactic.Common
import Abacus.Json.Reader
import Abacus.Proofs.Numerals

/-!
# Numbers and strings in JSON texts

How JSON texts write numbers and strings, apart from the reader: a number has digits before the
point that do not start with a needless zero, perhaps a fraction and perhaps a power of ten; a
string may write any character behind a backslash.  The reader takes exactly these texts, up to the
first character that cannot go on.

## Main definitions

* `Abacus.Json.Blank` — what may stand between tokens.
* `Abacus.Json.Numeral.Spells` — a written number with its parts.
* `Abacus.Json.Contents`, `Abacus.Json.Quotes` — a string between quotes with its text.

## Main results

* `Abacus.Json.Numeral.Spells.read?_append`, `Abacus.Json.Numeral.exists_spells_of_read?` —
  written numbers are read, and nothing else is.
* `Abacus.Json.Quotes.string?`, `Abacus.Json.exists_quotes_of_string?` — so are strings.
-/

namespace Abacus

namespace Json

/-! ## Blanks -/

/-- The characters that may stand between tokens. -/
def blanks : List Char := [' ', '\t', '\n', '\r']

/-- A text of blanks only. -/
def Blank (cs : List Char) : Prop := ∀ c ∈ cs, c ∈ blanks

section Blanks

variable {bs cs rest : List Char}

/-- The empty text is blank. -/
lemma blank_nil : Blank [] := List.forall_mem_nil _

/-- Blanks in front are skipped. -/
lemma skipBlanks_append (h : Blank bs) (cs : List Char) :
    skipBlanks (bs ++ cs) = skipBlanks cs := by
  apply List.dropWhile_append_of_pos
  intro c hc
  simpa [blanks, or_assoc] using h c hc

/-- Nothing is skipped where no blank comes. -/
lemma skipBlanks_of_head? (h : ∀ c ∈ cs.head?, c ∉ blanks) : skipBlanks cs = cs := by
  cases cs with
  | nil => rfl
  | cons c cs =>
    apply List.dropWhile_cons_of_neg
    simpa [blanks, or_assoc] using h c rfl

/-- A character that is no blank is not skipped. -/
lemma skipBlanks_cons {c : Char} (h : c ∉ blanks) (cs : List Char) :
    skipBlanks (c :: cs) = c :: cs := by
  apply skipBlanks_of_head?
  rintro _ ⟨⟩
  exact h

/-- What is skipped is blank. -/
lemma exists_blank_of_skipBlanks (h : skipBlanks cs = rest) :
    ∃ bs, Blank bs ∧ cs = bs ++ rest := by
  subst h
  refine ⟨_, ?_, List.takeWhile_append_dropWhile.symm⟩
  intro c hc
  simpa [blanks, or_assoc] using List.mem_takeWhile_imp hc

/-- Skipping twice is skipping once. -/
lemma skipBlanks_skipBlanks (cs : List Char) : skipBlanks (skipBlanks cs) = skipBlanks cs := by
  obtain ⟨bs, hbs, hcs⟩ : ∃ bs, Blank bs ∧ cs = bs ++ skipBlanks cs :=
    exists_blank_of_skipBlanks rfl
  conv_rhs => rw [hcs, skipBlanks_append hbs]

end Blanks

/-! ## Written numbers -/

namespace Numeral

/-- The digits before the point: a zero alone, or digits that start with another one. -/
inductive IsWhole : List Char → Prop
  | zero : IsWhole ['0']
  | digits {d : Char} {ds : List Char} :
      d ≠ '0' → (∀ c ∈ d :: ds, c.isDigit = true) → IsWhole (d :: ds)

/-- A fraction, which may be absent, with its digits. -/
inductive SpellsFraction : List Char → List Char → Prop
  | absent : SpellsFraction [] []
  | present {ds : List Char} :
      ds ≠ [] → (∀ c ∈ ds, c.isDigit = true) → SpellsFraction ('.' :: ds) ds

/-- A sign of a power of ten, which may be absent, and whether it is a minus. -/
inductive SpellsSign : List Char → Bool → Prop
  | absent : SpellsSign [] false
  | plus : SpellsSign ['+'] false
  | minus : SpellsSign ['-'] true

/-- A power of ten, which may be absent, with its value. -/
inductive SpellsExponent : List Char → Option Int → Prop
  | absent : SpellsExponent [] none
  | present {mark : Char} {sign ds : List Char} {negative : Bool} :
      mark = 'e' ∨ mark = 'E' → SpellsSign sign negative → ds ≠ [] →
        (∀ c ∈ ds, c.isDigit = true) →
        SpellsExponent (mark :: (sign ++ ds))
          (some (if negative then -(Decimal.digitsValue ds : Int) else Decimal.digitsValue ds))

/-- A written number with its parts. -/
inductive Spells : List Char → Numeral → Prop
  | parts {negative : Bool} {whole part fraction power : List Char} {exponent : Option Int} :
      IsWhole whole → SpellsFraction part fraction → SpellsExponent power exponent →
        Spells (Decimal.sign negative ++ (whole ++ (part ++ power)))
          ⟨negative, whole, fraction, exponent⟩

/-- The text that follows cannot prolong a number. -/
def Ends (rest : List Char) : Prop :=
  ∀ c ∈ rest.head?, c.isDigit = false ∧ c ≠ '.' ∧ c ≠ 'e' ∧ c ≠ 'E'

section Reading

variable {whole part fraction power sign ds rest : List Char} {exponent : Option Int}
  {negative : Bool}

/-- The digits before the point are read, up to something that is no digit. -/
lemma IsWhole.whole?_append (h : IsWhole whole) (hrest : ∀ c ∈ rest.head?, c.isDigit = false) :
    whole? (whole ++ rest) = some (whole, rest) := by
  cases h with
  | zero =>
    cases rest with
    | nil => rfl
    | cons c rest => simp [whole?, hrest c rfl]
  | @digits d ds hd hds =>
    have htake := takeWhile_append_of_head? hds hrest
    have hdrop := dropWhile_append_of_head? hds hrest
    rw [List.cons_append] at htake hdrop ⊢
    rw [whole?, htake, hdrop]
    rintro _ ⟨⟩
    exact hd rfl

/-- A fraction is read, up to something that cannot go on with it. -/
lemma SpellsFraction.fraction?_append (h : SpellsFraction part fraction)
    (hrest : ∀ c ∈ rest.head?, c.isDigit = false ∧ c ≠ '.') :
    fraction? (part ++ rest) = some (fraction, rest) := by
  cases h with
  | absent =>
    rw [List.nil_append, fraction?]
    rintro cs rfl
    exact (hrest '.' rfl).2 rfl
  | present hne hds =>
    have hdigit : ∀ c ∈ rest.head?, c.isDigit = false := fun c hc => (hrest c hc).1
    obtain ⟨d, ds, rfl⟩ := List.exists_cons_of_ne_nil hne
    rw [List.cons_append, fraction?, takeWhile_append_of_head? hds hdigit,
      dropWhile_append_of_head? hds hdigit]

/-- A sign is read in front of digits. -/
lemma SpellsSign.takeSign_append (h : SpellsSign sign negative) (hne : ds ≠ [])
    (hds : ∀ c ∈ ds, c.isDigit = true) (rest : List Char) :
    Decimal.takeSign (sign ++ (ds ++ rest)) = (negative, ds ++ rest) := by
  cases h with
  | absent => exact Decimal.takeSign_sign hne hds false rest
  | plus => rfl
  | minus => rfl

/-- A power of ten is read, up to something that ends a number. -/
lemma SpellsExponent.exponent?_append (h : SpellsExponent power exponent) (hrest : Ends rest) :
    exponent? (power ++ rest) = some (exponent, rest) := by
  cases h with
  | absent =>
    cases rest with
    | nil => rfl
    | cons c rest => simp [exponent?, hrest c rfl]
  | @present mark sign ds negative hmark hsign hne hds =>
    have hdigit : ∀ c ∈ rest.head?, c.isDigit = false := fun c hc => (hrest c hc).1
    have htake := takeWhile_append_of_head? hds hdigit
    have hdrop := dropWhile_append_of_head? hds hdigit
    have htakeSign := hsign.takeSign_append hne hds rest
    obtain ⟨d, ds, rfl⟩ := List.exists_cons_of_ne_nil hne
    simp only [List.cons_append, List.append_assoc] at htake hdrop htakeSign ⊢
    simp only [exponent?, htakeSign, htake, hdrop]
    simp [hmark]

/-- A power of ten cannot be taken for a digit or a point. -/
lemma SpellsExponent.head?_append (h : SpellsExponent power exponent) (hrest : Ends rest) :
    ∀ c ∈ (power ++ rest).head?, c.isDigit = false ∧ c ≠ '.' := by
  intro c hc
  cases h with
  | absent => exact ⟨(hrest c hc).1, (hrest c hc).2.1⟩
  | present hmark =>
    obtain rfl := Option.mem_some_iff.1 hc
    rcases hmark with rfl | rfl <;> decide

/-- Neither a fraction nor what follows a number starts with a digit. -/
lemma SpellsFraction.head?_append (h : SpellsFraction part fraction)
    (hrest : ∀ c ∈ rest.head?, c.isDigit = false) :
    ∀ c ∈ (part ++ rest).head?, c.isDigit = false := by
  intro c hc
  cases h with
  | absent => exact hrest c hc
  | present =>
    obtain rfl := Option.mem_some_iff.1 hc
    exact Decimal.isDigit_point

/-- There are only digits before the point. -/
lemma IsWhole.forall_isDigit (h : IsWhole whole) : ∀ c ∈ whole, c.isDigit = true := by
  cases h with
  | zero => exact List.forall_mem_singleton.2 (by decide)
  | digits _ hds => exact hds

/-- There is a digit before the point. -/
lemma IsWhole.exists_cons (h : IsWhole whole) : ∃ d ds, whole = d :: ds ∧ d.isDigit = true := by
  have hdigits := h.forall_isDigit
  cases h with
  | zero => exact ⟨_, _, rfl, hdigits _ (by simp)⟩
  | digits => exact ⟨_, _, rfl, hdigits _ (by simp)⟩

/-- A number is read off the front of a text if what follows cannot prolong it. -/
theorem Spells.read?_append {cs : List Char} {n : Numeral} (h : Spells cs n) (hrest : Ends rest) :
    read? (cs ++ rest) = some (n, rest) := by
  obtain @⟨negative, whole, part, fraction, power, exponent, hwhole, hpart, hpower⟩ := h
  have hexponent := hpower.exponent?_append hrest
  have hfraction := hpart.fraction?_append (hpower.head?_append hrest)
  have hdigits := hwhole.whole?_append
    (hpart.head?_append fun c hc => (hpower.head?_append hrest c hc).1)
  cases negative with
  | true => simp [read?, Decimal.sign, hdigits, hfraction, hexponent]
  | false =>
    -- The first digit is no minus sign.
    obtain ⟨d, ds, rfl, hd⟩ := hwhole.exists_cons
    have hminus : d ≠ '-' := by
      rintro rfl
      exact absurd hd (by decide)
    rw [List.cons_append] at hdigits
    simp [read?, Decimal.sign, hminus, hdigits, hfraction, hexponent]

/-! Conversely, what is read is a number of this form. -/

/-- What is taken while there are digits are digits. -/
lemma forall_isDigit_takeWhile (cs : List Char) :
    ∀ c ∈ cs.takeWhile Char.isDigit, c.isDigit = true :=
  fun _ hc => List.mem_takeWhile_imp hc

/-- What is read as the digits before the point are such digits. -/
private lemma isWhole_of_whole? {cs : List Char} (h : whole? cs = some (whole, rest)) :
    IsWhole whole ∧ cs = whole ++ rest := by
  unfold whole? at h
  split at h
  · split at h
    · split at h
      · cases h
      · cases h
        exact ⟨.zero, rfl⟩
    · cases h
      exact ⟨.zero, rfl⟩
  · next hzero =>
    split at h
    · cases h
    · next digits hne =>
      cases h
      have hcs : cs = cs.takeWhile Char.isDigit ++ cs.dropWhile Char.isDigit :=
        List.takeWhile_append_dropWhile.symm
      have hds := forall_isDigit_takeWhile cs
      obtain ⟨d, ds, heq⟩ := List.exists_cons_of_ne_nil hne
      rw [heq] at hcs hds ⊢
      refine ⟨.digits ?_ hds, hcs⟩
      rintro rfl
      exact hzero _ hcs

/-- What is read as a fraction spells one. -/
private lemma spellsFraction_of_fraction? {cs : List Char}
    (h : fraction? cs = some (fraction, rest)) :
    ∃ part, SpellsFraction part fraction ∧ cs = part ++ rest := by
  unfold fraction? at h
  split at h
  · next cs =>
    split at h
    · cases h
    · next digits hne =>
      cases h
      refine ⟨_, .present hne (forall_isDigit_takeWhile cs), ?_⟩
      rw [List.cons_append, List.takeWhile_append_dropWhile]
  · cases h
    exact ⟨_, .absent, rfl⟩

/-- What is read as a sign spells one. -/
private lemma exists_spellsSign (cs : List Char) :
    ∃ sign, SpellsSign sign (Decimal.takeSign cs).1 ∧ cs = sign ++ (Decimal.takeSign cs).2 := by
  unfold Decimal.takeSign
  split
  · exact ⟨_, .minus, rfl⟩
  · exact ⟨_, .plus, rfl⟩
  · exact ⟨_, .absent, rfl⟩

/-- What is read as a power of ten spells one. -/
private lemma spellsExponent_of_exponent? {cs : List Char}
    (h : exponent? cs = some (exponent, rest)) :
    ∃ power, SpellsExponent power exponent ∧ cs = power ++ rest := by
  unfold exponent? at h
  split at h
  · cases h
    exact ⟨_, .absent, rfl⟩
  · next mark cs =>
    split at h
    · next hmark =>
      obtain ⟨sign, hsign, hcs⟩ := exists_spellsSign cs
      simp only at h
      split at h
      · cases h
      · next digits hne =>
        cases h
        have hmark' : mark = 'e' ∨ mark = 'E' := by simpa using hmark
        refine ⟨_, .present hmark' hsign hne (forall_isDigit_takeWhile _), ?_⟩
        rw [List.cons_append, List.append_assoc, List.takeWhile_append_dropWhile, ← hcs]
    · cases h
      exact ⟨_, .absent, rfl⟩

/-- What is read off the front of a text as a number is a written number. -/
theorem exists_spells_of_read? {cs : List Char} {n : Numeral} (h : read? cs = some (n, rest)) :
    ∃ text, Spells text n ∧ cs = text ++ rest := by
  obtain ⟨negative, cs', hsign, hread⟩ : ∃ negative cs', cs = Decimal.sign negative ++ cs' ∧
      ((whole? cs').bind fun a => (fraction? a.2).bind fun b => (exponent? b.2).bind fun c =>
        some ((⟨negative, a.1, b.1, c.1⟩ : Numeral), c.2)) = some (n, rest) := by
    unfold read? at h
    split at h
    next negative cs' hpair =>
      split at hpair
      · cases hpair
        exact ⟨true, _, rfl, h⟩
      · cases hpair
        exact ⟨false, _, rfl, h⟩
  obtain ⟨⟨whole, cs₁⟩, hwhole?, hread⟩ := Option.bind_eq_some_iff.1 hread
  obtain ⟨⟨fraction, cs₂⟩, hfraction?, hread⟩ := Option.bind_eq_some_iff.1 hread
  obtain ⟨⟨exponent, cs₃⟩, hexponent?, hread⟩ := Option.bind_eq_some_iff.1 hread
  cases hread
  obtain ⟨hwhole, hcs'⟩ := isWhole_of_whole? hwhole?
  obtain ⟨part, hpart, hcs₁ : cs₁ = _⟩ := spellsFraction_of_fraction? hfraction?
  obtain ⟨power, hpower, hcs₂ : cs₂ = _⟩ := spellsExponent_of_exponent? hexponent?
  refine ⟨_, .parts hwhole hpart hpower, ?_⟩
  simp only [hsign, hcs', hcs₁, hcs₂, List.append_assoc]

end Reading

end Numeral

/-! ## Written strings -/

/-- The text between the quotes of a string with its code points.  A character stands for itself
unless it is a quote, a backslash or a control character. -/
inductive Contents : List Char → List Nat → Prop
  | empty : Contents [] []
  | plain {c : Char} {cs : List Char} {units : List Nat} :
      c ≠ '"' → c ≠ '\\' → 0x20 ≤ c.toNat → Contents cs units →
        Contents (c :: cs) (c.toNat :: units)
  | escaped {letter c : Char} {cs : List Char} {units : List Nat} :
      escaped? letter = some c → Contents cs units →
        Contents ('\\' :: letter :: cs) (c.toNat :: units)
  | hexadecimal {a b c d : Char} {unit : Nat} {cs : List Char} {units : List Nat} :
      hexValue4? a b c d = some unit → Contents cs units →
        Contents ('\\' :: 'u' :: a :: b :: c :: d :: cs) (unit :: units)

/-- A string between quotes with its text, if it has one. -/
inductive Quotes : List Char → Option String → Prop
  | quoted {cs : List Char} {units : List Nat} :
      Contents cs units → Quotes ('"' :: (cs ++ ['"'])) ((decode? units).map String.ofList)

/-- The contents of a string are read up to the closing quote. -/
lemma Contents.units?_append {cs : List Char} {units : List Nat} (h : Contents cs units)
    (rest : List Char) : units? (cs ++ '"' :: rest) = some (units, rest) := by
  induction h with
  | empty => rfl
  | @plain c cs units hquote hbackslash hcontrol _ ih =>
    rw [List.cons_append, units?]
    · simp [ih, Nat.not_lt.2 hcontrol]
    · exact hquote
    · rintro a b c d cs ⟨⟩
      exact absurd rfl hbackslash
    · rintro letter cs ⟨⟩
      exact absurd rfl hbackslash
  | @escaped letter c cs units hletter _ ih =>
    rw [List.cons_append, List.cons_append, units?]
    · simp [ih, hletter]
    · rintro a b c d cs rfl
      cases hletter
  | hexadecimal hunit _ ih =>
    simp [units?, ih, hunit]

/-- What is read up to a closing quote are the contents of a string. -/
private lemma exists_contents_of_units? {cs : List Char} {units : List Nat} {rest : List Char}
    (h : units? cs = some (units, rest)) :
    ∃ inner, Contents inner units ∧ cs = inner ++ '"' :: rest := by
  fun_induction units? cs generalizing units with
  | case1 => cases h
  | case2 cs =>
    cases h
    exact ⟨_, .empty, rfl⟩
  | case3 a b c d cs ih =>
    obtain ⟨unit, hunit, h⟩ := Option.bind_eq_some_iff.1 h
    obtain ⟨⟨units, cs'⟩, hunits, h⟩ := Option.bind_eq_some_iff.1 h
    cases h
    obtain ⟨inner, hinner, rfl⟩ := ih hunits
    exact ⟨_, .hexadecimal hunit hinner, rfl⟩
  | case4 letter cs _ ih =>
    obtain ⟨c, hletter, h⟩ := Option.bind_eq_some_iff.1 h
    obtain ⟨⟨units, cs'⟩, hunits, h⟩ := Option.bind_eq_some_iff.1 h
    cases h
    obtain ⟨inner, hinner, rfl⟩ := ih hunits
    exact ⟨_, .escaped hletter hinner, rfl⟩
  | case5 => cases h
  | case6 c cs hquote _ hescape _ hcontrol =>
    rename_i ih
    obtain ⟨⟨units, cs'⟩, hunits, h⟩ := Option.bind_eq_some_iff.1 h
    cases h
    obtain ⟨inner, hinner, rfl⟩ := ih hunits
    refine ⟨_, .plain hquote ?_ (Nat.not_lt.1 hcontrol) hinner, rfl⟩
    -- A backslash is followed by a letter: the string has not ended yet.
    rintro rfl
    cases inner with
    | nil => exact hescape _ _ rfl rfl
    | cons letter inner => exact hescape _ _ rfl rfl

section Strings

variable {cs rest : List Char} {text : Option String}

/-- **A quoted string is read** after its opening quote. -/
theorem Quotes.string? (h : Quotes cs text) (rest : List Char) :
    ∃ inner, cs ++ rest = '"' :: inner ∧ Json.string? inner = some (text, rest) := by
  obtain ⟨hinner⟩ := h
  refine ⟨_, rfl, ?_⟩
  simp [Json.string?, hinner.units?_append]

/-- **What is read as a string is quoted.** -/
theorem exists_quotes_of_string? (h : string? cs = some (text, rest)) :
    ∃ quoted, Quotes quoted text ∧ '"' :: cs = quoted ++ rest := by
  obtain ⟨⟨units, cs'⟩, hunits, h⟩ := Option.bind_eq_some_iff.1 h
  cases h
  obtain ⟨inner, hinner, rfl⟩ := exists_contents_of_units? hunits
  refine ⟨_, .quoted hinner, ?_⟩
  simp

end Strings

end Json

end Abacus
