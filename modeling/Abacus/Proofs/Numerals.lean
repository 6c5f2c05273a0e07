import Mathlib.Data.List.TakeWhile
import Mathlib.Tactic.Common
import Abacus.Token.Rule

/-!
# Numerals

The plain form of a numeral is a minus sign or nothing, some digits, and perhaps a point with
digits after it.  Scripts write numbers in this form, and so does the text of a finite number.

## Main definitions

* `Abacus.Decimal.Spells` — a text in plain form, and the decimal number that it spells.
* `Abacus.Number.ReadsBack` — a finite number that its text reads back as.

## Main results

* `Abacus.Decimal.Spells.number?_append`, `Abacus.Decimal.exists_spells_of_number?` — the lexical
  rule for numbers reads the plain form, and nothing else.
* `Abacus.Number.exists_spells_text` — the text of a finite number is in plain form.
-/

namespace Abacus

/-! ## What stands next -/

section Heads

variable {α : Type} {p : α → Bool} {xs rest : List α}

/-- What satisfies a test is taken, up to something that does not. -/
lemma takeWhile_append_of_head? (hxs : ∀ a ∈ xs, p a = true)
    (hrest : ∀ a ∈ rest.head?, p a = false) : (xs ++ rest).takeWhile p = xs := by
  rw [List.takeWhile_append_of_pos hxs]
  cases rest with
  | nil => simp
  | cons a rest => simp [hrest a rfl]

/-- What satisfies a test is dropped, up to something that does not. -/
lemma dropWhile_append_of_head? (hxs : ∀ a ∈ xs, p a = true)
    (hrest : ∀ a ∈ rest.head?, p a = false) : (xs ++ rest).dropWhile p = rest := by
  rw [List.dropWhile_append_of_pos hxs]
  cases rest with
  | nil => simp
  | cons a rest => simp [hrest a rfl]

/-- What is left after dropping does not start with something that satisfies the test. -/
lemma eq_false_of_mem_head?_dropWhile {a : α} (h : a ∈ (xs.dropWhile p).head?) :
    p a = false := by
  have hnot := List.head?_dropWhile_not p xs
  rwa [Option.mem_def.1 h] at hnot

end Heads

namespace Decimal

/-! ## The plain form -/

/-- A minus sign, or nothing. -/
def sign (negative : Bool) : List Char := if negative then ['-'] else []

/-- A text in plain form spells a decimal number. -/
inductive Spells : List Char → Decimal → Prop
  | whole {negative : Bool} {digits : List Char} :
      digits ≠ [] → (∀ c ∈ digits, c.isDigit = true) →
        Spells (sign negative ++ digits) (ofDigits negative digits [] 0)
  | fraction {negative : Bool} {digits part : List Char} :
      digits ≠ [] → (∀ c ∈ digits, c.isDigit = true) → (∀ c ∈ part, c.isDigit = true) →
        Spells (sign negative ++ (digits ++ '.' :: part)) (ofDigits negative digits part 0)

/-! ## Reading the plain form -/

section Reading

variable {digits : List Char} (hne : digits ≠ []) (hdigits : ∀ c ∈ digits, c.isDigit = true)

include hne hdigits

/-- A sign is split off in front of digits. -/
lemma splitMinus_sign (negative : Bool) (rest : List Char) :
    Rule.splitMinus (sign negative ++ (digits ++ rest)) = (sign negative, digits ++ rest) := by
  cases negative with
  | true => rfl
  | false =>
    obtain ⟨c, cs, rfl⟩ := List.exists_cons_of_ne_nil hne
    rw [sign, if_neg (by simp), List.nil_append, List.cons_append, Rule.splitMinus]
    rintro _ ⟨⟩
    exact absurd (hdigits '-' (by simp)) (by decide)

/-- A sign is taken off in front of digits. -/
lemma takeSign_sign (negative : Bool) (rest : List Char) :
    takeSign (sign negative ++ (digits ++ rest)) = (negative, digits ++ rest) := by
  cases negative with
  | true => rfl
  | false =>
    obtain ⟨c, cs, rfl⟩ := List.exists_cons_of_ne_nil hne
    rw [sign, if_neg (by simp), List.nil_append, List.cons_append, takeSign]
    · rintro _ ⟨⟩
      exact absurd (hdigits '-' (by simp)) (by decide)
    · rintro _ ⟨⟩
      exact absurd (hdigits '+' (by simp)) (by decide)

end Reading

/-- There is a sign if the number is negative. -/
lemma isEmpty_sign (negative : Bool) : (!(sign negative).isEmpty) = negative := by
  cases negative <;> rfl

/-- The point is no digit. -/
lemma isDigit_point : '.'.isDigit = false := by decide

/-- There is no point in a sign. -/
private lemma point_not_mem_sign (negative : Bool) : '.' ∉ sign negative := by
  cases negative <;> decide

/-- What is split off is a sign. -/
private lemma splitMinus_eq_sign (cs : List Char) :
    ∃ negative rest, Rule.splitMinus cs = (sign negative, rest) ∧ cs = sign negative ++ rest := by
  unfold Rule.splitMinus
  split
  · exact ⟨true, _, rfl, rfl⟩
  · exact ⟨false, _, rfl, rfl⟩

/-- There is no fraction without a point. -/
lemma fraction_of_head? {rest : List Char} (h : ∀ c ∈ rest.head?, c ≠ '.') :
    Rule.fraction rest = [] := by
  cases rest with
  | nil => rfl
  | cons c rest =>
    rw [Rule.fraction]
    rintro _ ⟨⟩
    exact h '.' rfl rfl

namespace Spells

variable {text : List Char} {d : Decimal}

/-- The lexical rule for numbers reads a numeral in plain form where neither a digit follows nor, if
the numeral has no point, a point. -/
theorem number?_append (h : Spells text d) {rest : List Char}
    (hdigit : ∀ c ∈ rest.head?, c.isDigit = false)
    (hpoint : '.' ∉ text → ∀ c ∈ rest.head?, c ≠ '.') :
    Rule.number? (text ++ rest) = some ⟨.number, text, .number d.toFloat⟩ := by
  cases h with
  | @whole negative digits hne hdigits =>
    have hnot : '.' ∉ sign negative ++ digits := by
      intro hmem
      rcases List.mem_append.1 hmem with hmem | hmem
      · exact point_not_mem_sign negative hmem
      · exact absurd (hdigits _ hmem) (by decide)
    have hsplit := splitMinus_sign hne hdigits negative rest
    simp [Rule.number?, hsplit, takeWhile_append_of_head? hdigits hdigit,
      dropWhile_append_of_head? hdigits hdigit, fraction_of_head? (hpoint hnot), hne, isEmpty_sign]
  | @fraction negative digits part hne hdigits hpart =>
    have hsplit := splitMinus_sign hne hdigits negative ('.' :: (part ++ rest))
    simp [Rule.number?, hsplit, List.takeWhile_append_of_pos hdigits,
      List.dropWhile_append_of_pos hdigits, isDigit_point, Rule.fraction,
      takeWhile_append_of_head? hpart hdigit, hne, isEmpty_sign]

/-- Reading the text of a numeral in plain form gives the decimal number that it spells. -/
lemma ofChars? (h : Spells text d) : Decimal.ofChars? text = some d := by
  cases h with
  | @whole negative digits hne hdigits =>
    have hsign := takeSign_sign hne hdigits negative []
    rw [List.append_nil] at hsign
    have htake : digits.takeWhile Char.isDigit = digits := List.takeWhile_eq_self_iff.2 hdigits
    have hdrop : digits.dropWhile Char.isDigit = [] := List.dropWhile_eq_nil_iff.2 hdigits
    simp [Decimal.ofChars?, hsign, htake, hdrop, hne, exponentOf?]
  | @fraction negative digits part hne hdigits hpart =>
    have hsign := takeSign_sign hne hdigits negative ('.' :: part)
    have htake : part.takeWhile Char.isDigit = part := List.takeWhile_eq_self_iff.2 hpart
    have hdrop : part.dropWhile Char.isDigit = [] := List.dropWhile_eq_nil_iff.2 hpart
    simp [Decimal.ofChars?, hsign, List.takeWhile_append_of_pos hdigits,
      List.dropWhile_append_of_pos hdigits, isDigit_point, htake, hdrop, hne, exponentOf?]

end Spells

/-- **What the lexical rule for numbers reads** is a numeral in plain form, and neither a digit
follows it nor, if it has no point, a point. -/
theorem exists_spells_of_number? {cs : List Char} {m : Match} (h : Rule.number? cs = some m) :
    ∃ d rest, cs = m.lexeme ++ rest ∧ m.kind = .number d.toFloat ∧ Spells m.lexeme d ∧
      (∀ c ∈ rest.head?, c.isDigit = false) ∧
      ('.' ∉ m.lexeme → ∀ c ∈ rest.head?, c ≠ '.') := by
  obtain ⟨negative, body, hsplit, rfl⟩ := splitMinus_eq_sign cs
  simp only [Rule.number?, hsplit, isEmpty_sign, Option.ite_none_left_eq_some,
    Option.some.injEq] at h
  obtain ⟨hne, rfl⟩ := h
  have hne : body.takeWhile Char.isDigit ≠ [] := by simpa using hne
  have hdigits : ∀ c ∈ body.takeWhile Char.isDigit, c.isDigit = true :=
    fun c hc => List.mem_takeWhile_imp hc
  have hstop : ∀ c ∈ (body.dropWhile Char.isDigit).head?, c.isDigit = false :=
    fun c hc => eq_false_of_mem_head?_dropWhile hc
  have hbody : body.takeWhile Char.isDigit ++ body.dropWhile Char.isDigit = body :=
    List.takeWhile_append_dropWhile
  generalize body.takeWhile Char.isDigit = digits, body.dropWhile Char.isDigit = rest at *
  subst hbody
  by_cases hpoint : ∃ more, rest = '.' :: more
  · obtain ⟨more, rfl⟩ := hpoint
    have hpart : ∀ c ∈ more.takeWhile Char.isDigit, c.isDigit = true :=
      fun c hc => List.mem_takeWhile_imp hc
    refine ⟨_, more.dropWhile Char.isDigit, by simp [Rule.fraction], rfl, ?_, ?_, ?_⟩
    · simpa [Rule.fraction] using Spells.fraction hne hdigits hpart
    · exact fun c hc => eq_false_of_mem_head?_dropWhile hc
    · exact fun hnot => absurd (by simp [Rule.fraction]) hnot
  · have hhead : ∀ c ∈ rest.head?, c ≠ '.' := by
      rintro c hc rfl
      exact hpoint (List.head?_eq_some_iff.1 hc)
    refine ⟨_, rest, by simp [fraction_of_head? hhead], rfl, ?_, hstop, fun _ => hhead⟩
    simpa [fraction_of_head? hhead] using Spells.whole hne hdigits

/-! ## Writing the plain form -/

/-- The digits of a number are digits. -/
lemma isDigit_of_mem_digitsOf {n : Nat} {c : Char} (h : c ∈ digitsOf n) : c.isDigit = true :=
  Nat.isDigit_of_mem_toDigits (by decide) (by decide) h

/-- The digits of a number with its place are digits. -/
private lemma isDigit_of_mem_ofNat {n : Nat} {place : Int} {c : Char}
    (h : c ∈ (Digits.ofNat n place).digits) : c.isDigit = true := by
  have hsuffix := List.dropWhile_suffix (l := (digitsOf n).reverse) (· == '0')
  exact isDigit_of_mem_digitsOf (List.mem_reverse.1 (hsuffix.mem (List.mem_reverse.1 h)))

/-- The shortest digits of a number are digits. -/
private lemma isDigit_of_mem_shortest {tie : Tie} {x : Float} {c : Char}
    (h : c ∈ (shortest tie x).digits) : c.isDigit = true := by
  unfold shortest at h
  simp only at h
  cases hfound : (List.range 17).findSome? (fun count =>
      ((Interval.ofFloat x).neighbour? tie ((Interval.ofFloat x).places - (count + 1 : Nat))).map
        (Digits.ofNat · ((Interval.ofFloat x).places - (count + 1 : Nat)))) with
  | none =>
    rw [hfound] at h
    obtain rfl := List.mem_singleton.1 h
    decide
  | some digits =>
    rw [hfound] at h
    obtain ⟨count, -, hcount⟩ := List.exists_of_findSome?_eq_some hfound
    obtain ⟨n, -, rfl⟩ := Option.map_eq_some_iff.1 hcount
    exact isDigit_of_mem_ofNat h

/-- Zeros are digits. -/
lemma isDigit_of_mem_replicate {n : Nat} {c : Char} (h : c ∈ List.replicate n '0') :
    c.isDigit = true := by
  rw [(List.mem_replicate.1 h).2]
  decide

/-- Positional notation is in plain form. -/
lemma Digits.exists_spells_positional {d : Digits} (h : ∀ c ∈ d.digits, c.isDigit = true)
    (negative : Bool) : ∃ decimal, Spells (sign negative ++ d.positional []) decimal := by
  simp only [positional]
  split
  · have hzero : ∀ c ∈ ['0'], c.isDigit = true := List.forall_mem_singleton.2 (by decide)
    refine ⟨_, .fraction (List.cons_ne_nil '0' []) hzero fun c hc => ?_⟩
    rcases List.mem_append.1 hc with hc | hc
    · exact isDigit_of_mem_replicate hc
    · exact h c hc
  · split
    · refine ⟨_, .whole ?_ fun c hc => ?_⟩
      · intro hnil
        simp only [List.append_nil, List.append_eq_nil_iff, List.replicate_eq_nil_iff] at hnil
        rw [hnil.1, List.length_nil] at *
        omega
      · rw [List.append_nil] at hc
        rcases List.mem_append.1 hc with hc | hc
        · exact h c hc
        · exact isDigit_of_mem_replicate hc
    · refine ⟨_, .fraction ?_ (fun c hc => h c (List.mem_of_mem_take hc))
        fun c hc => h c (List.mem_of_mem_drop hc)⟩
      intro hnil
      have hlength := congrArg List.length hnil
      simp only [List.length_take, List.length_nil] at hlength
      omega

end Decimal

namespace Number

open Decimal (Spells)

/-- A finite number is neither undefined nor an infinity. -/
private lemma isNaN_isInf_of_isFinite {x : Float} (h : x.isFinite = true) :
    x.isNaN = false ∧ x.isInf = false := by
  change x.toModel.unpack.isFinite = true at h
  change x.toModel.unpack.isNaN = false ∧ x.toModel.unpack.isInf = false
  generalize x.toModel.unpack = unpacked at h ⊢
  cases unpacked with
  | zero => exact ⟨rfl, rfl⟩
  | finite => exact ⟨rfl, rfl⟩
  | _ => cases h

/-- **The text of a finite number is in plain form.** -/
theorem exists_spells_text {x : Float} (h : x.isFinite = true) :
    ∃ d, Spells (text x).toList d := by
  obtain ⟨hnan, hinf⟩ := isNaN_isInf_of_isFinite h
  have hsign : (if x.toBits.toNat < Nat.pow 2 63 then "" else "-").toList =
      Decimal.sign (decide ¬ x.toBits.toNat < Nat.pow 2 63) := by
    by_cases hbit : x.toBits.toNat < Nat.pow 2 63
    · simp [hbit, Decimal.sign]
    · simp [hbit, Decimal.sign]
  simp only [text, hnan, hinf, Bool.false_eq_true, if_false]
  split
  · rw [String.toList_append, hsign]
    exact ⟨_, .whole (List.cons_ne_nil '0' []) (List.forall_mem_singleton.2 (by decide))⟩
  · rw [String.toList_append, String.toList_ofList, hsign]
    exact Decimal.Digits.exists_spells_positional (fun c => Decimal.isDigit_of_mem_shortest) _

/-- A finite number whose text reads back as the number itself. -/
structure ReadsBack (x : Float) : Prop where
  isFinite : x.isFinite = true
  read : (Decimal.ofChars? (text x).toList).map Decimal.toFloat = some x

/-- The text of such a number spells it. -/
lemma ReadsBack.exists_spells {x : Float} (h : ReadsBack x) :
    ∃ d, Spells (text x).toList d ∧ d.toFloat = x := by
  obtain ⟨d, hd⟩ := exists_spells_text h.isFinite
  have hread := h.read
  rw [hd.ofChars?, Option.map_some, Option.some.injEq] at hread
  exact ⟨d, hd, hread⟩

end Number

end Abacus
