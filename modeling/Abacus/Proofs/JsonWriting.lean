import Mathlib.Tactic.Common
import Abacus.Json.Library
import Abacus.Proofs.JsonTexts

/-!
# Written JSON values

What may be asked of a library for JSON texts: it reads the texts of the grammar and no others, and
what it writes for a value spells that value.  For doubles the latter depends on the double, since a
library need not read numbers exactly.

The compact text of a value spells that value, whatever its strings hold.  So the library that is
used here is strict.

## Main definitions

* `Abacus.Json.Library.ReadsBack` — a double that a library reads back.
* `Abacus.Json.Legible` — a value all of whose numbers can be read back.
* `Abacus.Json.Library.Strict` — a strict library.

## Main results

* `Abacus.Json.quotes_quote` — a quoted string spells its text, and has one text.
* `Abacus.Json.spells_natural` — the digits of a natural number spell it.
* `Abacus.Json.library_strict` — the library that is used is strict.
-/

namespace Abacus

namespace Json

/-! ## Strings -/

/-- Two written hexadecimal digits after two zeros are read back. -/
private lemma hexValue4?_hexDigit :
    ∀ n < 0x20, hexValue4? '0' '0' (hexDigit (n / 16)) (hexDigit (n % 16)) = some n := by
  decide

/-- A character as it is written spells its code point. -/
lemma Contents.escape {cs : List Char} {units : List Nat} (h : Contents cs units) (c : Char) :
    Contents (Json.escape c ++ cs) (c.toNat :: units) := by
  unfold Json.escape
  split
  · exact .escaped rfl h
  · exact .escaped rfl h
  · exact .escaped rfl h
  · exact .escaped rfl h
  · exact .escaped rfl h
  · exact .escaped rfl h
  · exact .escaped rfl h
  · next hquote hbackslash _ _ _ _ _ =>
    split
    · next hcontrol => exact .hexadecimal (hexValue4?_hexDigit _ hcontrol) h
    · next hcontrol => exact .plain hquote hbackslash (Nat.not_lt.1 hcontrol) h

/-- Written characters spell their code points. -/
private lemma contents_flatMap_escape (cs : List Char) :
    Contents (cs.flatMap escape) (cs.map Char.toNat) := by
  induction cs with
  | nil => exact .empty
  | cons c cs ih =>
    rw [List.flatMap_cons]
    exact ih.escape c

/-- No character is half of a surrogate pair. -/
private lemma isHigh_isLow_toNat (c : Char) : isHigh c.toNat = false ∧ isLow c.toNat = false := by
  have hvalid : c.toNat < 0xd800 ∨ 0xdfff < c.toNat ∧ c.toNat < 0x110000 := c.valid
  simp only [isHigh, isLow, Bool.and_eq_false_iff, decide_eq_false_iff_not]
  omega

/-- The code points of characters are decoded to the characters. -/
private lemma decode?_map_toNat (cs : List Char) : decode? (cs.map Char.toNat) = some cs := by
  induction cs with
  | nil => rfl
  | cons c cs ih =>
    obtain ⟨hhigh, hlow⟩ := isHigh_isLow_toNat c
    cases cs with
    | nil => simp [decode?, hhigh, hlow]
    | cons d cs =>
      rw [List.map_cons] at ih
      simp [decode?, hhigh, hlow, ih]

/-- A string between quotes spells its text; half of a surrogate pair spells that there is none. -/
theorem quotes_quote (text : Option String) : Quotes (quote text) text := by
  cases text with
  | none =>
    have hunit : hexValue4? 'd' '8' '0' '0' = some 0xd800 := by decide
    exact .quoted (.hexadecimal hunit .empty)
  | some s =>
    have h := Quotes.quoted (contents_flatMap_escape s.toList)
    rwa [decode?_map_toNat, Option.map_some, String.ofList_toList] at h

/-! ## Natural numbers -/

/-- The digits of a number have its value. -/
private lemma digitsValue_digitsOf (n : Nat) : Decimal.digitsValue (Decimal.digitsOf n) = n := by
  have h := Nat.ofDigitChars_ten_toDigits (n := n)
  rwa [Nat.ofDigitChars_eq_foldl] at h

/-- A positive number does not start with a zero. -/
private lemma exists_digitsOf_cons {n : Nat} (hn : 0 < n) :
    ∃ d ds, Decimal.digitsOf n = d :: ds ∧ d ≠ '0' := by
  induction n using Nat.strongRecOn with
  | _ n ih =>
    by_cases hlt : n < 10
    · refine ⟨_, _, Nat.toDigits_of_lt_base hlt, ?_⟩
      rw [Ne, Nat.digitChar_eq_zero]
      omega
    · obtain ⟨d, ds, hds, hd⟩ := ih (n / 10) (by omega) (by omega)
      refine ⟨d, ds ++ [(n % 10).digitChar], ?_, hd⟩
      rw [← List.cons_append, ← hds]
      exact Nat.toDigits_of_base_le (by omega) (by omega)

/-- The digits of a number can stand before the point: no needless zero comes first. -/
private lemma isWhole_digitsOf (n : Nat) : Numeral.IsWhole (Decimal.digitsOf n) := by
  rcases Nat.eq_zero_or_pos n with rfl | hn
  · exact .zero
  · have hdigits : ∀ c ∈ Decimal.digitsOf n, c.isDigit = true :=
      fun c hc => Decimal.isDigit_of_mem_digitsOf hc
    obtain ⟨d, ds, hds, hd⟩ := exists_digitsOf_cons hn
    rw [hds] at hdigits ⊢
    exact .digits hd hdigits

/-- The digits of a natural number of 64 bits spell it, whatever doubles are. -/
theorem spells_natural {double : Numeral → Float} {n : Nat} (hn : n < Numeral.significandBound) :
    Spells double (Decimal.digitsOf n) (.value (.natural n)) := by
  let numeral : Numeral := ⟨false, Decimal.digitsOf n, [], none⟩
  have hparts : numeral.Spells (Decimal.sign false ++ (Decimal.digitsOf n ++ ([] ++ []))) :=
    .parts (isWhole_digitsOf n) .absent .absent
  have hvalue : numeral.toJson double = .natural n := by
    simp [numeral, Numeral.toJson, digitsValue_digitsOf, hn]
  have hspells : Spells double _ _ := .number hparts
  simpa [Decimal.sign, hvalue] using hspells

/-! ## Libraries -/

namespace Library

/-- A library reads a double back from the text that it writes for it. -/
def ReadsBack (library : Library) (x : Float) : Prop :=
  library.read? (library.write (.real x)) = some (.real x)

/-- The double that a value is, if it is one. -/
def real? : Json → Option Float
  | .real x => some x
  | _ => none

/-- Whether a double is read back shows in the double that is read. -/
private lemma readsBack_iff {library : Library} {x : Float} :
    library.ReadsBack x ↔ (library.read? (library.write (.real x))).bind real? = some x := by
  constructor
  · intro h
    rw [h]
    rfl
  · intro h
    obtain ⟨v, hread, hreal⟩ := Option.bind_eq_some_iff.1 h
    cases v with
    | real y =>
      cases hreal
      exact hread
    | _ => cases hreal

instance (library : Library) (x : Float) : Decidable (library.ReadsBack x) :=
  decidable_of_iff _ readsBack_iff.symm

end Library

/-- A value all of whose numbers can be read back: natural numbers have 64 bits, and doubles are
such that a library reads them back. -/
inductive Legible (library : Library) : Json → Prop
  | null : Legible library .null
  | bool (b : Bool) : Legible library (.bool b)
  | natural {n : Nat} : n < Numeral.significandBound → Legible library (.natural n)
  | real {x : Float} : library.ReadsBack x → Legible library (.real x)
  | string (text : Option String) : Legible library (.string text)
  | array {vs : List Json} : (∀ v ∈ vs, Legible library v) → Legible library (.array vs)
  | object {ms : List (Member Json)} :
      (∀ m ∈ ms, Legible library m.value) → Legible library (.object ms)

/-- A strict library.  It reads a text as a value exactly if the text spells that value by the
grammar of JSON, and what it writes for a value spells the value, if the numbers in it can be read
back. -/
structure Library.Strict (library : Library) : Prop where
  read?_eq_some_iff : ∀ {text : String} {v : Json},
    library.read? text = some v ↔ Spells library.double text.toList (.element v)
  spells_write : ∀ {v : Json}, Legible library v →
    Spells library.double (library.write v).toList (.element v)

/-! ## Values -/

/-- A value is written, nested `depth` deep, as a text that spells it. -/
def Written (depth : Nat) (v : Json) : Prop :=
  ∃ text, Spells Numeral.toFloat text (.element v) ∧
    ∀ rest, writeOnto .compact depth v rest = text ++ rest

/-- A value needs no blanks around it. -/
lemma Spells.bare {double : Numeral → Float} {cs : List Char} {v : Json}
    (h : Spells double cs (.value v)) : Spells double cs (.element v) := by
  simpa using Spells.element blank_nil h blank_nil

section Lists

variable {depth : Nat}

/-- There are no line breaks in the compact style. -/
@[simp]
lemma Style.lineBreak_compact : Style.compact.lineBreak depth = [] := rfl

/-- There are no blanks after a colon in the compact style. -/
@[simp]
lemma Style.colon_compact : Style.compact.colon = [':'] := rfl

/-- The items of an array are written as a text that spells them. -/
private lemma spells_writeItems {v : Json} {vs : List Json}
    (h : ∀ w ∈ v :: vs, Written (depth + 1) w) :
    ∃ text, Spells Numeral.toFloat text (.items (v :: vs)) ∧ ∀ rest,
      writeOnto .compact (depth + 1) v (writeItems .compact depth vs rest) = text ++ rest := by
  induction vs generalizing v with
  | nil =>
    obtain ⟨text, hspells, hwrite⟩ := h v (by simp)
    exact ⟨text, .lastItem hspells, fun rest => hwrite rest⟩
  | cons w vs ih =>
    obtain ⟨text, hspells, hwrite⟩ := h v (by simp)
    obtain ⟨more, hitems, hmore⟩ := ih fun u hu => h u (List.mem_cons_of_mem v hu)
    refine ⟨text ++ ',' :: more, .item hspells hitems, fun rest => ?_⟩
    simp [writeItems, hwrite, hmore]

/-- A quoted key, a colon and a value spell a member. -/
lemma Spells.quoteMember {double : Numeral → Float} {cs : List Char} {m : Member Json}
    (h : Spells double cs (.element m.value)) :
    Spells double (quote m.key ++ ':' :: cs) (.member m) :=
  .member blank_nil (quotes_quote m.key) blank_nil h

/-- The members of an object are written as a text that spells them. -/
private lemma spells_writeMembers {m : Member Json} {ms : List (Member Json)}
    (h : ∀ n ∈ m :: ms, Written (depth + 1) n.value) :
    ∃ text, Spells Numeral.toFloat text (.members (m :: ms)) ∧ ∀ rest,
      quote m.key ++ ':' :: writeOnto .compact (depth + 1) m.value
        (writeMembers .compact depth ms rest) = text ++ rest := by
  induction ms generalizing m with
  | nil =>
    obtain ⟨text, hspells, hwrite⟩ := h m (by simp)
    refine ⟨_, .lastMember hspells.quoteMember, fun rest => ?_⟩
    simp [writeMembers, hwrite]
  | cons n ms ih =>
    obtain ⟨text, hspells, hwrite⟩ := h m (by simp)
    obtain ⟨more, hmembers, hmore⟩ := ih fun l hl => h l (List.mem_cons_of_mem m hl)
    refine ⟨_, .members hspells.quoteMember hmembers, fun rest => ?_⟩
    simp [writeMembers, hwrite, ← hmore]

end Lists

/-- The text of a double that is read back spells it. -/
private lemma written_real {x : Float} (h : library.ReadsBack x) (depth : Nat) :
    Written depth (.real x) := by
  refine ⟨realText x, ?_, fun _ => rfl⟩
  have hspells : Spells Numeral.toFloat ((Json.real x).write .compact).toList
      (.element (.real x)) := parse?_eq_some_iff.1 h
  rwa [write, String.toList_ofList, writeOnto, List.append_nil] at hspells

/-- **The compact text of a legible value spells it**, at every depth and in front of every text. -/
lemma Legible.written {v : Json} (h : Legible library v) (depth : Nat) : Written depth v := by
  induction h generalizing depth with
  | null => exact ⟨_, Spells.nullWord.bare, fun _ => rfl⟩
  | bool b =>
    cases b with
    | true => exact ⟨_, Spells.trueWord.bare, fun _ => rfl⟩
    | false => exact ⟨_, Spells.falseWord.bare, fun _ => rfl⟩
  | natural hn => exact ⟨_, (spells_natural hn).bare, fun _ => rfl⟩
  | real hx => exact written_real hx depth
  | string text => exact ⟨_, (Spells.string (quotes_quote text)).bare, fun _ => rfl⟩
  | @array vs _ ih =>
    cases vs with
    | nil => exact ⟨_, (Spells.noItems blank_nil).bare, fun _ => rfl⟩
    | cons v vs =>
      obtain ⟨text, hspells, hwrite⟩ := spells_writeItems fun w hw => ih w hw (depth + 1)
      refine ⟨_, hspells.array.bare, fun rest => ?_⟩
      simp [writeOnto, hwrite]
  | @object ms _ ih =>
    cases ms with
    | nil => exact ⟨_, (Spells.noMembers blank_nil).bare, fun _ => rfl⟩
    | cons m ms =>
      obtain ⟨text, hspells, hwrite⟩ := spells_writeMembers fun n hn => ih n hn (depth + 1)
      refine ⟨_, hspells.object.bare, fun rest => ?_⟩
      simp [writeOnto, hwrite]

/-- **The library that is used is strict.** -/
theorem library_strict : library.Strict where
  read?_eq_some_iff := parse?_eq_some_iff
  spells_write := by
    intro v hv
    obtain ⟨text, hspells, hwrite⟩ := hv.written 0
    have htext : (v.write .compact).toList = text := by
      rw [write, hwrite, List.append_nil, String.toList_ofList]
    exact htext ▸ hspells

/-- It does not read all finite doubles back, since it does not read numbers exactly. -/
example : (1e-23 : Float).isFinite = true ∧ ¬ library.ReadsBack 1e-23 := by
  decide +kernel

end Json

end Abacus
