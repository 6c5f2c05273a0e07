import Mathlib.Tactic.Common
import Abacus.Proofs.Scanning

/-!
# Blanks between tokens

A blank goes on with no lexeme, so what the rules read in front of a blank is what they read at the
end of a text.  It follows that a script can be scanned in parts: the tokens of two scripts on lines
of their own are the tokens of the first and then those of the second, which only start elsewhere.

## Main results

* `Abacus.Match.first?_append_blank` — a blank goes on with no lexeme.
* `Abacus.Token.scan_kinds` — where a script starts does not matter for the kinds of its tokens.
* `Abacus.Token.tokenize_append_newline` — the tokens of two scripts, one after the other.
-/

namespace Abacus

open Text (isBlank)

/-! ## Blanks and lexemes -/

section Blank

variable {c : Char}

/-- Where blanks stand among the characters. -/
lemma Text.toNat_of_isBlank (h : isBlank c = true) :
    c.toNat ≤ 13 ∨ c.toNat = 32 ∨ 127 < c.toNat := by
  simp only [isBlank, blankRanges, List.any_cons, List.any_nil, Bool.or_false, Bool.or_eq_true,
    Bool.and_eq_true, decide_eq_true_eq] at h
  omega

/-- Where digits stand among the characters. -/
lemma Rule.toNat_of_isDigit (h : c.isDigit = true) : 48 ≤ c.toNat ∧ c.toNat ≤ 57 :=
  Char.isDigit_iff_toNat.1 h

/-- Where letters stand among the characters. -/
lemma Rule.toNat_of_isAlpha (h : c.isAlpha = true) : 64 < c.toNat ∧ c.toNat ≤ 122 := by
  have hletter : c.isUpper = true ∨ c.isLower = true := Bool.or_eq_true_iff.1 h
  rcases hletter with hupper | hlower
  · have hplace : 'A'.val ≤ c.val ∧ c.val ≤ 'Z'.val := of_decide_eq_true hupper
    have hfirst : 65 ≤ c.toNat := UInt32.le_iff_toNat_le.1 hplace.1
    have hlast : c.toNat ≤ 90 := UInt32.le_iff_toNat_le.1 hplace.2
    omega
  · obtain ⟨hfirst, hlast⟩ := Bool.and_eq_true_iff.1 hlower
    have hfirst : 97 ≤ c.toNat := UInt32.le_iff_toNat_le.1 (of_decide_eq_true hfirst)
    have hlast : c.toNat ≤ 122 := UInt32.le_iff_toNat_le.1 (of_decide_eq_true hlast)
    omega

/-- Where the characters that start names stand among the characters. -/
lemma Rule.toNat_of_startsName (h : startsName c = true) :
    c.toNat = 36 ∨ 64 < c.toNat ∧ c.toNat ≤ 122 := by
  rw [startsName, Bool.or_eq_true, Bool.or_eq_true, decide_eq_true_eq, decide_eq_true_eq] at h
  rcases h with (h | rfl) | rfl
  · exact .inr (toNat_of_isAlpha h)
  · decide
  · decide

/-- No blank goes on with a name. -/
lemma Rule.continuesName_of_isBlank (h : isBlank c = true) : continuesName c = false := by
  have hblank := Text.toNat_of_isBlank h
  rw [continuesName, Bool.or_eq_false_iff, ← Bool.not_eq_true, ← Bool.not_eq_true]
  constructor
  · intro hname
    have hplace := toNat_of_startsName hname
    omega
  · intro hdigit
    have hplace := toNat_of_isDigit hdigit
    omega

/-- No blank starts a name. -/
lemma Rule.startsName_of_isBlank (h : isBlank c = true) : startsName c = false :=
  (Bool.or_eq_false_iff.1 (continuesName_of_isBlank h)).1

/-- No blank is a digit. -/
lemma Rule.isDigit_of_isBlank (h : isBlank c = true) : c.isDigit = false :=
  (Bool.or_eq_false_iff.1 (continuesName_of_isBlank h)).2

/-- A character that spells an operator is the symbol of that operator. -/
lemma Operator.eq_symbol_of_ofSymbol? {op : Operator} (h : ofSymbol? c = some op) :
    c = op.symbol := by
  unfold ofSymbol? at h
  split at h <;> cases h <;> rfl

/-- No blank is an operator. -/
lemma Operator.ofSymbol?_of_isBlank (h : isBlank c = true) : ofSymbol? c = none := by
  refine Option.eq_none_iff_forall_ne_some.2 fun op hop => ?_
  rw [eq_symbol_of_ofSymbol? hop] at h
  cases op <;> exact absurd h (by decide)

/-- No blank is a mark. -/
lemma Mark.ofSymbol?_of_isBlank (h : isBlank c = true) : Mark.ofSymbol? c = none := by
  refine List.find?_eq_none.2 fun m _ => ?_
  simp only [decide_eq_true_eq]
  rintro rfl
  cases m <;> exact absurd h (by decide)

end Blank

section Lists

variable {α : Type} {p : α → Bool} {a : α}

/-- What fails a test ends what is taken, whatever follows. -/
lemma takeWhile_append_cons (ha : p a = false) (xs ys : List α) :
    (xs ++ a :: ys).takeWhile p = xs.takeWhile p := by
  induction xs with
  | nil => simp [ha]
  | cons x xs ih => simp only [List.cons_append, List.takeWhile_cons, ih]

/-- What fails a test ends what is dropped, whatever follows. -/
private lemma dropWhile_append_cons (ha : p a = false) (xs ys : List α) :
    (xs ++ a :: ys).dropWhile p = xs.dropWhile p ++ a :: ys := by
  induction xs with
  | nil => simp [ha]
  | cons x xs ih =>
    simp only [List.cons_append, List.dropWhile_cons, ih]
    split <;> rfl

end Lists

namespace Rule

variable {c : Char} (hc : isBlank c = true) (cs ds : List Char)

include hc

/-- A sign is split off in front of a blank as at the end of a text. -/
private lemma splitMinus_append_blank :
    splitMinus (cs ++ c :: ds) = ((splitMinus cs).1, (splitMinus cs).2 ++ c :: ds) := by
  cases cs with
  | nil =>
    have hminus : c ≠ '-' := by
      rintro rfl
      exact absurd hc (by decide)
    rw [List.nil_append, splitMinus]
    · rfl
    · rintro _ ⟨⟩
      exact hminus rfl
  | cons d cs =>
    by_cases hd : d = '-'
    · subst hd
      rfl
    · rw [List.cons_append, splitMinus, splitMinus]
      · rfl
      · rintro _ ⟨⟩
        exact hd rfl
      · rintro _ ⟨⟩
        exact hd rfl

/-- A fraction is read in front of a blank as at the end of a text. -/
private lemma fraction_append_blank : fraction (cs ++ c :: ds) = fraction cs := by
  cases cs with
  | nil =>
    have hpoint : c ≠ '.' := by
      rintro rfl
      exact absurd hc (by decide)
    rw [List.nil_append, fraction]
    · rfl
    · rintro _ ⟨⟩
      exact hpoint rfl
  | cons d cs =>
    by_cases hd : d = '.'
    · subst hd
      rw [List.cons_append, fraction, fraction, takeWhile_append_cons (isDigit_of_isBlank hc)]
    · rw [List.cons_append, fraction, fraction]
      · rintro _ ⟨⟩
        exact hd rfl
      · rintro _ ⟨⟩
        exact hd rfl

/-- A number is read in front of a blank as at the end of a text. -/
private lemma number?_append_blank : number? (cs ++ c :: ds) = number? cs := by
  have hdigit := isDigit_of_isBlank hc
  simp only [number?, splitMinus_append_blank hc, takeWhile_append_cons hdigit,
    dropWhile_append_cons hdigit, fraction_append_blank hc]

/-- A rule reads in front of a blank what it reads at the end of a text. -/
private lemma read?_append_blank (rule : Rule) : rule.read? (cs ++ c :: ds) = rule.read? cs := by
  cases rule with
  | number => exact number?_append_blank hc cs ds
  | operator =>
    cases cs with
    | nil => simp [read?, operator?, Operator.ofSymbol?_of_isBlank hc]
    | cons d cs => rfl
  | identifier =>
    cases cs with
    | nil => simp [read?, identifier?, startsName_of_isBlank hc]
    | cons d cs =>
      simp only [read?, List.cons_append, identifier?,
        takeWhile_append_cons (continuesName_of_isBlank hc)]
  | punctuation =>
    cases cs with
    | nil => simp [read?, punctuation?, Mark.ofSymbol?_of_isBlank hc]
    | cons d cs => rfl

end Rule

/-- **A blank goes on with no lexeme.** -/
theorem Match.first?_append_blank {c : Char} (hc : isBlank c = true) (cs ds : List Char) :
    first? (cs ++ c :: ds) = first? cs := by
  simp only [first?, Rule.read?_append_blank hc]

namespace Token

/-! ## The start of a script -/

/-- Blanks and comments are skipped wherever they start. -/
lemma skipTrivia_of_start {s t : Span} {cs rest : List Char} (h : skipTrivia s cs = (t, rest))
    (s' : Span) : ∃ t', skipTrivia s' cs = (t', rest) := by
  obtain ⟨gap, rfl, hgap, hsolid, -⟩ := skipTrivia_eq_iff.1 h
  exact ⟨s'.advance gap, skipTrivia_eq_iff.2 ⟨gap, rfl, hgap, hsolid, rfl⟩⟩

/-- **Where a script starts does not matter** for the kinds of its tokens. -/
theorem scan_kinds {s : Span} {cs : List Char} {tokens : List Token}
    (h : scan s cs = .ok tokens) : ∀ s' : Span, ∃ tokens', scan s' cs = .ok tokens' ∧
      tokens'.map (·.kind) = tokens.map (·.kind) := by
  refine scan_ok_induction (P := fun _ cs tokens => ∀ s' : Span, ∃ tokens',
    scan s' cs = .ok tokens' ∧ tokens'.map (·.kind) = tokens.map (·.kind)) ?_ ?_ h
  · intro s t cs hskip s'
    obtain ⟨t', hskip'⟩ := skipTrivia_of_start hskip s'
    exact ⟨[], scan_of_end hskip', rfl⟩
  · intro s t cs rest m tokens hskip hm ih s'
    obtain ⟨t', hskip'⟩ := skipTrivia_of_start hskip s'
    obtain ⟨others, hothers, hkinds⟩ := ih (t'.advance m.lexeme)
    refine ⟨⟨m.kind, String.ofList m.lexeme, t'⟩ :: others, ?_, ?_⟩
    · rw [scan_of_match hskip' hm, hothers]
      rfl
    · rw [List.map_cons, List.map_cons, hkinds]

/-! ## One script after the other -/

/-- A gap stays one if a line follows: the line feed ends a comment that was last. -/
lemma Gap.append_newline {rest gap : List Char} (h : Gap rest gap) (ds : List Char) :
    Gap (rest ++ '\n' :: ds) gap := by
  induction h with
  | nil => exact .nil
  | blank hc _ ih => exact .blank hc ih
  | @comment body cs hbody hends _ ih =>
    refine .comment hbody (.inr ?_) ih
    rw [← List.append_assoc]
    rcases hends with hnil | ⟨more, hmore⟩
    · exact ⟨ds, by rw [hnil]; rfl⟩
    · exact ⟨more ++ '\n' :: ds, by rw [hmore]; rfl⟩

/-- Where nothing can be skipped, a blank further on does not change that. -/
lemma Solid.append_blank {cs : List Char} (h : Solid cs) (hne : cs ≠ []) {b : Char}
    (hb : isBlank b = true) (ds : List Char) : Solid (cs ++ b :: ds) := by
  obtain ⟨c, rest, rfl⟩ := List.exists_cons_of_ne_nil hne
  refine ⟨?_, fun more hmore => ?_⟩
  · rintro _ _ ⟨⟩
    exact h.1 c rest rfl
  · obtain ⟨rfl, hrest⟩ := List.cons.inj hmore
    cases rest with
    | nil =>
      cases hrest
      exact absurd hb (by decide)
    | cons d rest =>
      obtain ⟨rfl, -⟩ := List.cons.inj hrest
      exact h.2 rest rfl

/-- What is scanned depends on what is left after blanks and comments. -/
lemma scan_congr {s s' : Span} {cs cs' : List Char} (h : skipTrivia s cs = skipTrivia s' cs') :
    scan s cs = scan s' cs' := by
  cases hskip : skipTrivia s cs with
  | mk t rest =>
    rw [hskip] at h
    cases hm : Match.first? rest with
    | none =>
      by_cases hrest : rest = []
      · subst hrest
        rw [scan_of_end hskip, scan_of_end h.symm]
      · rw [scan_of_stuck hskip hrest hm, scan_of_stuck h.symm hrest hm]
    | some m =>
      obtain ⟨-, more, rfl⟩ := Match.first?_lexeme hm
      rw [scan_of_match hskip hm, scan_of_match h.symm hm]

/-- **A script and then a line**: the tokens of the script come first.

**Proof sketch.** Induction on the script.  Its gaps and lexemes are read as if the line were not
there, and the line feed belongs to the gap at the end. -/
private lemma scan_append_newline {s : Span} {cs : List Char} {tokens : List Token}
    (h : scan s cs = .ok tokens) (ds : List Char) :
    scan s (cs ++ '\n' :: ds) = (scan ((s.advance cs).step '\n') ds).map (tokens ++ ·) := by
  refine scan_ok_induction (P := fun s cs tokens => scan s (cs ++ '\n' :: ds) =
    (scan ((s.advance cs).step '\n') ds).map (tokens ++ ·)) ?_ ?_ h
  · intro s t cs hskip
    obtain ⟨gap, rfl, hgap, -, rfl⟩ := skipTrivia_eq_iff.1 hskip
    rw [List.append_nil]
    have hgap' : Gap ('\n' :: ds) gap := hgap.append_newline ds
    have hline : skipTrivia s (gap ++ '\n' :: ds) =
        skipTrivia ((s.advance gap).step '\n') ds := by
      rw [hgap'.skipTrivia, skipTrivia_blank Text.isBlank_newline]
    rw [scan_congr hline]
    cases scan ((s.advance gap).step '\n') ds <;> rfl
  · intro s t cs rest m tokens hskip hm ih
    obtain ⟨gap, rfl, hgap, hsolid, rfl⟩ := skipTrivia_eq_iff.1 hskip
    obtain ⟨hne, -⟩ := Match.first?_lexeme hm
    have hskip' : skipTrivia s (gap ++ (m.lexeme ++ rest) ++ '\n' :: ds) =
        (s.advance gap, m.lexeme ++ (rest ++ '\n' :: ds)) := by
      refine skipTrivia_eq_iff.2 ⟨gap, by simp, ?_, ?_, rfl⟩
      · rw [← List.append_assoc]
        exact hgap.append_newline ds
      · rw [← List.append_assoc]
        exact hsolid.append_blank (by simp [hne]) Text.isBlank_newline ds
    have hm' : Match.first? (m.lexeme ++ (rest ++ '\n' :: ds)) = some m := by
      rw [← List.append_assoc, Match.first?_append_blank Text.isBlank_newline, hm]
    rw [scan_of_match hskip' hm', ih]
    simp only [Span.advance_append]
    cases scan ((((s.advance gap).advance m.lexeme).advance rest).step '\n') ds <;> rfl

/-- **The tokens of two scripts**, each on lines of its own: those of the first, and then those of
the second, up to their places. -/
theorem tokenize_append_newline {first second : String} {tokens more : List Token}
    (hfirst : tokenize first = .ok tokens) (hsecond : tokenize second = .ok more) :
    ∃ more', tokenize (first ++ "\n" ++ second) = .ok (tokens ++ more') ∧
      more'.map (·.kind) = more.map (·.kind) := by
  obtain ⟨more', hscan, hkinds⟩ := scan_kinds hsecond ((Span.start.advance first.toList).step '\n')
  refine ⟨more', ?_, hkinds⟩
  have htext : (first ++ "\n" ++ second).toList = first.toList ++ '\n' :: second.toList := by
    simp
  rw [tokenize, htext, scan_append_newline hfirst, hscan]
  rfl

end Token

end Abacus
