import Mathlib.Tactic.Common
import Abacus.Token.Scan

/-!
# How a script is scanned

What scanning does with a text, by what stands at its start: a comment, a blank, or something else,
which is a token or unreadable.  Proofs about scripts go by these cases and do not look into the
scanner again.

Between two tokens stands a gap, which is what skipping passes over: blanks, and comments that last
to the end of their line.

## Main definitions

* `Abacus.Token.Gap` — blanks and comments in front of the rest of a text.
* `Abacus.Token.scanWithin` — scanning with a bound on the number of tokens.

## Main results

* `Abacus.Token.skipTrivia_eq_iff` — skipping passes over a gap, all of it.
* `Abacus.Token.scan_of_end`, `scan_of_match`, `scan_of_stuck` — scanning, by what follows the gap.
* `Abacus.Token.scan_induction`, `scan_ok_induction` — induction on a script.
* `Abacus.Token.tokenize_eq_scanWithin` — the tokens of a script, in a form that can be evaluated.
-/

namespace Abacus

namespace Token

open Text (isBlank)

/-! ## Blanks and comments -/

/-- Two slashes start a comment. -/
private lemma skipTrivia_comment (s : Span) (cs : List Char) :
    skipTrivia s ('/' :: '/' :: cs) = skipComment ((s.step '/').step '/') cs := by
  rw [skipTrivia]

/-- A blank is skipped. -/
lemma skipTrivia_blank {c : Char} (hc : isBlank c = true) (s : Span) (cs : List Char) :
    skipTrivia s (c :: cs) = skipTrivia (s.step c) cs := by
  rw [skipTrivia]
  · rw [if_pos hc]
  · rintro ds rfl
    exact absurd hc (by decide)

/-- Neither a blank nor two slashes stand at the start of a text. -/
def Solid (cs : List Char) : Prop :=
  (∀ c rest, cs = c :: rest → isBlank c = false) ∧ ∀ rest, cs ≠ '/' :: '/' :: rest

/-- Nothing can be skipped in the empty text. -/
lemma solid_nil : Solid [] := ⟨nofun, nofun⟩

/-- Where neither a blank nor a comment starts, nothing is skipped. -/
lemma skipTrivia_of_solid {cs : List Char} (h : Solid cs) (s : Span) :
    skipTrivia s cs = (s, cs) := by
  cases cs with
  | nil => rw [skipTrivia]
  | cons c rest =>
    rw [skipTrivia]
    · rw [h.1 c rest rfl]
      rfl
    · rintro ds rfl rfl
      exact h.2 ds rfl

/-- A line feed ends a comment. -/
private lemma skipComment_newline (s : Span) (cs : List Char) :
    skipComment s ('\n' :: cs) = skipTrivia (s.step '\n') cs := by
  rw [skipComment]

/-- All else belongs to the comment. -/
private lemma skipComment_cons {c : Char} (hc : c ≠ '\n') (s : Span) (cs : List Char) :
    skipComment s (c :: cs) = skipComment (s.step c) cs := by
  rw [skipComment]
  exact hc

/-- A comment lasts to the end of its line. -/
private lemma skipComment_line {body : List Char} (hbody : '\n' ∉ body) :
    ∀ (s : Span) (cs : List Char),
      skipComment s (body ++ cs) = skipComment (s.advance body) cs := by
  induction body with
  | nil => exact fun _ _ => rfl
  | cons c body ih =>
    intro s cs
    simp only [List.mem_cons, not_or] at hbody
    rw [List.cons_append, skipComment_cons (Ne.symm hbody.1), ih hbody.2, Span.advance_cons]

/-- The end of a text or of a line. -/
def EndsLine (cs : List Char) : Prop := cs = [] ∨ ∃ more, cs = '\n' :: more

/-- At the end of its line a comment is over. -/
private lemma skipComment_of_endsLine {cs : List Char} (h : EndsLine cs) (s : Span) :
    skipComment s cs = skipTrivia s cs := by
  rcases h with rfl | ⟨more, rfl⟩
  · rw [skipComment, skipTrivia]
  · rw [skipComment_newline, skipTrivia_blank Text.isBlank_newline]

/-! ## Gaps -/

/-- Blanks and comments in front of the rest of a text.  A comment starts with two slashes, and
lasts to the end of its line or to the end of the text. -/
inductive Gap (rest : List Char) : List Char → Prop
  | nil : Gap rest []
  | blank {c : Char} {cs : List Char} : isBlank c = true → Gap rest cs → Gap rest (c :: cs)
  | comment {body cs : List Char} : '\n' ∉ body → EndsLine (cs ++ rest) → Gap rest cs →
      Gap rest ('/' :: '/' :: (body ++ cs))

/-- A gap is skipped, and so is what can be skipped after it. -/
lemma Gap.skipTrivia {rest gap : List Char} (h : Gap rest gap) (s : Span) :
    skipTrivia s (gap ++ rest) = skipTrivia (s.advance gap) rest := by
  induction h generalizing s with
  | nil => rfl
  | blank hc _ ih => rw [List.cons_append, skipTrivia_blank hc, ih, Span.advance_cons]
  | @comment body cs hbody hends _ ih =>
    have happend : '/' :: '/' :: (body ++ cs) ++ rest = '/' :: '/' :: (body ++ (cs ++ rest)) := by
      simp
    rw [happend, skipTrivia_comment, skipComment_line hbody, skipComment_of_endsLine hends, ih]
    simp only [Span.advance_cons, Span.advance_append]

/-- What a comment starts is the rest of its line. -/
lemma exists_line (cs : List Char) :
    ∃ body more, cs = body ++ more ∧ '\n' ∉ body ∧ EndsLine more := by
  induction cs with
  | nil => exact ⟨[], [], rfl, by simp, .inl rfl⟩
  | cons c cs ih =>
    by_cases hc : c = '\n'
    · exact ⟨[], c :: cs, rfl, by simp, .inr ⟨cs, by rw [hc]⟩⟩
    · obtain ⟨body, more, rfl, hbody, hends⟩ := ih
      exact ⟨c :: body, more, rfl, by simp [Ne.symm hc, hbody], hends⟩

/-- Every text is a gap in front of something else.

**Proof sketch.** Induction on the length of the text.  A comment takes up its line, and a blank
itself; then the text is shorter. -/
private lemma exists_gap
    (cs : List Char) : ∃ gap rest, cs = gap ++ rest ∧ Gap rest gap ∧ Solid rest := by
  induction hlength : cs.length using Nat.strongRecOn generalizing cs with
  | ind n ih =>
    by_cases hcomment : ∃ ds, cs = '/' :: '/' :: ds
    · obtain ⟨ds, rfl⟩ := hcomment
      obtain ⟨body, more, rfl, hbody, hends⟩ := exists_line ds
      have hshorter : more.length < n := by
        simp only [← hlength, List.length_cons, List.length_append]
        omega
      obtain ⟨gap, rest, rfl, hgap, hsolid⟩ := ih more.length hshorter more rfl
      exact ⟨'/' :: '/' :: (body ++ gap), rest, by simp, .comment hbody hends hgap, hsolid⟩
    · by_cases hblank : ∃ c ds, cs = c :: ds ∧ isBlank c = true
      · obtain ⟨c, ds, rfl, hc⟩ := hblank
        have hshorter : ds.length < n := by simp [← hlength]
        obtain ⟨gap, rest, rfl, hgap, hsolid⟩ := ih ds.length hshorter ds rfl
        exact ⟨c :: gap, rest, rfl, .blank hc hgap, hsolid⟩
      · refine ⟨[], cs, rfl, .nil, fun c ds hcs => ?_, fun ds hcs => hcomment ⟨ds, hcs⟩⟩
        simpa using fun hc => hblank ⟨c, ds, hcs, hc⟩

/-- **Skipping passes over a gap, all of it**, and counts its characters. -/
theorem skipTrivia_eq_iff {s t : Span} {cs rest : List Char} :
    skipTrivia s cs = (t, rest) ↔
      ∃ gap, cs = gap ++ rest ∧ Gap rest gap ∧ Solid rest ∧ t = s.advance gap := by
  constructor
  · intro h
    obtain ⟨gap, rest', rfl, hgap, hsolid⟩ := exists_gap cs
    rw [hgap.skipTrivia, skipTrivia_of_solid hsolid] at h
    cases h
    exact ⟨gap, rfl, hgap, hsolid, rfl⟩
  · rintro ⟨gap, rfl, hgap, hsolid, rfl⟩
    rw [hgap.skipTrivia, skipTrivia_of_solid hsolid]

/-- A text is a gap and something else in one way only. -/
lemma Gap.unique {gap gap' rest rest' : List Char} (hgap : Gap rest gap) (hrest : Solid rest)
    (hgap' : Gap rest' gap') (hrest' : Solid rest') (h : gap ++ rest = gap' ++ rest') :
    gap = gap' ∧ rest = rest' := by
  have hskip := hgap.skipTrivia .start
  have hskip' := hgap'.skipTrivia .start
  rw [skipTrivia_of_solid hrest] at hskip
  rw [← h, hskip, skipTrivia_of_solid hrest'] at hskip'
  obtain rfl : rest = rest' := congrArg Prod.snd hskip'
  exact ⟨List.append_cancel_right h, rfl⟩

/-! ## Scanning -/

/-- Where nothing but a gap is left, there are no more tokens. -/
theorem scan_of_end {s t : Span} {cs : List Char} (h : skipTrivia s cs = (t, [])) :
    scan s cs = .ok [] := by
  rw [scan]
  split
  · rfl
  · next h' => rw [h] at h'; cases h'

/-- Where a rule applies after the gap, the token that it reads comes first. -/
theorem scan_of_match {s t : Span} {cs rest : List Char} {m : Match}
    (h : skipTrivia s cs = (t, m.lexeme ++ rest)) (hm : Match.first? (m.lexeme ++ rest) = some m) :
    scan s cs =
      (scan (t.advance m.lexeme) rest).map (⟨m.kind, String.ofList m.lexeme, t⟩ :: ·) := by
  rw [scan]
  split
  · next h' =>
    rw [h] at h'
    obtain ⟨-, hnil⟩ := Prod.mk.inj h'
    rw [hnil] at hm
    cases hm
  · next t' c more h' =>
    rw [h] at h'
    obtain ⟨rfl, hrest⟩ := Prod.mk.inj h'
    split
    · next hm' => rw [← hrest, hm] at hm'; cases hm'
    · next hm' =>
      rw [← hrest, hm] at hm'
      cases hm'
      have hdrop : (c :: more).drop m.lexeme.length = rest := by rw [← hrest, List.drop_left]
      simp only [hdrop]
      cases scan (t.advance m.lexeme) rest <;> rfl

/-- Where no rule applies after the gap, scanning ends there. -/
theorem scan_of_stuck {s t : Span} {cs rest : List Char} (h : skipTrivia s cs = (t, rest))
    (hrest : rest ≠ []) (hm : Match.first? rest = none) :
    scan s cs = .error ⟨t, String.ofList (rest.takeWhile fun c => !isBlank c)⟩ := by
  rw [scan]
  split
  · next h' =>
    rw [h] at h'
    cases h'
    exact absurd rfl hrest
  · next h' =>
    rw [h] at h'
    cases h'
    split
    · rfl
    · next hm' => rw [hm] at hm'; cases hm'

/-- **Induction on a script**, by what follows its first gap: nothing, a token with the rest of the
script, or something that no rule reads. -/
theorem scan_induction {P : Span → List Char → Prop}
    (hend : ∀ s t cs, skipTrivia s cs = (t, []) → P s cs)
    (hmatch : ∀ s t cs rest m, skipTrivia s cs = (t, m.lexeme ++ rest) →
      Match.first? (m.lexeme ++ rest) = some m → P (t.advance m.lexeme) rest → P s cs)
    (hstuck : ∀ s t cs rest, skipTrivia s cs = (t, rest) → rest ≠ [] → Match.first? rest = none →
      P s cs)
    (s : Span) (cs : List Char) : P s cs := by
  induction hlength : cs.length using Nat.strongRecOn generalizing s cs with
  | ind n ih =>
    cases hskip : skipTrivia s cs with
    | mk t rest =>
      cases hm : Match.first? rest with
      | none =>
        by_cases hrest : rest = []
        · exact hend s t cs (hrest ▸ hskip)
        · exact hstuck s t cs rest hskip hrest hm
      | some m =>
        have hlt := length_drop_lexeme_lt hskip hm
        obtain ⟨-, more, rfl⟩ := Match.first?_lexeme hm
        rw [List.drop_left] at hlt
        exact hmatch s t cs more m hskip hm (ih more.length (hlength ▸ hlt) _ more rfl)

/-- **Induction on a script that can be read**: it has no more tokens after its first gap, or a
token and then those of the rest of the script. -/
theorem scan_ok_induction {P : Span → List Char → List Token → Prop}
    (hend : ∀ s t cs, skipTrivia s cs = (t, []) → P s cs [])
    (hmatch : ∀ s t cs rest m tokens, skipTrivia s cs = (t, m.lexeme ++ rest) →
      Match.first? (m.lexeme ++ rest) = some m → P (t.advance m.lexeme) rest tokens →
        P s cs (⟨m.kind, String.ofList m.lexeme, t⟩ :: tokens))
    {s : Span} {cs : List Char} {tokens : List Token} (h : scan s cs = .ok tokens) :
    P s cs tokens := by
  revert tokens
  refine scan_induction (P := fun s cs => ∀ {tokens}, scan s cs = .ok tokens → P s cs tokens)
    ?_ ?_ ?_ s cs
  · intro s t cs hskip tokens h
    rw [scan_of_end hskip] at h
    cases h
    exact hend s t cs hskip
  · intro s t cs rest m hskip hm ih tokens h
    rw [scan_of_match hskip hm] at h
    cases hothers : scan (t.advance m.lexeme) rest with
    | error e =>
      rw [hothers] at h
      cases h
    | ok others =>
      rw [hothers] at h
      cases h
      exact hmatch s t cs rest m others hskip hm (ih hothers)
  · intro s t cs rest hskip hrest hm tokens h
    rw [scan_of_stuck hskip hrest hm] at h
    cases h

/-! ## Scanning with a bound -/

/-- Scanning for at most `count` tokens.  Since it counts down, it can be evaluated on a text. -/
def scanWithin : Nat → Span → List Char → Except LexError (List Token)
  | 0, _, _ => .ok []
  | count + 1, s, cs =>
    let (t, rest) := skipTrivia s cs
    match Match.first? rest with
    | some m =>
      (scanWithin count (t.advance m.lexeme) (rest.drop m.lexeme.length)).map
        (⟨m.kind, String.ofList m.lexeme, t⟩ :: ·)
    | none =>
      if rest.isEmpty then .ok []
      else .error ⟨t, String.ofList (rest.takeWhile fun c => !isBlank c)⟩

/-- **A text has no more tokens than characters**, so that counting down from their number reads
all. -/
private lemma scan_eq_scanWithin (s : Span) (cs : List Char) :
    ∀ {count : Nat}, cs.length ≤ count → scan s cs = scanWithin count s cs := by
  refine scan_induction (P := fun s cs => ∀ {count}, cs.length ≤ count →
    scan s cs = scanWithin count s cs) ?_ ?_ ?_ s cs
  · intro s t cs hskip count _
    rw [scan_of_end hskip]
    cases count with
    | zero => rfl
    | succ count =>
      rw [scanWithin, hskip]
      rfl
  · intro s t cs rest m hskip hm ih count hcount
    have hlt := length_drop_lexeme_lt hskip hm
    rw [List.drop_left] at hlt
    obtain ⟨count, rfl⟩ : ∃ n, count = n + 1 := ⟨count - 1, by omega⟩
    have hothers : scan (t.advance m.lexeme) rest = scanWithin count _ rest := ih (by omega)
    rw [scan_of_match hskip hm, hothers, scanWithin, hskip]
    simp only [hm, List.drop_left]
  · intro s t cs rest hskip hrest hm count hcount
    have hpos := List.length_pos_iff.2 hrest
    have hle := (skipTrivia_suffix s cs).length_le
    rw [hskip] at hle
    obtain ⟨count, rfl⟩ : ∃ n, count = n + 1 := ⟨count - 1, by simp only at hle; omega⟩
    rw [scan_of_stuck hskip hrest hm, scanWithin, hskip]
    simp [hm, hrest]

/-- The tokens of a script, found by counting down. -/
theorem tokenize_eq_scanWithin (source : String) :
    tokenize source = scanWithin source.toList.length .start source.toList :=
  scan_eq_scanWithin .start _ (Nat.le_refl _)

end Token

end Abacus
