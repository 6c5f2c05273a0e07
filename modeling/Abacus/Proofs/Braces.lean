import Mathlib.Tactic.Common
import Abacus.Proofs.Brackets

/-!
# Matching braces

The end of a block is found by counting braces, without looking at what stands between them.  This
finds the right brace because in every category of the grammar brackets match: such tokens can be
skipped whole.

## Main definitions

* `Abacus.Parse.Matched` — tokens in which every opening brace is closed.
* `Abacus.Parse.Balanced` — tokens that the search for a closing brace passes over.

## Main results

* `Abacus.Parse.enclosed?_eq_some` — what the search for a closing brace finds.
* `Abacus.Parse.matched_body` — in the body of a block every opening brace is closed.
* `Abacus.Grammar.Bracketed.balanced` — tokens whose brackets match are passed over.
-/

namespace Abacus

namespace Parse

/-- What is enclosed, with more tokens in front of the body. -/
def Enclosed.prepend (tokens : List Token) (e : Enclosed) : Enclosed :=
  { e with body := tokens ++ e.body }

/-- Whether a kind is a brace. -/
def IsBrace : Kind → Prop
  | .mark .leftBrace | .mark .rightBrace => True
  | _ => False

/-! ## The search for a closing brace -/

/-- An opening brace goes one level deeper. -/
lemma enclosed?_leftBrace {t : Token} (ht : t.kind = .mark .leftBrace) (depth : Nat)
    (tokens : List Token) :
    enclosed? depth (t :: tokens) = (enclosed? (depth + 1) tokens).map (Enclosed.prepend [t]) := by
  obtain ⟨kind, lexeme, span⟩ := t
  cases ht
  rfl

/-- The closing brace of the outermost level ends what is enclosed. -/
lemma enclosed?_rightBrace_zero {t : Token} (ht : t.kind = .mark .rightBrace)
    (tokens : List Token) : enclosed? 0 (t :: tokens) = some ⟨[], t, tokens⟩ := by
  obtain ⟨kind, lexeme, span⟩ := t
  cases ht
  rfl

/-- Another closing brace goes back one level. -/
lemma enclosed?_rightBrace_succ {t : Token} (ht : t.kind = .mark .rightBrace) (depth : Nat)
    (tokens : List Token) :
    enclosed? (depth + 1) (t :: tokens) = (enclosed? depth tokens).map (Enclosed.prepend [t]) := by
  obtain ⟨kind, lexeme, span⟩ := t
  cases ht
  rfl

/-- All else belongs to what is enclosed, and the level stays. -/
lemma enclosed?_of_not_isBrace {t : Token} (ht : ¬ IsBrace t.kind) (depth : Nat)
    (tokens : List Token) :
    enclosed? depth (t :: tokens) = (enclosed? depth tokens).map (Enclosed.prepend [t]) := by
  obtain ⟨kind, lexeme, span⟩ := t
  cases kind with
  | mark m =>
    cases m with
    | leftBrace => exact absurd trivial ht
    | rightBrace => exact absurd trivial ht
    | _ => rfl
  | _ => rfl

/-- The search finds the closing brace at once, or else the first token joins the body and the
search goes on, one level deeper after an opening brace and one level up after a closing one. -/
lemma enclosed?_cons {t : Token} {tokens : List Token} {depth : Nat} {e : Enclosed}
    (h : enclosed? depth (t :: tokens) = some e) :
    (depth = 0 ∧ t.kind = .mark .rightBrace ∧ e = ⟨[], t, tokens⟩) ∨
      ∃ depth' e', enclosed? depth' tokens = some e' ∧ e = e'.prepend [t] ∧
        (t.kind = .mark .leftBrace ∧ depth' = depth + 1 ∨
          t.kind = .mark .rightBrace ∧ depth = depth' + 1 ∨
          ¬ IsBrace t.kind ∧ depth = depth') := by
  by_cases hl : t.kind = .mark .leftBrace
  · rw [enclosed?_leftBrace hl] at h
    obtain ⟨e', he', rfl⟩ := Option.map_eq_some_iff.1 h
    exact .inr ⟨_, e', he', rfl, .inl ⟨hl, rfl⟩⟩
  · by_cases hr : t.kind = .mark .rightBrace
    · cases depth with
      | zero =>
        rw [enclosed?_rightBrace_zero hr] at h
        cases h
        exact .inl ⟨rfl, hr, rfl⟩
      | succ depth =>
        rw [enclosed?_rightBrace_succ hr] at h
        obtain ⟨e', he', rfl⟩ := Option.map_eq_some_iff.1 h
        exact .inr ⟨_, e', he', rfl, .inr (.inl ⟨hr, rfl⟩)⟩
    · have hbrace : ¬ IsBrace t.kind := by
        intro hb
        unfold IsBrace at hb
        split at hb <;> contradiction
      rw [enclosed?_of_not_isBrace hbrace] at h
      obtain ⟨e', he', rfl⟩ := Option.map_eq_some_iff.1 h
      exact .inr ⟨_, e', he', rfl, .inr (.inr ⟨hbrace, rfl⟩)⟩

/-- What the search finds is the tokens in front of a closing brace, that brace, and the tokens
after it. -/
theorem enclosed?_eq_some {tokens : List Token} : ∀ {depth : Nat} {e : Enclosed},
    enclosed? depth tokens = some e →
      tokens = e.body ++ e.closing :: e.rest ∧ e.closing.kind = .mark .rightBrace := by
  induction tokens with
  | nil =>
    intro depth e h
    cases h
  | cons t tokens ih =>
    intro depth e h
    rcases enclosed?_cons h with ⟨-, hr, rfl⟩ | ⟨depth', e', he', rfl, -⟩
    · exact ⟨rfl, hr⟩
    · obtain ⟨htokens, hclosing⟩ := ih he'
      exact ⟨congrArg (t :: ·) htokens, hclosing⟩

/-! ## Bodies of blocks -/

/-- Tokens in which every opening brace is closed. -/
def Matched (tokens : List Token) : Prop :=
  ∀ ⦃l : Token⦄ ⦃rest : List Token⦄, l :: rest <:+ tokens → l.kind = .mark .leftBrace →
    ∃ e, enclosed? 0 rest = some e

/-- What is found on the way out of many blocks holds the ends of the inner ones. -/
private lemma exists_enclosed?_body {tokens : List Token} : ∀ {depth inner : Nat} {e : Enclosed},
    enclosed? depth tokens = some e → inner < depth → ∃ e', enclosed? inner e.body = some e' := by
  induction tokens with
  | nil =>
    intro depth inner e h
    cases h
  | cons t tokens ih =>
    intro depth inner e h hlt
    rcases enclosed?_cons h with
      ⟨rfl, -⟩ | ⟨depth', e', he', rfl, ⟨hl, rfl⟩ | ⟨hr, rfl⟩ | ⟨hb, rfl⟩⟩
    · omega
    · obtain ⟨found, hfound⟩ := ih he' (Nat.succ_lt_succ hlt)
      exact ⟨_, (enclosed?_leftBrace hl inner e'.body).trans (by rw [hfound]; rfl)⟩
    · cases inner with
      | zero => exact ⟨_, enclosed?_rightBrace_zero hr e'.body⟩
      | succ inner =>
        obtain ⟨found, hfound⟩ := ih he' (Nat.lt_of_succ_lt_succ hlt)
        exact ⟨_, (enclosed?_rightBrace_succ hr inner e'.body).trans (by rw [hfound]; rfl)⟩
    · obtain ⟨found, hfound⟩ := ih he' hlt
      exact ⟨_, (enclosed?_of_not_isBrace hb inner e'.body).trans (by rw [hfound]; rfl)⟩

/-- **In the body of a block every opening brace is closed.**

**Proof sketch.** Induction on the tokens that are searched.  After an opening brace the search goes
on one level deeper than before, so the body holds the end of the block that was opened. -/
theorem matched_body {tokens : List Token} : ∀ {depth : Nat} {e : Enclosed},
    enclosed? depth tokens = some e → Matched e.body := by
  induction tokens with
  | nil =>
    intro depth e h
    cases h
  | cons t tokens ih =>
    intro depth e h l rest hsuffix hl
    rcases enclosed?_cons h with ⟨-, -, rfl⟩ | ⟨depth', e', he', rfl, hstep⟩
    · cases List.suffix_nil.1 hsuffix
    · rcases List.suffix_cons_iff.1 hsuffix with heq | hlater
      · cases heq
        have hdeeper : depth' = depth + 1 := by
          rcases hstep with ⟨-, hdepth⟩ | ⟨hr, -⟩ | ⟨hb, -⟩
          · exact hdepth
          · rw [hl] at hr
            cases hr
          · exact absurd (by rw [hl]; trivial) hb
        exact exists_enclosed?_body he' (by omega)
      · exact ih he' hlater hl

/-! ## Balanced tokens -/

/-- Tokens that the search for a closing brace passes over: they become part of the body. -/
def Balanced (tokens : List Token) : Prop :=
  ∀ (depth : Nat) (rest : List Token),
    enclosed? depth (tokens ++ rest) = (enclosed? depth rest).map (Enclosed.prepend tokens)

/-- No tokens are balanced. -/
lemma Balanced.nil : Balanced [] := by
  intro depth rest
  rw [List.nil_append]
  cases enclosed? depth rest <;> rfl

/-- Balanced tokens one after the other are balanced. -/
lemma Balanced.append {tokens more : List Token} (h : Balanced tokens) (h' : Balanced more) :
    Balanced (tokens ++ more) := by
  intro depth rest
  rw [List.append_assoc, h, h', Option.map_map]
  congr 1
  funext e
  simp [Enclosed.prepend]

/-- A token that is no brace can stand in front of balanced tokens. -/
lemma Balanced.cons {t : Token} {tokens : List Token} (ht : ¬ IsBrace t.kind)
    (h : Balanced tokens) : Balanced (t :: tokens) := by
  have hone : Balanced [t] := fun depth rest => enclosed?_of_not_isBrace ht depth rest
  exact hone.append h

/-- Balanced tokens in braces are balanced. -/
lemma Balanced.braced {l r : Token} {tokens : List Token} (hl : l.kind = .mark .leftBrace)
    (h : Balanced tokens) (hr : r.kind = .mark .rightBrace) :
    Balanced (l :: (tokens ++ [r])) := by
  intro depth rest
  rw [List.cons_append, enclosed?_leftBrace hl, List.append_assoc, h, List.singleton_append,
    enclosed?_rightBrace_succ hr, Option.map_map, Option.map_map]
  congr 1
  funext e
  simp [Enclosed.prepend]

/-- From inside a block, the search finds its end behind balanced tokens. -/
lemma Balanced.enclosed? {tokens : List Token} (h : Balanced tokens) {r : Token}
    (hr : r.kind = .mark .rightBrace) (rest : List Token) :
    Parse.enclosed? 0 (tokens ++ r :: rest) = some ⟨tokens, r, rest⟩ := by
  rw [h, enclosed?_rightBrace_zero hr]
  simp [Enclosed.prepend]

end Parse

/-- **Tokens whose brackets match are passed over** by the search for a closing brace. -/
theorem Grammar.Bracketed.balanced {tokens : List Token} (h : Bracketed tokens) :
    Parse.Balanced tokens := by
  induction h with
  | nil => exact .nil
  | @plain t rest ht _ ih =>
    refine .cons (fun hbrace => ?_) ih
    unfold Parse.IsBrace at hbrace
    split at hbrace
    · next hkind => rw [hkind] at ht; exact ht
    · next hkind => rw [hkind] at ht; exact ht
    · exact hbrace
  | @enclosed l r inner rest hpair _ _ ihinner ihrest =>
    rcases hpair with ⟨hl, hr⟩ | ⟨hl, hr⟩
    · exact .cons (by rw [hl]; exact id) (ihinner.append (.cons (by rw [hr]; exact id) ihrest))
    · have hbody : l :: (inner ++ r :: rest) = l :: (inner ++ [r]) ++ rest := by simp
      rw [hbody]
      exact (ihinner.braced hl hr).append ihrest
  | params hk hn hl hr _ _ ihinner ihrest =>
    exact .cons (by rw [hk]; exact id) (.cons (by rw [hn]; exact id) (.cons (by rw [hl]; exact id)
      (ihinner.append (.cons (by rw [hr]; exact id) ihrest))))

end Abacus
