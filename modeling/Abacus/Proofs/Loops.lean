import Mathlib.Tactic.Common
import Abacus.Proofs.Progress

/-!
# Reading ends

The grammar repeats some of its rules as long as they find something: statements up to the end of a
slice, entries after a comma, arms of a conditional, operators with their operands.  The rules bound
how often they do so by the number of tokens.  Here such a loop is described without a bound, round
after round, and it is shown that every loop comes to an end on every list of tokens, with what the
bounded rule gives.  What carries this is that a round which goes on has taken a token.

The two loops of precedence climbing call one another while they read.  One takes an operator in
every round, and the other one calls the first only where that does.  So both end, from whatever
precedence and operand they start.

The rules are also run one by one by a host, who holds a cursor.  Whichever rules it runs, and
whether they succeed or fail, the cursor only moves forward, within the slice, and as many levels of
nesting are open as before.

## Main definitions

* `Abacus.Parse.Round`, `Abacus.Parse.Loops` — a round of a loop, and loops without a bound.
* `Abacus.Parse.Climbs`, `Abacus.Parse.Absorbs` — the loops of precedence climbing without a bound.
* `Abacus.Parse.Ends` — all loops of the grammar end.
* `Abacus.Cursor.after`, `Abacus.Cursor.Moves` — the cursor after some rules, and how rules move it.

## Main results

* `Abacus.Parse.loops_of_bounded` — a loop whose rounds take tokens ends.
* `Abacus.Parse.climbs_absorbs_iff` — precedence climbing ends.
* `Abacus.Cursor.reading_ends` — rules that a host runs make progress, and all loops end.
-/

namespace Abacus

namespace Parse

open Grammar Reading

/-! ## Loops without a bound -/

section Loops

variable {σ α γ : Type}

/-- What one round of a loop comes to: an item, after which the loop goes on, or the end of the loop
with a last result. -/
inductive Round (α γ : Type) where
  | item (a : α)
  | done (last : γ)

/-- Goes on after a round: with further rounds after an item, which `join` puts in front of what
they find, or not at all. -/
def Round.goOn (join : α → γ → γ) (further : ParseOver σ γ) : Round α γ → ParseOver σ γ
  | .item a => return join a (← further)
  | .done last => return last

/-- A loop that reads, without a bound: round after round until one ends the loop or fails. -/
inductive Loops (round : ParseOver σ (Round α γ)) (join : α → γ → γ) (s : Slice) :
    σ → EStateM.Result ParseError σ γ → Prop
  | done {st ended : σ} {last : γ} :
      round s st = .ok (.done last) ended → Loops round join s st (.ok last ended)
  | failed {st ended : σ} {e : ParseError} :
      round s st = .error e ended → Loops round join s st (.error e ended)
  | item {st middle ended : σ} {a : α} {found : γ} :
      round s st = .ok (.item a) middle → Loops round join s middle (.ok found ended) →
        Loops round join s st (.ok (join a found) ended)
  | failedLater {st middle ended : σ} {a : α} {e : ParseError} :
      round s st = .ok (.item a) middle → Loops round join s middle (.error e ended) →
        Loops round join s st (.error e ended)

variable {round : ParseOver σ (Round α γ)} {join : α → γ → γ} {s : Slice}

/-- A loop comes to one result at most. -/
lemma Loops.unique {st : σ} {r r' : EStateM.Result ParseError σ γ} (h : Loops round join s st r)
    (h' : Loops round join s st r') : r = r' := by
  induction h generalizing r' with
  | done hround =>
    cases h' with
    | done hround' =>
      cases hround.symm.trans hround'
      rfl
    | _ hround' => cases hround.symm.trans hround'
  | failed hround =>
    cases h' with
    | failed hround' =>
      cases hround.symm.trans hround'
      rfl
    | _ hround' => cases hround.symm.trans hround'
  | item hround _ ih =>
    cases h' with
    | item hround' hmore =>
      cases hround.symm.trans hround'
      cases ih hmore
      rfl
    | failedLater hround' hmore =>
      cases hround.symm.trans hround'
      cases ih hmore
    | _ hround' => cases hround.symm.trans hround'
  | failedLater hround _ ih =>
    cases h' with
    | item hround' hmore =>
      cases hround.symm.trans hround'
      cases ih hmore
    | failedLater hround' hmore =>
      cases hround.symm.trans hround'
      exact ih hmore
    | _ hround' => cases hround.symm.trans hround'

/-- A loop comes to the result that it is known to come to, and to no other. -/
lemma Loops.iff_eq {st : σ} {r r' : EStateM.Result ParseError σ γ} (h : Loops round join s st r) :
    Loops round join s st r' ↔ r' = r := by
  constructor
  · exact fun h' => h'.unique h
  · intro heq
    rwa [heq]

/-- **A loop whose rounds take tokens ends**, with what the rule gives that is bounded by the number
of tokens or by more.

**Proof sketch.** Induction on the bound.  Where it is zero no tokens are left.  Otherwise a round
that goes on leaves fewer tokens, so that one round less is enough for them. -/
theorem loops_of_bounded [Reading σ] {loop : Nat → ParseOver σ γ}
    (hzero : ∀ st, left st = [] → Loops round join s st (loop 0 s st))
    (hsucc : ∀ count, loop (count + 1) = round >>= Round.goOn join (loop count))
    (htakes : ∀ {st ended a}, round s st = .ok (.item a) ended →
      (left ended).length < (left st).length) :
    ∀ (count : Nat) (st : σ), (left st).length ≤ count →
      Loops round join s st (loop count s st) := by
  intro count
  induction count with
  | zero =>
    intro st hcount
    exact hzero st (List.length_eq_zero_iff.1 (Nat.le_zero.1 hcount))
  | succ count ih =>
    intro st hcount
    rw [hsucc, bind_run]
    cases hround : round s st with
    | error e ended => exact .failed hround
    | ok result ended =>
      cases result with
      | done last => exact .done hround
      | item a =>
        have hless := htakes hround
        have hmore := ih ended (by omega)
        simp only [Round.goOn, bind_run]
        generalize loop count s ended = r at hmore
        cases r with
        | ok found last => exact .item hround hmore
        | error e last => exact .failedLater hround hmore

end Loops

/-! ## The loops of the grammar -/

section Rounds

variable {σ : Type} [Reading σ] {statement expression : ParseOver σ Node}
  {block : ParseOver σ Block}

/-- A round of reading statements up to the end of the slice. -/
def statementRound (statement : ParseOver σ Node) : ParseOver σ (Round Node Block) := do
  if ← atEnd then return .done []
  else return .item (← statement)

/-- A round of reading entries with commas before them. -/
def entryRound (expression : ParseOver σ Node) : ParseOver σ (Round Entry (List Entry)) := do
  if ← acceptMark .comma then
    match ← attempt (entry expression) with
    | .ok found => return .item found
    | .error e => if ← check (.mark .rightParen) then return .done [] else throw e
  else return .done []

/-- A round of reading further arms of a conditional. -/
def armRound (expression : ParseOver σ Node) (block : ParseOver σ Block) :
    ParseOver σ (Round (Branch Node) (List (Branch Node) × Option Block)) := do
  if ← acceptKeyword .else_ then
    if ← acceptKeyword .if_ then return .item (← branch expression block)
    else return .done ([], some (← block))
  else return .done ([], none)

/-- Statements are read round after round. -/
private lemma statements_succ (statement : ParseOver σ Node) (count : Nat) :
    statements statement (count + 1) =
      statementRound statement >>= Round.goOn List.cons (statements statement count) := by
  rw [statements, statementRound]
  simp only [bind_assoc]
  congr
  funext done
  split
  · rfl
  · simp [Round.goOn]

/-- Entries are read round after round. -/
private lemma entries_succ (expression : ParseOver σ Node) (count : Nat) :
    entries expression (count + 1) =
      entryRound expression >>= Round.goOn List.cons (entries expression count) := by
  rw [entries, entryRound]
  simp only [bind_assoc]
  congr
  funext comma
  split
  · simp only [bind_assoc]
    congr
    funext tried
    cases tried with
    | ok found => simp [Round.goOn]
    | error e =>
      simp only [bind_assoc]
      congr
      funext closed
      split <;> rfl
  · rfl

/-- Arms are read round after round. -/
private lemma elseArms_succ (expression : ParseOver σ Node) (block : ParseOver σ Block)
    (count : Nat) :
    elseArms expression block (count + 1) =
      armRound expression block >>=
        Round.goOn (fun arm found => (arm :: found.1, found.2))
          (elseArms expression block count) := by
  rw [elseArms, armRound]
  simp only [bind_assoc]
  congr
  funext otherwise
  split
  · simp only [bind_assoc]
    congr
    funext again
    split
    · simp [Round.goOn]
    · simp [Round.goOn]
  · rfl

/-- Where no tokens are left, accepting a kind finds nothing. -/
lemma accept_of_nil {kind : Kind} (hk : kind.Exact) {st : σ} (h : left st = [])
    (s : Slice) : accept kind s st = .ok false st :=
  accept_of_not_leads hk (not_leads_of_eq_nil h kind) s

/-- **Statements are read up to the end of the slice.** -/
private lemma loops_statements (h : Takes statement) (s : Slice) (st : σ) :
    Loops (statementRound statement) List.cons s st
      (statements statement (left st).length s st) := by
  refine loops_of_bounded (fun st hnil => .done ?_) (statements_succ statement) ?_ _ st
    (Nat.le_refl _)
  · rw [statementRound, bind_run, atEnd, hnil]
    rfl
  · intro st ended node hround
    obtain ⟨done, middle, hdone, hmore⟩ := bind_eq_ok_iff.1 hround
    cases hdone
    split at hmore
    · cases hmore
    · obtain ⟨first, last, hfirst, hlast⟩ := bind_eq_ok_iff.1 hmore
      cases hlast
      exact h hfirst

/-- **Entries are read as long as a comma comes** with an entry after it. -/
private lemma loops_entries (h : Takes expression) (s : Slice) (st : σ) :
    Loops (entryRound expression) List.cons s st
      (entries expression (left st).length s st) := by
  refine loops_of_bounded (fun st hnil => .done ?_) (entries_succ expression) ?_ _ st
    (Nat.le_refl _)
  · rw [entryRound, bind_run, acceptMark, accept_of_nil (Kind.exact_mark _) hnil]
    rfl
  · intro st ended found hround
    obtain ⟨comma, middle, hcomma, hmore⟩ := bind_eq_ok_iff.1 hround
    have hle := accept_shrinks _ hcomma
    split at hmore
    · obtain ⟨tried, last, htried, hlast⟩ := bind_eq_ok_iff.1 hmore
      rw [attempt] at htried
      split at htried
      · next hentry =>
        cases htried
        cases hlast
        exact Nat.lt_of_lt_of_le (entry_takes h hentry) hle
      · cases htried
        obtain ⟨closed, final, -, hfinal⟩ := bind_eq_ok_iff.1 hlast
        split at hfinal
        · cases hfinal
        · cases hfinal
    · cases hmore

/-- **Arms are read as long as their reserved words come.** -/
private lemma loops_elseArms (he : Takes expression) (hb : Takes block) (s : Slice) (st : σ) :
    Loops (armRound expression block) (fun arm found => (arm :: found.1, found.2)) s st
      (elseArms expression block (left st).length s st) := by
  refine loops_of_bounded (fun st hnil => .done ?_) (elseArms_succ expression block) ?_ _ st
    (Nat.le_refl _)
  · rw [armRound, bind_run, acceptKeyword, accept_of_nil (Kind.exact_keyword _) hnil]
    rfl
  · intro st ended arm hround
    obtain ⟨otherwise, middle, hotherwise, hmore⟩ := bind_eq_ok_iff.1 hround
    have hle := accept_shrinks _ hotherwise
    split at hmore
    · obtain ⟨again, last, hagain, hlast⟩ := bind_eq_ok_iff.1 hmore
      have hle' := accept_shrinks _ hagain
      split at hlast
      · obtain ⟨found, final, hfound, hfinal⟩ := bind_eq_ok_iff.1 hlast
        cases hfinal
        have hlt := branch_takes he hb hfound
        omega
      · obtain ⟨body, final, -, hfinal⟩ := bind_eq_ok_iff.1 hlast
        cases hfinal
    · cases hmore

end Rounds

/-! ## Precedence climbing without a bound -/

section Climbs

variable {σ : Type} [Reading σ]

mutual

/-- Takes operators that bind tightly enough, each with the operand after it and what is absorbed
into that, and folds them onto a left operand, until no such operator comes or an operand fails. -/
inductive Climbs (operand : ParseOver σ Node) (s : Slice) :
    Nat → Node → σ → EStateM.Result ParseError σ Node → Prop
  | done {least : Nat} {first : Node} {st : σ} :
      (∀ op, Leads (.operator op) (left st).head? → op.precedence < least) →
        Climbs operand s least first st (.ok first st)
  | failed {least : Nat} {first : Node} {st failed : σ} {t : Token} {rest : List Token}
      {op : Operator} {e : ParseError} :
      left st = t :: rest → t.kind = .operator op → least ≤ op.precedence →
        operand s (leave st rest) = .error e failed →
        Climbs operand s least first st (.error e failed)
  | failedAbsorbing {least : Nat} {first right : Node} {st middle failed : σ} {t : Token}
      {rest : List Token} {op : Operator} {e : ParseError} :
      left st = t :: rest → t.kind = .operator op → least ≤ op.precedence →
        operand s (leave st rest) = .ok right middle →
        Absorbs operand s op.precedence right middle (.error e failed) →
          Climbs operand s least first st (.error e failed)
  | round {least : Nat} {first right whole : Node} {st middle later : σ} {t : Token}
      {rest : List Token} {op : Operator} {r : EStateM.Result ParseError σ Node} :
      left st = t :: rest → t.kind = .operator op → least ≤ op.precedence →
        operand s (leave st rest) = .ok right middle →
        Absorbs operand s op.precedence right middle (.ok whole later) →
        Climbs operand s least (.binary op first whole) later r → Climbs operand s least first st r

/-- Climbs from above the precedence of an operator, and so folds what binds tighter into its right
operand, until nothing that binds tighter comes or climbing fails. -/
inductive Absorbs (operand : ParseOver σ Node) (s : Slice) :
    Nat → Node → σ → EStateM.Result ParseError σ Node → Prop
  | done {precedence : Nat} {right : Node} {st : σ} :
      (∀ op, Leads (.operator op) (left st).head? → op.precedence ≤ precedence) →
        Absorbs operand s precedence right st (.ok right st)
  | failed {precedence : Nat} {right : Node} {st failed : σ} {op : Operator} {e : ParseError} :
      Leads (.operator op) (left st).head? → precedence < op.precedence →
        Climbs operand s (precedence + 1) right st (.error e failed) →
          Absorbs operand s precedence right st (.error e failed)
  | round {precedence : Nat} {right whole : Node} {st middle : σ} {op : Operator}
      {r : EStateM.Result ParseError σ Node} :
      Leads (.operator op) (left st).head? → precedence < op.precedence →
        Climbs operand s (precedence + 1) right st (.ok whole middle) →
        Absorbs operand s precedence whole middle r → Absorbs operand s precedence right st r

end

variable {operand : ParseOver σ Node} {s : Slice} {least precedence : Nat} {first : Node} {st : σ}
  {r : EStateM.Result ParseError σ Node}

/-- Where no operator comes that binds tightly enough, climbing is done. -/
lemma climbs_iff_of_not_leads
    (h : ∀ op, Leads (.operator op) (left st).head? → op.precedence < least) :
    Climbs operand s least first st r ↔ r = .ok first st := by
  have hnot : ∀ {t : Token} {rest : List Token} {op : Operator}, left st = t :: rest →
      t.kind = .operator op → ¬ least ≤ op.precedence := by
    intro t rest op hleft ht
    exact Nat.not_le.2 (h op (leads_of_eq_cons hleft ht))
  constructor
  · intro hclimbs
    cases hclimbs with
    | done => rfl
    | failed hleft ht hop => exact absurd hop (hnot hleft ht)
    | failedAbsorbing hleft ht hop => exact absurd hop (hnot hleft ht)
    | round hleft ht hop => exact absurd hop (hnot hleft ht)
  · rintro rfl
    exact .done h

/-- Where an operator comes that binds tightly enough, it is taken: its operand fails, or what is
absorbed into that fails, or climbing goes on. -/
lemma Climbs.of_left (h : Climbs operand s least first st r) {t : Token} {rest : List Token}
    {op : Operator} (hleft : left st = t :: rest) (ht : t.kind = .operator op)
    (hop : least ≤ op.precedence) :
    (∃ e failed, operand s (leave st rest) = .error e failed ∧ r = .error e failed) ∨
      ∃ right middle, operand s (leave st rest) = .ok right middle ∧
        ((∃ e failed, Absorbs operand s op.precedence right middle (.error e failed) ∧
            r = .error e failed) ∨
          ∃ whole later, Absorbs operand s op.precedence right middle (.ok whole later) ∧
            Climbs operand s least (.binary op first whole) later r) := by
  -- the token that a round takes is the one that comes
  have hsame : ∀ {t' : Token} {rest' : List Token} {op' : Operator}, left st = t' :: rest' →
      t'.kind = .operator op' → rest' = rest ∧ op' = op := by
    intro t' rest' op' hleft' ht'
    cases hleft.symm.trans hleft'
    cases ht.symm.trans ht'
    exact ⟨rfl, rfl⟩
  cases h with
  | done hends => exact absurd hop (Nat.not_le.2 (hends op (leads_of_eq_cons hleft ht)))
  | failed hleft' ht' _ hfail =>
    obtain ⟨rfl, rfl⟩ := hsame hleft' ht'
    exact .inl ⟨_, _, hfail, rfl⟩
  | failedAbsorbing hleft' ht' _ hright habsorbs =>
    obtain ⟨rfl, rfl⟩ := hsame hleft' ht'
    exact .inr ⟨_, _, hright, .inl ⟨_, _, habsorbs, rfl⟩⟩
  | round hleft' ht' _ hright habsorbs hclimbs =>
    obtain ⟨rfl, rfl⟩ := hsame hleft' ht'
    exact .inr ⟨_, _, hright, .inr ⟨_, _, habsorbs, hclimbs⟩⟩

/-- Where nothing comes that binds tighter, absorbing is done. -/
lemma absorbs_iff_of_not_leads
    (h : ∀ op, Leads (.operator op) (left st).head? → op.precedence ≤ precedence) :
    Absorbs operand s precedence first st r ↔ r = .ok first st := by
  constructor
  · intro habsorbs
    cases habsorbs with
    | done => rfl
    | failed hlead hop => exact absurd hop (Nat.not_lt.2 (h _ hlead))
    | round hlead hop => exact absurd hop (Nat.not_lt.2 (h _ hlead))
  · rintro rfl
    exact .done h

/-- Where an operator comes that binds tighter, climbing with it fails, or absorbing goes on. -/
lemma Absorbs.of_leads (h : Absorbs operand s precedence first st r) {op : Operator}
    (hlead : Leads (.operator op) (left st).head?) (hop : precedence < op.precedence) :
    (∃ e failed, Climbs operand s (precedence + 1) first st (.error e failed) ∧
        r = .error e failed) ∨
      ∃ whole middle, Climbs operand s (precedence + 1) first st (.ok whole middle) ∧
        Absorbs operand s precedence whole middle r := by
  cases h with
  | done hends => exact absurd hop (Nat.not_lt.2 (hends op hlead))
  | failed _ _ hclimbs => exact .inl ⟨_, _, hclimbs, rfl⟩
  | round _ _ hclimbs habsorbs => exact .inr ⟨_, _, hclimbs, habsorbs⟩

/-- The loops of precedence climbing give no tokens back. -/
private lemma climb_absorb_shrinks (h : ∀ s, Pairs (alone s) 0 operand operand Any) (fuel : Nat) :
    (∀ least first, Shrinks (climb operand fuel least first)) ∧
      ∀ precedence right, Shrinks (absorb operand fuel precedence right) :=
  ⟨fun least first => .of_alone fun s => (climb_absorb_pairs (h s) fuel).1 least first,
    fun precedence right => .of_alone fun s => (climb_absorb_pairs (h s) fuel).2 precedence right⟩

/-- A round of climbing, if what is absorbed and the rounds after it are as the bounded rules say.
-/
private lemma climbs_iff_of_left {fuel : Nat} {t : Token} {rest : List Token} {op : Operator}
    (hleft : left st = t :: rest) (ht : t.kind = .operator op) (hop : least ≤ op.precedence)
    (habsorb : ∀ {right middle}, operand s (leave st rest) = .ok right middle → ∀ r,
      Absorbs operand s op.precedence right middle r ↔
        r = absorb operand fuel op.precedence right s middle)
    (hclimb : ∀ {right middle whole later}, operand s (leave st rest) = .ok right middle →
      absorb operand fuel op.precedence right s middle = .ok whole later → ∀ first r,
        Climbs operand s least first later r ↔ r = climb operand fuel least first s later) :
    Climbs operand s least first st r ↔ r = climb operand (fuel + 1) least first s st := by
  rw [climb_of_left hleft ht hop, bind_run]
  constructor
  · intro h
    rcases h.of_left hleft ht hop with ⟨e, failed, hfail, rfl⟩ | ⟨right, middle, hright, hmore⟩
    · rw [hfail]
    · rw [hright]
      dsimp only
      rw [bind_run]
      rcases hmore with ⟨e, failed, habsorbs, rfl⟩ | ⟨whole, later, habsorbs, hclimbs⟩
      · rw [← (habsorb hright _).1 habsorbs]
      · have hwhole := (habsorb hright _).1 habsorbs
        rw [← hwhole]
        exact (hclimb hright hwhole.symm _ r).1 hclimbs
  · rintro rfl
    cases hright : operand s (leave st rest) with
    | error e failed => exact .failed hleft ht hop hright
    | ok right middle =>
      dsimp only
      rw [bind_run]
      cases hwhole : absorb operand fuel op.precedence right s middle with
      | error e failed =>
        exact .failedAbsorbing hleft ht hop hright ((habsorb hright _).2 hwhole.symm)
      | ok whole later =>
        exact .round hleft ht hop hright ((habsorb hright _).2 hwhole.symm)
          ((hclimb hright hwhole _ _).2 rfl)

/-- A round of absorbing, if climbing and the rounds after it are as the bounded rules say. -/
private lemma absorbs_iff_of_leads {fuel : Nat} {op : Operator}
    (hlead : Leads (.operator op) (left st).head?) (hop : precedence < op.precedence)
    (hclimb : ∀ r, Climbs operand s (precedence + 1) first st r ↔
      r = climb operand fuel (precedence + 1) first s st)
    (habsorb : ∀ {whole middle}, climb operand fuel (precedence + 1) first s st = .ok whole middle →
      ∀ r, Absorbs operand s precedence whole middle r ↔
        r = absorb operand fuel precedence whole s middle) :
    Absorbs operand s precedence first st r ↔
      r = absorb operand (fuel + 1) precedence first s st := by
  rw [absorb_of_leads hlead hop, bind_run]
  constructor
  · intro h
    rcases h.of_leads hlead hop with ⟨e, failed, hclimbs, rfl⟩ | ⟨whole, middle, hclimbs, hmore⟩
    · rw [← (hclimb _).1 hclimbs]
    · have hwhole := (hclimb _).1 hclimbs
      rw [← hwhole]
      exact (habsorb hwhole.symm r).1 hmore
  · rintro rfl
    cases hwhole : climb operand fuel (precedence + 1) first s st with
    | error e failed => exact .failed hlead hop ((hclimb _).2 hwhole.symm)
    | ok whole middle =>
      exact .round hlead hop ((hclimb _).2 hwhole.symm) ((habsorb hwhole _).2 rfl)

/-- Climbing that takes an operator leaves fewer tokens. -/
private lemma climb_takes (h : ∀ s, Pairs (alone s) 0 operand operand Any) {fuel : Nat}
    {t : Token} {rest : List Token} {op : Operator}
    (hleft : left st = t :: rest) (ht : t.kind = .operator op) (hop : least ≤ op.precedence)
    {whole : Node} {ended : σ}
    (hread : climb operand (fuel + 1) least first s st = .ok whole ended) :
    (left ended).length < (left st).length := by
  rw [climb_of_left hleft ht hop] at hread
  obtain ⟨right, middle, hright, hmore⟩ := bind_eq_ok_iff.1 hread
  obtain ⟨absorbed, later, habsorbed, hrest⟩ := bind_eq_ok_iff.1 hmore
  have h₁ := Shrinks.of_alone h hright
  have h₂ := (climb_absorb_shrinks h fuel).2 _ _ habsorbed
  have h₃ := (climb_absorb_shrinks h fuel).1 _ _ hrest
  rw [left_leave] at h₁
  rw [hleft, List.length_cons]
  omega

/-- **The two loops of precedence climbing end**, with what is found by counting down.

**Proof sketch.** Induction on the count.  Climbing takes an operator and then absorbs and climbs
with the tokens after it.  Absorbing first climbs with the tokens at hand, but only where climbing
takes one of them, and then absorbs with fewer. -/
theorem climbs_absorbs_iff (h : ∀ s, Pairs (alone s) 0 operand operand Any) (fuel : Nat) :
    (∀ {st : σ}, 2 * (left st).length ≤ fuel + 1 → ∀ (least : Nat) (first : Node)
      (r : EStateM.Result ParseError σ Node),
        Climbs operand s least first st r ↔ r = climb operand fuel least first s st) ∧
    ∀ {st : σ}, 2 * (left st).length ≤ fuel → ∀ (precedence : Nat) (right : Node)
      (r : EStateM.Result ParseError σ Node),
        Absorbs operand s precedence right st r ↔
          r = absorb operand fuel precedence right s st := by
  induction fuel with
  | zero =>
    have hnone : ∀ {st : σ}, 2 * (left st).length ≤ 1 →
        ∀ op, ¬ Leads (.operator op) (left st).head? := by
      intro st hfuel op
      exact not_leads_of_eq_nil (List.length_eq_zero_iff.1 (by omega)) _
    constructor
    · intro st hfuel least first r
      have hends : ∀ op, Leads (.operator op) (left st).head? → op.precedence < least :=
        fun op hlead => absurd hlead (hnone hfuel op)
      rw [climbs_iff_of_not_leads hends, climb_of_not_leads hends]
    · intro st hfuel precedence right r
      have hends : ∀ op, Leads (.operator op) (left st).head? → op.precedence ≤ precedence :=
        fun op hlead => absurd hlead (hnone (by omega) op)
      rw [absorbs_iff_of_not_leads hends, absorb_of_not_leads hends]
  | succ fuel ih =>
    obtain ⟨ihclimb, ihabsorb⟩ := ih
    constructor
    · intro st hfuel least first r
      obtain ⟨t, rest, op, hleft, ht, hop⟩ | hends :=
        leads_operator_or_not (least ≤ ·.precedence) (left st)
      · rw [hleft, List.length_cons] at hfuel
        refine climbs_iff_of_left hleft ht hop ?_ ?_
        · intro right middle hright
          have h₁ := Shrinks.of_alone h hright
          rw [left_leave] at h₁
          exact ihabsorb (by omega) _ _
        · intro right middle whole later hright hwhole
          have h₁ := Shrinks.of_alone h hright
          have h₂ := (climb_absorb_shrinks h fuel).2 _ _ hwhole
          rw [left_leave] at h₁
          exact ihclimb (by omega) _
      · have hends' : ∀ op, Leads (.operator op) (left st).head? → op.precedence < least :=
          fun op hlead => Nat.lt_of_not_le (hends op hlead)
        rw [climbs_iff_of_not_leads hends', climb_of_not_leads hends']
    · intro st hfuel precedence right r
      obtain ⟨t, rest, op, hleft, ht, hop⟩ | hends :=
        leads_operator_or_not (precedence < ·.precedence) (left st)
      · refine absorbs_iff_of_leads (leads_of_eq_cons hleft ht) hop (ihclimb hfuel _ _)
          fun {whole middle} hwhole => ?_
        -- an operator is at hand, so the count for climbing is not used up
        obtain ⟨fuel, rfl⟩ : ∃ n, fuel = n + 1 := by
          rw [hleft, List.length_cons] at hfuel
          exact ⟨fuel - 1, by omega⟩
        have hless := climb_takes h hleft ht hop hwhole
        exact ihabsorb (by omega) _ _
      · have hends' : ∀ op, Leads (.operator op) (left st).head? → op.precedence ≤ precedence :=
          fun op hlead => Nat.le_of_not_lt (hends op hlead)
        rw [absorbs_iff_of_not_leads hends', absorb_of_not_leads hends']

end Climbs

/-! ## The loops of the parser -/

/-- All loops of the parser end at a place, each with what the rule gives that bounds it: the one
that reads a program, the two of precedence climbing, whatever they start from, the one that reads a
list, and the one that reads the arms of a conditional. -/
structure Ends (s : Slice) (p : Place) : Prop where
  program : ∀ r, Loops (statementRound (here statement)) List.cons s p r ↔ r = here program s p
  climb : ∀ least first r, Climbs (here value) s least first p r ↔
    r = Parse.climb (here value) (2 * p.rest.length) least first s p
  absorb : ∀ precedence right r, Absorbs (here value) s precedence right p r ↔
    r = Parse.absorb (here value) (2 * p.rest.length) precedence right s p
  list : ∀ r, Loops (entryRound (here expression)) List.cons s p r ↔
    r = entries (here expression) p.rest.length s p
  arms : ∀ r, Loops (armRound (here expression) (here block))
      (fun arm found => (arm :: found.1, found.2)) s p r ↔
    r = elseArms (here expression) (here block) p.rest.length s p

/-- **All loops of the parser end**, wherever they start. -/
lemma ends (s : Slice) (p : Place) : Ends s p where
  program := by
    intro r
    rw [here_program]
    exact (loops_statements statement_takes s p).iff_eq
  climb := (climbs_absorbs_iff here_value_alone _).1 (Nat.le_succ _)
  absorb := (climbs_absorbs_iff here_value_alone _).2 (Nat.le_refl _)
  list := fun _ => (loops_entries expression_takes s p).iff_eq
  arms := fun _ => (loops_elseArms expression_takes block_takes s p).iff_eq

end Parse

/-! ## Rules that a host runs -/

namespace Cursor

open Parse

/-- The cursor after some rules have been run, whether they have succeeded or failed. -/
def after (c : Cursor) : List Method → Cursor
  | [] => c
  | m :: methods => after (c.run m.rule).2 methods

/-- How a cursor has moved: within its slice, forward, with as many levels open as before. -/
structure Moves (c moved : Cursor) : Prop where
  slice_eq : moved.slice = c.slice
  depth_eq : moved.depth = c.depth
  rest_suffix : moved.rest <:+ c.rest

/-- A cursor that moves twice has moved. -/
lemma Moves.trans {c middle moved : Cursor} (h : c.Moves middle) (h' : middle.Moves moved) :
    c.Moves moved where
  slice_eq := h'.slice_eq.trans h.slice_eq
  depth_eq := h'.depth_eq.trans h.depth_eq
  rest_suffix := h'.rest_suffix.trans h.rest_suffix

/-- Running one rule moves the cursor. -/
lemma moves_run (c : Cursor) (m : Method) : c.Moves (c.run m.rule).2 := by
  have hmoves := m.moves c.slice c.toPlace
  unfold run
  generalize here m.rule c.slice c.toPlace = r at hmoves
  cases r with
  | ok _ ended => exact ⟨rfl, hmoves.depth_eq, hmoves.rest_suffix⟩
  | error _ ended => exact ⟨rfl, hmoves.depth_eq, hmoves.rest_suffix⟩

/-- Running rules one after the other moves the cursor. -/
private lemma moves_after (methods : List Method) (c : Cursor) : c.Moves (c.after methods) := by
  induction methods generalizing c with
  | nil => exact ⟨rfl, rfl, List.suffix_refl _⟩
  | cons m methods ih => exact (c.moves_run m).trans (ih _)

/-- Running a rule that takes tokens takes one of the cursor. -/
private lemma takes_run {α : Type} {rule : Nat → Parse α} (h : Takes (here rule)) (c : Cursor)
    {a : α} (hok : (c.run rule).1 = .ok a) : (c.run rule).2.rest.length < c.rest.length := by
  unfold run at hok ⊢
  cases hread : here rule c.slice c.toPlace with
  | ok a ended => exact h hread
  | error e ended =>
    rw [hread] at hok
    cases hok

/-- **Rules make progress, and reading ends.**  Let a host run any rules at a cursor, one after the
other, whether they succeed or fail, and then another one.  As many levels of nesting are open after
it as before and as at the start, in the same slice; the cursor has not moved back, nor past the end
of the slice; and if the rule was for an expression, a statement or a block and has succeeded, it
has taken a token at least.  So all loops of the parser end, wherever they start, on every list of
tokens. -/
theorem reading_ends (c : Cursor) (methods : List Method) (m : Method) :
    let before := c.after methods
    let ended := before.run m.rule
    c.Moves before ∧ before.Moves ended.2 ∧
      (m = .expression ∨ m = .statement ∨ m = .block → ended.1 = .ok () →
        ended.2.rest.length < before.rest.length) ∧
      ∀ (s : Slice) (p : Place), Ends s p := by
  intro before ended
  exact ⟨moves_after methods c, moves_run before m,
    fun hm => takes_run (Method.takes hm) before, ends⟩

end Cursor

end Abacus
