import Mathlib.Tactic.Common
import Abacus.Proofs.Braces
import Abacus.Proofs.Expressions

/-!
# Reading programs by the grammar

The rules for statements and blocks read what the grammar says, and all of it.  Together with the
rules for expressions this makes the reader accept exactly the programs of the grammar that are
nested no deeper than allowed, each with the grammar's tree.

## Main results

* `Abacus.Parse.program_contentsSound`, `Abacus.Parse.program_contentsComplete` — reading against
  the grammar.
* `Abacus.Node.parse_ok_iff_nesting_le` — the reader accepts the grammar up to the nesting limit.
* `Abacus.Node.parse_eventually_ok_iff` — the reader accepts exactly the grammar.
-/

namespace Abacus

open Grammar
open Token (nesting)
open Reading (left_list enter_list leave_list)

namespace Parse

/-! ## What is read is of the grammar -/

/-- A rule for the contents of a block reads all of them, and they are a program of the grammar that
opens at most `levels` levels. -/
def ContentsSound (contents : Plain Block) (levels : Nat) : Prop :=
  ∀ ⦃s : Slice⦄ ⦃tokens rest : List Token⦄ ⦃block : Block⦄, contents s tokens = .ok block rest →
    nesting tokens ≤ levels ∧ ∀ next, ¬ Opens next → Program tokens next block

/-- What a rule takes after a reserved word is, together with the word, of a category and opens at
most `levels` levels. -/
def SoundAfter (word : Keyword) (rule : Plain Node)
    (category : List Token → Option Token → Node → Prop) (levels : Nat) : Prop :=
  ∀ ⦃s : Slice⦄ ⦃k : Token⦄ ⦃tokens rest : List Token⦄ ⦃node : Node⦄,
    k.kind = .keyword word → rule s tokens = .ok node rest →
      ∃ taken, tokens = taken ++ rest ∧ Nested levels (k :: taken) ∧
        ∀ next, (Opens next → Opens rest.head?) → category (k :: taken) next node

/-- What opens a parenthesis still does so with more tokens behind it. -/
lemma opens_head?_append {body rest : List Token} (h : Opens body.head?) :
    Opens (body ++ rest).head? := by
  cases body with
  | nil => exact absurd h (not_leads_none _)
  | cons t body => exact h

/-- If what comes after some text opens no parenthesis, only the text itself can. -/
private lemma opens_head?_of_following {tokens : List Token} {next : Option Token}
    (hnext : ¬ Opens next)
    (h : Opens (following tokens next)) : Opens tokens.head? := by
  cases tokens with
  | nil => exact absurd h hnext
  | cons t tokens => exact h

/-- A block that is read is a block of the grammar. -/
private lemma braced_sound {contents : Plain Block} {levels : Nat}
    (h : ContentsSound contents levels) :
    Sound (braced contents) (fun tokens _ block => Braced tokens block) (levels + 1) := by
  intro s tokens rest block hread
  obtain ⟨u, middle, hopen, hbody⟩ := bind_eq_ok_iff.1 hread
  obtain ⟨l, hl, rfl⟩ := expectMark_eq_ok_iff.1 hopen
  rw [enclosed, left_list] at hbody
  cases hfound : enclosed? 0 middle with
  | none =>
    simp only [hfound] at hbody
    cases hbody
  | some e =>
    obtain ⟨body, closing, left⟩ := e
    obtain ⟨htokens, hclosing⟩ := enclosed?_eq_some hfound
    simp only [hfound, enter_list] at hbody
    split at hbody
    · next statements left' hcontents =>
      cases hbody
      have hnext : ¬ Opens (some closing) := by
        intro hopens
        rw [leads_some_iff.1 hopens] at hclosing
        cases hclosing
      obtain ⟨hdeep, hprogram⟩ := h hcontents
      have hbody := hprogram (some closing) hnext
      exact ⟨l :: (body ++ [closing]), by simp [htokens],
        .enclosed (.inr ⟨hl, hclosing⟩) hbody.bracketed (Nat.lt_succ_of_le hdeep),
        fun _ _ => .mk hl hbody hclosing⟩
    · cases hbody

section Statements

variable {expression : Plain Node} {block : Plain Block} {levels : Nat}

/-- A declaration that is read is one of the grammar. -/
private lemma declaration_sound (he : Sound expression Expression levels) :
    SoundAfter .ref (declaration expression) Statement levels := by
  intro s k tokens rest node hk h
  obtain ⟨id, middle, hid, h₁⟩ := bind_eq_ok_iff.1 h
  obtain ⟨u, middle', hequals, h₂⟩ := bind_eq_ok_iff.1 h₁
  obtain ⟨value, middle'', hvalue, h₃⟩ := bind_eq_ok_iff.1 h₂
  obtain ⟨rfl, rfl⟩ := pure_eq_ok_iff.1 h₃
  obtain ⟨n, hn, rfl⟩ := expectIdentifier_eq_ok_iff.1 hid
  obtain ⟨e, hequal, rfl⟩ := expectMark_eq_ok_iff.1 hequals
  obtain ⟨taken, rfl, hnested, hexpr⟩ := he hvalue
  refine ⟨n :: e :: taken, rfl, ?_, fun next hnext => .declare hk hn hequal (hexpr next hnext)⟩
  exact .plain (by rw [hk]; trivial) (.plain (by rw [hn]; trivial)
    (.plain (by rw [hequal]; trivial) hnested))

/-- A function definition that is read is one of the grammar. -/
private lemma definition_sound (he : Sound expression Expression levels)
    (hb : Sound block (fun tokens _ body => Braced tokens body) levels) :
    SoundAfter .fn (definition (commaList expression) block) Statement levels := by
  intro s k tokens rest node hk h
  obtain ⟨id, middle, hid, h₁⟩ := bind_eq_ok_iff.1 h
  obtain ⟨u, middle', hopen, h₂⟩ := bind_eq_ok_iff.1 h₁
  obtain ⟨found, middle'', hfound, h₃⟩ := bind_eq_ok_iff.1 h₂
  cases hparams : paramNames found with
  | error e =>
    simp only [hparams] at h₃
    cases h₃
  | ok params =>
    simp only [hparams] at h₃
    obtain ⟨u', left, hclose, h₄⟩ := bind_eq_ok_iff.1 h₃
    obtain ⟨body, left', hbody, h₅⟩ := bind_eq_ok_iff.1 h₄
    obtain ⟨rfl, rfl⟩ := pure_eq_ok_iff.1 h₅
    obtain ⟨n, hn, rfl⟩ := expectIdentifier_eq_ok_iff.1 hid
    obtain ⟨l, hl, rfl⟩ := expectMark_eq_ok_iff.1 hopen
    obtain ⟨taken, rfl, hnested, hlist⟩ := commaList_sound he hfound
    obtain ⟨r, hr, rfl⟩ := expectMark_eq_ok_iff.1 hclose
    obtain ⟨taken', rfl, hnested', hbraced⟩ := hb hbody
    have hnames : Listing taken (some r) (found.map (·.node)) := hlist (some r) fun h => h
    rw [paramNames_eq_ok hparams] at hnames
    refine ⟨n :: l :: (taken ++ r :: taken'), by simp, .params hk hn hl hr hnested hnested', ?_⟩
    exact fun next hnext => .define hk hn hl hnames hr (hbraced next hnext)

/-- A condition with its block that is read is an arm of the grammar. -/
lemma branch_sound (he : Sound expression Expression levels)
    (hb : Sound block (fun tokens _ body => Braced tokens body) levels) :
    Sound (branch expression block) (fun tokens _ arm => Arm tokens arm) levels := by
  intro s tokens rest arm h
  obtain ⟨condition, middle, hcondition, h₁⟩ := bind_eq_ok_iff.1 h
  obtain ⟨body, middle', hbody, h₂⟩ := bind_eq_ok_iff.1 h₁
  obtain ⟨rfl, rfl⟩ := pure_eq_ok_iff.1 h₂
  obtain ⟨taken, rfl, hnested, hexpr⟩ := he hcondition
  obtain ⟨taken', rfl, hnested', hbraced⟩ := hb hbody
  refine ⟨taken ++ taken', by simp, hnested.append hnested', fun next hnext => ?_⟩
  exact .mk (hexpr _ opens_head?_append) (hbraced next hnext)

/-- Further arms that are read are those of the grammar. -/
lemma elseArms_sound (he : Sound expression Expression levels)
    (hb : Sound block (fun tokens _ body => Braced tokens body) levels) : ∀ count,
    Sound (elseArms expression block count)
      (fun tokens _ found => ElseArms tokens found.1 found.2) levels
  | 0 => by
    intro s tokens rest found h
    obtain ⟨rfl, rfl⟩ := pure_eq_ok_iff.1 h
    exact ⟨[], rfl, .nil, fun _ _ => .nil⟩
  | count + 1 => by
    intro s tokens rest found h
    obtain ⟨more, middle, hmore, h₁⟩ := bind_eq_ok_iff.1 h
    rcases accept_eq_ok (Kind.exact_keyword _) hmore with ⟨rfl, e, helse, rfl⟩ | ⟨rfl, rfl, -⟩
    · have hplain : e.kind.IsPlain := by rw [helse]; trivial
      obtain ⟨again, middle', hagain, h₂⟩ := bind_eq_ok_iff.1 h₁
      rcases accept_eq_ok (Kind.exact_keyword _) hagain with ⟨rfl, i, hif, rfl⟩ | ⟨rfl, rfl, -⟩
      · obtain ⟨arm, left, harm, h₃⟩ := bind_eq_ok_iff.1 h₂
        obtain ⟨⟨arms, otherwise⟩, left', harms, h₄⟩ := bind_eq_ok_iff.1 h₃
        obtain ⟨rfl, rfl⟩ := pure_eq_ok_iff.1 h₄
        obtain ⟨taken, rfl, hnested, harm'⟩ := branch_sound he hb harm
        obtain ⟨taken', rfl, hnested', harms'⟩ := elseArms_sound he hb count harms
        refine ⟨e :: i :: (taken ++ taken'), by simp, ?_, fun next hnext => ?_⟩
        · exact .plain hplain (.plain (by rw [hif]; trivial) (hnested.append hnested'))
        · exact .cons helse hif (harm' (following taken' next) (opens_of_following hnext))
            (harms' next hnext)
      · obtain ⟨body, left, hbody, h₃⟩ := bind_eq_ok_iff.1 h₂
        obtain ⟨rfl, rfl⟩ := pure_eq_ok_iff.1 h₃
        obtain ⟨taken, rfl, hnested, hbraced⟩ := hb hbody
        exact ⟨e :: taken, rfl, .plain hplain hnested,
          fun next hnext => .otherwise helse (hbraced next hnext)⟩
    · obtain ⟨rfl, rfl⟩ := pure_eq_ok_iff.1 h₁
      exact ⟨[], rfl, .nil, fun _ _ => .nil⟩

/-- A conditional that is read is one of the grammar. -/
private lemma conditional_sound (he : Sound expression Expression levels)
    (hb : Sound block (fun tokens _ body => Braced tokens body) levels) :
    SoundAfter .if_ (conditional expression block) Statement levels := by
  intro s k tokens rest node hk h
  obtain ⟨first, middle, hfirst, h₁⟩ := bind_eq_ok_iff.1 h
  obtain ⟨left, middle', hleft, h₂⟩ := bind_eq_ok_iff.1 h₁
  obtain ⟨⟨arms, otherwise⟩, middle'', harms, h₃⟩ := bind_eq_ok_iff.1 h₂
  obtain ⟨rfl, rfl⟩ := pure_eq_ok_iff.1 h₃
  cases hleft
  obtain ⟨taken, rfl, hnested, hfirst'⟩ := branch_sound he hb hfirst
  obtain ⟨taken', rfl, hnested', harms'⟩ := elseArms_sound he hb _ harms
  refine ⟨taken ++ taken', by simp, .plain (by rw [hk]; trivial) (hnested.append hnested'), ?_⟩
  exact fun next hnext => .choose hk (hfirst' (following taken' next) (opens_of_following hnext))
    (harms' next hnext)

/-- A loop that is read is one of the grammar. -/
lemma loop_sound (he : Sound expression Expression levels)
    (hb : Sound block (fun tokens _ body => Braced tokens body) levels) {word : Keyword}
    (hword : word = .while_ ∨ word = .for_) :
    SoundAfter word (loop expression block) Statement levels := by
  intro s k tokens rest node hk h
  have hkind : k.kind = .keyword .while_ ∨ k.kind = .keyword .for_ := by
    rcases hword with rfl | rfl
    · exact .inl hk
    · exact .inr hk
  obtain ⟨condition, middle, hcondition, h₁⟩ := bind_eq_ok_iff.1 h
  obtain ⟨body, middle', hbody, h₂⟩ := bind_eq_ok_iff.1 h₁
  obtain ⟨rfl, rfl⟩ := pure_eq_ok_iff.1 h₂
  obtain ⟨taken, rfl, hnested, hexpr⟩ := he hcondition
  obtain ⟨taken', rfl, hnested', hbraced⟩ := hb hbody
  refine ⟨taken ++ taken', by simp, .plain ?_ (hnested.append hnested'), fun next hnext => ?_⟩
  · rcases hkind with hkind | hkind <;> rw [hkind] <;> trivial
  · exact .loop hkind (.mk (hexpr _ opens_head?_append) (hbraced next hnext))

/-- A rule that is chosen by a reserved word reads a category if it does so after that word, and
the other rule reads it where the word does not come. -/
lemma dispatch_sound {category : List Token → Option Token → Node → Prop} {word : Keyword}
    {rule other : Plain Node} (hrule : SoundAfter word rule category levels)
    (hother : Sound other category levels) :
    Sound (do if ← acceptKeyword word then rule else other) category levels := by
  intro s tokens rest node h
  obtain ⟨found, middle, hfound, hread⟩ := bind_eq_ok_iff.1 h
  rcases accept_eq_ok (Kind.exact_keyword _) hfound with ⟨rfl, k, hk, rfl⟩ | ⟨rfl, rfl, -⟩
  · obtain ⟨taken, rfl, hnested, hcategory⟩ := hrule hk hread
    exact ⟨k :: taken, rfl, hnested, hcategory⟩
  · exact hother hread

/-- A statement that is read is one of the grammar. -/
lemma statementWith_sound (he : Sound expression Expression levels)
    (hb : Sound block (fun tokens _ body => Braced tokens body) levels) :
    Sound (statementWith expression (commaList expression) block) Statement levels := by
  refine dispatch_sound (declaration_sound he) (dispatch_sound (definition_sound he hb)
    (dispatch_sound (conditional_sound he hb) (dispatch_sound (loop_sound he hb (.inl rfl))
    (dispatch_sound (loop_sound he hb (.inr rfl)) ?_))))
  intro s tokens rest node h
  obtain ⟨taken, htaken, hnested, hexpr⟩ := he h
  exact ⟨taken, htaken, hnested, fun next hnext => .expression (hexpr next hnext)⟩

end Statements

/-- Statements that are read one after the other, up to the end, are a program of the grammar. -/
lemma statements_sound {statement : Plain Node} {levels : Nat}
    (h : Sound statement Statement levels) :
    ∀ (count : Nat) {s : Slice} {tokens rest : List Token} {block : Block},
      tokens.length ≤ count → statements statement count s tokens = .ok block rest →
        nesting tokens ≤ levels ∧ ∀ next, ¬ Opens next → Program tokens next block
  | 0, s, tokens, rest, block, hcount, hread => by
    obtain ⟨rfl, rfl⟩ := pure_eq_ok_iff.1 hread
    rw [List.eq_nil_of_length_eq_zero (Nat.le_zero.1 hcount)]
    exact ⟨Nat.zero_le _, fun _ _ => .nil⟩
  | count + 1, s, tokens, rest, block, hcount, hread => by
    cases tokens with
    | nil =>
      cases hread
      exact ⟨Nat.zero_le _, fun _ _ => .nil⟩
    | cons t tokens =>
      rw [statements, bind_run] at hread
      obtain ⟨first, middle, hfirst, h₁⟩ := bind_eq_ok_iff.1 hread
      obtain ⟨others, middle', hothers, h₂⟩ := bind_eq_ok_iff.1 h₁
      obtain ⟨rfl, rfl⟩ := pure_eq_ok_iff.1 h₂
      obtain ⟨taken, htaken, hnested, hstatement⟩ := h hfirst
      have hlength : middle.length ≤ count := by
        obtain ⟨k, more, rfl, -⟩ := (hstatement _ id).head
        have := congrArg List.length htaken
        simp only [List.length_cons, List.length_append] at this hcount
        omega
      obtain ⟨hdeep, hrest⟩ := statements_sound h count hlength hothers
      rw [htaken, nesting_append hnested.bracketed]
      refine ⟨Nat.max_le.2 ⟨hnested.nesting_le, hdeep⟩, fun next hnext => ?_⟩
      exact .cons (hstatement _ fun hopens => opens_head?_of_following hnext hopens)
        (hrest next hnext)

/-- All statements of a slice that are read are a program of the grammar. -/
lemma allStatements_sound {statement : Plain Node} {levels : Nat}
    (h : Sound statement Statement levels) : ContentsSound (allStatements statement) levels :=
  fun _ tokens _ _ hread => statements_sound h tokens.length (Nat.le_refl _) hread

/-- What is read as a block is a block of the grammar, and nested no deeper than allowed. -/
lemma block_sound : ∀ levels,
    Sound (Plain.block levels) (fun tokens _ body => Braced tokens body) levels
  | 0 => fun _ _ _ _ h => absurd h failTooDeep_ne_ok
  | levels + 1 => braced_sound (allStatements_sound
      (statementWith_sound (expression_sound levels) (block_sound levels)))

/-- What is read as a statement is a statement of the grammar, and nested no deeper than allowed. -/
lemma statement_sound (levels : Nat) : Sound (Plain.statement levels) Statement levels :=
  statementWith_sound (expression_sound levels) (block_sound levels)

/-- **What is read as a program is a program of the grammar**, and nested no deeper than allowed. -/
theorem program_contentsSound (levels : Nat) : ContentsSound (Plain.program levels) levels :=
  allStatements_sound (statement_sound levels)

/-! ## All of the grammar is read -/

/-- A rule for the contents of a block reads every program of the grammar that opens at most
`levels` levels. -/
def ContentsComplete (contents : Plain Block) (levels : Nat) : Prop :=
  ∀ ⦃tokens : List Token⦄ ⦃next : Option Token⦄ ⦃block : Block⦄, Program tokens next block →
    nesting tokens ≤ levels → ∀ s : Slice, contents s tokens = .ok block []

/-- A block of the grammar is read. -/
private lemma braced_complete {contents : Plain Block} {levels : Nat}
    (h : ContentsComplete contents levels) :
    Complete (braced contents) (fun tokens _ block => Braced tokens block) (levels + 1)
      fun _ => True := by
  intro taken next block hbraced hdeep s rest _ _
  obtain @⟨l, r, tokens, _, hl, hprogram, hr⟩ := hbraced
  rw [nesting_enclosed (.inr ⟨hl, hr⟩) hprogram.bracketed, Nat.max_le] at hdeep
  refine bind_eq_ok_iff.2
    ⟨(), tokens ++ [r] ++ rest, expectMark_eq_ok_iff.2 ⟨l, hl, rfl⟩, ?_⟩
  rw [List.append_assoc, List.singleton_append, enclosed, left_list]
  simp only [hprogram.bracketed.balanced.enclosed? hr rest, enter_list, leave_list,
    h hprogram (Nat.le_of_succ_le_succ hdeep.1)]

section Statements

variable {expression : Plain Node} {block : Plain Block} {levels : Nat}

/-- A token that does not go on with a statement. -/
def EndsStatement (next : Option Token) : Prop :=
  EndsExpression next ∧ ¬ Leads (.keyword .else_) next

/-- A block starts with a brace, which ends the expression in front of it. -/
private lemma endsExpression_braced {tokens rest : List Token} {body : Block}
    (h : Braced tokens body) : EndsExpression (tokens ++ rest).head? := by
  obtain ⟨hl, -, -⟩ := h
  exact endsExpression_of_kind (by simp [hl])

/-- Whether a block opens a parenthesis at its start has nothing to do with what follows it. -/
private lemma opens_head?_braced {tokens rest : List Token} {body : Block} (h : Braced tokens body)
    (hopens : Opens (tokens ++ rest).head?) : Opens tokens.head? := by
  obtain ⟨-, -, -⟩ := h
  exact hopens

/-- An arm of the grammar is read. -/
lemma branch_complete (he : Complete expression Expression levels EndsExpression)
    (hb : Complete block (fun tokens _ body => Braced tokens body) levels fun _ => True) :
    Complete (branch expression block) (fun tokens _ arm => Arm tokens arm) levels
      fun _ => True := by
  intro taken next arm h hdeep s rest hnext _
  obtain @⟨tokens, body, condition, block', hcondition, hbody⟩ := h
  rw [nesting_append hcondition.bracketed, Nat.max_le] at hdeep
  rw [List.append_assoc]
  refine bind_eq_ok_iff.2 ⟨condition, body ++ rest, ?_, ?_⟩
  · exact he hcondition hdeep.1 s (body ++ rest) (opens_head?_braced hbody)
      (endsExpression_braced hbody)
  · exact bind_eq_ok_iff.2 ⟨block', rest, hb hbody hdeep.2 s rest hnext trivial, rfl⟩

/-- The further arms of the grammar are read, if there may be that many. -/
lemma elseArms_complete (he : Complete expression Expression levels EndsExpression)
    (hb : Complete block (fun tokens _ body => Braced tokens body) levels fun _ => True)
    {tokens : List Token} {arms : List (Branch Node)} {otherwise : Option Block} :
    ElseArms tokens arms otherwise → ∀ count, nesting tokens ≤ levels → tokens.length ≤ count →
      ∀ (s : Slice) (rest : List Token), ¬ Leads (.keyword .else_) rest.head? →
        elseArms expression block count s (tokens ++ rest) = .ok (arms, otherwise) rest
  | .nil, 0, _, _, s, rest, _ => rfl
  | .nil, count + 1, _, _, s, rest, helse =>
    bind_eq_ok_iff.2 ⟨false, rest, accept_of_not_leads (Kind.exact_keyword _) helse s, rfl⟩
  | .otherwise _ _, 0, _, hcount, _, _, _ => absurd hcount (by simp)
  | @ElseArms.otherwise e tokens body hkind hbody, count + 1, hdeep, _, s, rest, helse => by
    rw [nesting_plain (by rw [hkind]; trivial)] at hdeep
    have hif : ¬ Leads (.keyword .if_) (tokens ++ rest).head? := by
      obtain ⟨hl, -, -⟩ := hbody
      intro hlead
      rw [leads_some_iff.1 hlead] at hl
      cases hl
    refine bind_eq_ok_iff.2
      ⟨true, tokens ++ rest, accept_of_leads (Kind.exact_keyword _) hkind s _, ?_⟩
    refine bind_eq_ok_iff.2
      ⟨false, tokens ++ rest, accept_of_not_leads (Kind.exact_keyword _) hif s, ?_⟩
    refine bind_eq_ok_iff.2 ⟨body, rest, ?_, rfl⟩
    exact hb hbody hdeep s rest id trivial
  | .cons _ _ _ _, 0, _, hcount, _, _, _ => absurd hcount (by simp)
  | @ElseArms.cons e i tokens more arm arms otherwise hkind hif harm harms, count + 1, hdeep,
      hcount, s, rest, helse => by
    simp only [List.length_cons, List.length_append] at hcount
    rw [nesting_plain (by rw [hkind]; trivial), nesting_plain (by rw [hif]; trivial),
      nesting_append harm.bracketed, Nat.max_le] at hdeep
    refine bind_eq_ok_iff.2
      ⟨true, i :: (tokens ++ more) ++ rest, accept_of_leads (Kind.exact_keyword _) hkind s _, ?_⟩
    refine bind_eq_ok_iff.2
      ⟨true, tokens ++ more ++ rest, accept_of_leads (Kind.exact_keyword _) hif s _, ?_⟩
    rw [List.append_assoc, if_pos rfl]
    refine bind_eq_ok_iff.2 ⟨arm, more ++ rest, ?_, ?_⟩
    · exact branch_complete he hb harm hdeep.1 s (more ++ rest) id trivial
    · refine bind_eq_ok_iff.2 ⟨(arms, otherwise), rest, ?_, rfl⟩
      exact elseArms_complete he hb harms count hdeep.2 (by omega) s rest helse

/-- A declaration of the grammar is read after its reserved word. -/
private lemma declaration_complete (he : Complete expression Expression levels EndsExpression)
    {n e : Token} {tokens : List Token} {next : Option Token} {id : String} {value : Node}
    (hn : n.kind = .identifier id) (hequal : e.kind = .mark .equals)
    (hvalue : Expression tokens next value) (hdeep : nesting tokens ≤ levels) (s : Slice)
    {rest : List Token} (hnext : Opens rest.head? → Opens next)
    (hends : EndsExpression rest.head?) :
    declaration expression s (n :: e :: tokens ++ rest) = .ok (.declare id value) rest := by
  refine bind_eq_ok_iff.2
    ⟨id, e :: tokens ++ rest, expectIdentifier_eq_ok_iff.2 ⟨n, hn, rfl⟩, ?_⟩
  refine bind_eq_ok_iff.2 ⟨(), tokens ++ rest, expectMark_eq_ok_iff.2 ⟨e, hequal, rfl⟩, ?_⟩
  exact bind_eq_ok_iff.2 ⟨value, rest, he hvalue hdeep s rest hnext hends, rfl⟩

/-- A function definition of the grammar is read after its reserved word. -/
private lemma definition_complete (hsound : Sound expression Expression levels)
    (he : Complete expression Expression levels EndsExpression)
    (hb : Complete block (fun tokens _ body => Braced tokens body) levels fun _ => True)
    {n l r : Token} {tokens body : List Token} {id : String} {params : List String}
    {contents : Block} (hn : n.kind = .identifier id) (hl : l.kind = .mark .leftParen)
    (hlist : Listing tokens (some r) (params.map .name)) (hr : r.kind = .mark .rightParen)
    (hbody : Braced body contents) (hdeep : max (nesting tokens) (nesting body) ≤ levels)
    (s : Slice) (rest : List Token) :
    definition (commaList expression) block s (n :: l :: (tokens ++ r :: body) ++ rest) =
      .ok (.define ⟨id, params, contents⟩) rest := by
  rw [Nat.max_le] at hdeep
  obtain ⟨found, hfound, hnodes⟩ :=
    commaList_complete hsound he hr hlist hdeep.1 s (body ++ rest)
  refine bind_eq_ok_iff.2
    ⟨id, l :: (tokens ++ r :: body) ++ rest, expectIdentifier_eq_ok_iff.2 ⟨n, hn, rfl⟩, ?_⟩
  refine bind_eq_ok_iff.2
    ⟨(), tokens ++ r :: body ++ rest, expectMark_eq_ok_iff.2 ⟨l, hl, rfl⟩, ?_⟩
  rw [List.append_assoc, List.cons_append]
  refine bind_eq_ok_iff.2 ⟨found, r :: (body ++ rest), hfound, ?_⟩
  simp only [paramNames_of_map_eq hnodes]
  refine bind_eq_ok_iff.2 ⟨(), body ++ rest, expectMark_eq_ok_iff.2 ⟨r, hr, rfl⟩, ?_⟩
  exact bind_eq_ok_iff.2 ⟨contents, rest, hb hbody hdeep.2 s rest (fun h => h) trivial, rfl⟩

/-- A conditional of the grammar is read after its reserved word, as long as no further arm
follows. -/
private lemma conditional_complete (he : Complete expression Expression levels EndsExpression)
    (hb : Complete block (fun tokens _ body => Braced tokens body) levels fun _ => True)
    {first more : List Token} {arm : Branch Node} {arms : List (Branch Node)}
    {otherwise : Option Block} (harm : Arm first arm) (harms : ElseArms more arms otherwise)
    (hdeep : max (nesting first) (nesting more) ≤ levels) (s : Slice) {rest : List Token}
    (helse : ¬ Leads (.keyword .else_) rest.head?) :
    conditional expression block s (first ++ more ++ rest) =
      .ok (.choose (arm :: arms) otherwise) rest := by
  rw [Nat.max_le] at hdeep
  rw [List.append_assoc]
  refine bind_eq_ok_iff.2 ⟨arm, more ++ rest, ?_, ?_⟩
  · exact branch_complete he hb harm hdeep.1 s (more ++ rest) id trivial
  · refine bind_eq_ok_iff.2 ⟨more ++ rest, more ++ rest, rfl, ?_⟩
    refine bind_eq_ok_iff.2 ⟨(arms, otherwise), rest, ?_, rfl⟩
    exact elseArms_complete he hb harms _ hdeep.2 (by simp) s rest helse

/-- A loop of the grammar is read after its reserved word. -/
private lemma loop_complete (he : Complete expression Expression levels EndsExpression)
    (hb : Complete block (fun tokens _ body => Braced tokens body) levels fun _ => True)
    {tokens : List Token} {arm : Branch Node} (harm : Arm tokens arm)
    (hdeep : nesting tokens ≤ levels) (s : Slice) (rest : List Token) :
    loop expression block s (tokens ++ rest) = .ok (.loop [arm.condition] arm.body) rest := by
  have hbranch := branch_complete he hb harm hdeep s rest id trivial
  obtain ⟨condition, middle, hcondition, h₁⟩ := bind_eq_ok_iff.1 hbranch
  obtain ⟨body, left, hbody, h₂⟩ := bind_eq_ok_iff.1 h₁
  obtain ⟨rfl, rfl⟩ := pure_eq_ok_iff.1 h₂
  refine bind_eq_ok_iff.2 ⟨condition, middle, hcondition, ?_⟩
  exact bind_eq_ok_iff.2 ⟨body, left, hbody, rfl⟩

/-- A rule that is chosen by a reserved word is run after that word. -/
lemma dispatch_of_leads {word : Keyword} {rule other : Plain Node} {k : Token}
    (hk : k.kind = .keyword word) (s : Slice) (tokens : List Token) :
    (do if ← acceptKeyword word then rule else other : Plain Node) s (k :: tokens) =
      rule s tokens := by
  rw [bind_run, acceptKeyword, accept_of_leads (Kind.exact_keyword _) hk]
  rfl

/-- Where the reserved word does not come, the other rule is run. -/
lemma dispatch_of_not_leads {word : Keyword} {rule other : Plain Node} {tokens : List Token}
    (h : ¬ Leads (.keyword word) tokens.head?) (s : Slice) :
    (do if ← acceptKeyword word then rule else other : Plain Node) s tokens = other s tokens := by
  rw [bind_run, acceptKeyword, accept_of_not_leads (Kind.exact_keyword _) h]
  rfl

/-- Where another kind of token comes, the other rule is run. -/
lemma dispatch_of_kind_ne {word : Keyword} {rule other : Plain Node} {k : Token}
    (h : k.kind ≠ .keyword word) (s : Slice) (tokens : List Token) :
    (do if ← acceptKeyword word then rule else other : Plain Node) s (k :: tokens) =
      other s (k :: tokens) :=
  dispatch_of_not_leads (not_leads_of_ne h) s

/-- A statement of the grammar is read.

**Proof sketch.** The reserved words are tried in order, so for each form of statement the words
tried before its own do not match.  What follows the word is read by the rule of that form. -/
lemma statementWith_complete (hsound : Sound expression Expression levels)
    (he : Complete expression Expression levels EndsExpression)
    (hb : Complete block (fun tokens _ body => Braced tokens body) levels fun _ => True) :
    Complete (statementWith expression (commaList expression) block) Statement levels
      EndsStatement := by
  intro taken next node h hdeep s rest hnext hends
  cases h with
  | @declare k n e tokens _ id value hk hn hequal hvalue =>
    rw [nesting_plain (by rw [hk]; trivial), nesting_plain (by rw [hn]; trivial),
      nesting_plain (by rw [hequal]; trivial)] at hdeep
    rw [List.cons_append, statementWith, dispatch_of_leads hk]
    exact declaration_complete he hn hequal hvalue hdeep s hnext hends.1
  | @define k n l r tokens body _ id params block' hk hn hl hlist hr hbody =>
    rw [nesting_params hk hn hl hr hlist.bracketed] at hdeep
    rw [List.cons_append, statementWith, dispatch_of_kind_ne (by simp [hk]), dispatch_of_leads hk]
    exact definition_complete hsound he hb hn hl hlist hr hbody hdeep s rest
  | @choose k first more _ arm arms otherwise hk harm harms =>
    rw [nesting_plain (by rw [hk]; trivial), nesting_append harm.bracketed] at hdeep
    rw [List.cons_append, statementWith, dispatch_of_kind_ne (by simp [hk]),
      dispatch_of_kind_ne (by simp [hk]), dispatch_of_leads hk]
    exact conditional_complete he hb harm harms hdeep s hends.2
  | @loop k tokens _ arm hk harm =>
    have hplain : k.kind.IsPlain := by rcases hk with hk | hk <;> rw [hk] <;> trivial
    rw [nesting_plain hplain] at hdeep
    have hread := loop_complete he hb harm hdeep s rest
    rw [List.cons_append, statementWith]
    rcases hk with hk | hk
    · rw [dispatch_of_kind_ne (by simp [hk]), dispatch_of_kind_ne (by simp [hk]),
        dispatch_of_kind_ne (by simp [hk]), dispatch_of_leads hk, hread]
    · rw [dispatch_of_kind_ne (by simp [hk]), dispatch_of_kind_ne (by simp [hk]),
        dispatch_of_kind_ne (by simp [hk]), dispatch_of_kind_ne (by simp [hk]),
        dispatch_of_leads hk, hread]
  | expression hexpr =>
    have hread := he hexpr hdeep s rest hnext hends.1
    obtain ⟨t, more, rfl, ht⟩ := hexpr.head
    have hword : ∀ word, ¬ Leads (.keyword word) (t :: more ++ rest).head? := by
      intro word hlead
      rw [leads_some_iff.1 hlead] at ht
      exact ht
    rw [statementWith, dispatch_of_not_leads (hword _), dispatch_of_not_leads (hword _),
      dispatch_of_not_leads (hword _), dispatch_of_not_leads (hword _),
      dispatch_of_not_leads (hword _), hread]

end Statements

/-- The end of the tokens ends a statement. -/
private lemma endsStatement_none : EndsStatement none :=
  ⟨fun _ => not_leads_none _, not_leads_none _⟩

/-- The first token of a statement does not go on with the statement in front of it. -/
private lemma endsStatement_of_starts {t : Token} (h : StartsStatement t.kind) :
    EndsStatement (some t) := by
  refine ⟨fun op hlead => ?_, fun hlead => ?_⟩
  · rw [leads_some_iff.1 hlead] at h
    exact h
  · rw [leads_some_iff.1 hlead] at h
    exact h rfl

/-- All statements of a program of the grammar are read, if there may be that many. -/
lemma statements_complete {statement : Plain Node} {levels : Nat}
    (h : Complete statement Statement levels EndsStatement) {tokens : List Token}
    {next : Option Token} {block : Block} :
    Program tokens next block → ∀ count, nesting tokens ≤ levels → tokens.length ≤ count →
      ∀ s : Slice, statements statement count s tokens = .ok block []
  | .nil, 0, _, _, s => rfl
  | .nil, count + 1, _, _, s => rfl
  | @Program.cons first rest _ node nodes hfirst hrest, count, hdeep, hcount, s => by
    rw [nesting_append hfirst.bracketed, Nat.max_le] at hdeep
    have hends : EndsStatement rest.head? := by
      cases hrest with
      | nil => exact endsStatement_none
      | cons hnode _ =>
        obtain ⟨t, more, rfl, ht⟩ := hnode.head
        exact endsStatement_of_starts ht
    have hopens : Opens rest.head? → Opens (following rest next) := by
      cases rest with
      | nil => exact fun h => absurd h (not_leads_none _)
      | cons t rest => exact id
    have hread := h hfirst hdeep.1 s rest hopens hends
    obtain ⟨t, more, rfl, -⟩ := hfirst.head
    simp only [List.length_append, List.length_cons] at hcount
    obtain ⟨count, rfl⟩ : ∃ n, count = n + 1 := ⟨count - 1, by omega⟩
    rw [statements, bind_run]
    refine bind_eq_ok_iff.2 ⟨node, rest, hread, ?_⟩
    refine bind_eq_ok_iff.2 ⟨nodes, [], ?_, rfl⟩
    exact statements_complete h hrest count hdeep.2 (by omega) s

/-- All statements of a program of the grammar are read. -/
lemma allStatements_complete {statement : Plain Node} {levels : Nat}
    (h : Complete statement Statement levels EndsStatement) :
    ContentsComplete (allStatements statement) levels :=
  fun tokens _ _ hprogram hdeep s =>
    statements_complete h hprogram tokens.length hdeep (Nat.le_refl _) s

/-- Every block of the grammar is read that is nested no deeper than allowed. -/
lemma block_complete : ∀ levels,
    Complete (Plain.block levels) (fun tokens _ body => Braced tokens body) levels fun _ => True
  | 0 => by
    rintro taken next body ⟨hl, hprogram, hr⟩ hdeep
    rw [nesting_enclosed (.inr ⟨hl, hr⟩) hprogram.bracketed, Nat.max_le] at hdeep
    exact absurd hdeep.1 (Nat.not_succ_le_zero _)
  | levels + 1 => braced_complete (allStatements_complete (statementWith_complete
      (expression_sound levels) (expression_complete levels) (block_complete levels)))

/-- **Every program of the grammar is read** that is nested no deeper than allowed. -/
theorem program_contentsComplete (levels : Nat) : ContentsComplete (Plain.program levels) levels :=
  allStatements_complete (statementWith_complete (expression_sound levels)
    (expression_complete levels) (block_complete levels))

end Parse

namespace Node

/-- A program is what the plain reader reads. -/
private lemma parse_eq_ok_iff {limit : Nat} {tokens : List Token} {block : Block} :
    parse limit tokens = .ok block ↔
      ∃ rest, Plain.program limit (.ofTokens limit tokens) tokens = .ok block rest := by
  rw [parse_eq_plain]
  cases Plain.program limit (.ofTokens limit tokens) tokens with
  | ok found rest => simp
  | error e rest => simp

/-- Reading a program fails as the plain reader does. -/
lemma parse_eq_error_iff {limit : Nat} {tokens : List Token} {e : ParseError} :
    parse limit tokens = .error e ↔
      ∃ rest, Plain.program limit (.ofTokens limit tokens) tokens = .error e rest := by
  rw [parse_eq_plain]
  cases Plain.program limit (.ofTokens limit tokens) tokens with
  | ok found rest => simp
  | error e rest => simp

/-- **The nesting limit is a threshold.**  Some tokens are read as a block if and only if they spell
it and open no more levels at once than allowed. -/
theorem parse_ok_iff_nesting_le {limit : Nat} {tokens : List Token} {block : Block} :
    parse limit tokens = .ok block ↔
      Grammar.Program tokens none block ∧ nesting tokens ≤ limit := by
  rw [parse_eq_ok_iff]
  constructor
  · rintro ⟨rest, h⟩
    obtain ⟨hdeep, hprogram⟩ := Parse.program_contentsSound limit h
    exact ⟨hprogram none (not_leads_none _), hdeep⟩
  · rintro ⟨h, hdeep⟩
    exact ⟨[], Parse.program_contentsComplete limit h hdeep _⟩

/-- **The reader accepts exactly the grammar.**  Some tokens are read as a block, whenever nesting
may go deep enough, if and only if they spell that block.

**Proof sketch.** What is read within any limit is of the grammar.  Conversely, no more levels are
ever open than there are tokens, so as many levels as there are tokens are enough. -/
theorem parse_eventually_ok_iff (tokens : List Token) (block : Block) :
    (∃ enough, ∀ limit, enough ≤ limit → parse limit tokens = .ok block) ↔
      Grammar.Program tokens none block := by
  constructor
  · rintro ⟨enough, h⟩
    exact (parse_ok_iff_nesting_le.1 (h enough (Nat.le_refl _))).1
  · intro h
    refine ⟨tokens.length, fun limit hlimit => ?_⟩
    have hdeep := Nat.le_trans (Token.nesting_le_length tokens) hlimit
    exact parse_ok_iff_nesting_le.2 ⟨h, hdeep⟩

end Node

end Abacus
