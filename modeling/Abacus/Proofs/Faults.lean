import Mathlib.Tactic.Common
import Abacus.Proofs.Programs
import Abacus.Proofs.Snags

/-!
# Where reading a program fails

Reading a statement or a block fails in the ways in which reading an expression does, and in three
more.  A block may open a level too many; then as many levels are open as may be, and a block is
wanted, but whether its brace stands there has not been looked at.  The brace that closes a block
may be missing: the end of a block is looked for before its contents are read, so this is reported
whatever the contents are.  And the parameters of a function are read as expressions first: where
the list cannot be read, an entry before that place may be no name, and is not reported.

In all other cases what has been read so far can be completed to a program.

## Main definitions

* `Abacus.Grammar.ListingBegins` — tokens with which a list begins.
* `Abacus.Parse.Fault` — the ways to fail, with what holds in each.
* `Abacus.Parse.Faults`, `Abacus.Parse.FaultsAfter` — rules all of whose failures are such.
* `Abacus.Token.Viable` — tokens with which a program begins.

## Main results

* `Abacus.Parse.Fault.embed` — a failure in a part of the tokens.
* `Abacus.Parse.braced_faults` — blocks, from their contents.
* `Abacus.Parse.definition_faults` — functions, whose parameters are looked at late.
* `Abacus.Parse.program_faults`, `Abacus.Node.parse_faults` — all rules of the language.
-/

namespace Abacus

namespace Grammar

/-- A block without statements, to complete a text with. -/
abbrev emptyBlock : List Token := [Kind.token (.mark .leftBrace), Kind.token (.mark .rightBrace)]

/-- A brace and the one that closes it are a block without statements. -/
lemma braced_nil {l r : Token} (hl : l.kind = .mark .leftBrace)
    (hr : r.kind = .mark .rightBrace) : Braced [l, r] [] :=
  .mk hl .nil hr

/-- A block without statements is one of the grammar. -/
lemma braced_emptyBlock : Braced emptyBlock [] := braced_nil rfl rfl

/-- Tokens that can be completed to a list between parentheses, with the trees of its entries. -/
def ListingBegins (inner : List Token) (nodes : List Node) : Prop :=
  ∃ (whole : List Token) (r : Token), inner <+: whole ∧ r.kind = .mark .rightParen ∧
    Listing whole (some r) nodes

/-- No parameters are parameters. -/
lemma listingBegins_nil : ListingBegins [] (List.map .name []) :=
  ⟨[], closingParen, List.nil_prefix, rfl, .nil⟩

/-- Tokens with which a list of names begins can be completed to a function. -/
lemma ListingBegins.function {inner : List Token} {params : List String} {k n l : Token}
    {id : String} (h : ListingBegins inner (params.map .name)) (hk : k.kind = .keyword .fn)
    (hn : n.kind = .identifier id) (hl : l.kind = .mark .leftParen) :
    Begins Statement (some k) (k :: n :: l :: inner) := by
  obtain ⟨whole, r, hinner, hr, hlist⟩ := h
  have hprefix : n :: l :: inner <+: n :: l :: (whole ++ r :: emptyBlock) :=
    List.cons_prefix_cons.2 ⟨rfl, List.cons_prefix_cons.2
      ⟨rfl, hinner.trans (List.prefix_append whole _)⟩⟩
  exact .cons hprefix fun _ _ => .define hk hn hl hlist hr braced_emptyBlock

/-- An expression can be completed to one with a block after it. -/
lemma Begins.arm {first : Option Token} {read : List Token} (h : Begins Expression first read) :
    Begins (fun tokens _ arm => Arm tokens arm) first read := by
  obtain ⟨whole, node, hread, hne, hfirst, hexpression⟩ := h
  refine ⟨whole ++ emptyBlock, ⟨node, []⟩, hread.trans (List.prefix_append whole _),
    List.append_ne_nil_of_left_ne_nil hne _, fun hopens => hfirst ?_, fun _ _ => ?_⟩
  · cases whole with
    | nil => exact absurd rfl hne
    | cons t whole => exact hopens
  · exact .mk (hexpression _ (not_leads_of_ne nofun)) braced_emptyBlock

end Grammar

open Grammar

/-- Where some token comes next, it is that token that is seen. -/
lemma Slice.sight_of_head? (s : Slice) {tokens : List Token} {t : Token}
    (h : tokens.head? = some t) : s.sight tokens = ⟨some t.kind.describe, some t.span⟩ := by
  rw [sight, h]
  rfl

namespace Parse

/-! ## Ways to fail -/

/-- The ways in which reading statements fails, where what has been read is `viable` or has
`reached` the limit on levels: as reading an expression does; or a block is wanted that would open a
level too many; or the brace is missing that closes a block; or the parameters of a function cannot
be read, and what has been read of them are no names. -/
inductive Fault (viable reached : List Token → Prop) (s : Slice) : List Token → ParseError → Prop
  | snag {tokens : List Token} {e : ParseError} : Snag viable reached s tokens e →
      Fault viable reached s tokens e
  | block (read : List Token) {left : List Token} : reached read →
      (∀ l : Token, l.kind = .mark .leftBrace → viable (read ++ [l])) →
      Fault viable reached s (read ++ left) (.nestingTooDeep s.limit (s.sight left).span)
  | unclosed (read : List Token) {left : List Token} {l : Token} : l.kind = .mark .leftBrace →
      enclosed? 0 left = none → viable (read ++ [l]) →
      Fault viable reached s (read ++ l :: left)
        (.expected (.text Mark.rightBrace.quoted) ⟨none, s.last.map (·.span)⟩)
  | masked {what : Expectation} (read : List Token) {inner left : List Token} {k n l : Token}
      {id : String} :
      k.kind = .keyword .fn → n.kind = .identifier id → l.kind = .mark .leftParen →
      viable (read ++ [k, n, l]) → (∃ nodes, ListingBegins inner nodes) →
      (∀ params : List String, ¬ ListingBegins inner (params.map .name)) →
      Fault viable reached s (read ++ k :: n :: l :: (inner ++ left))
        (.expected what (s.sight left))

namespace Fault

variable {viable reached viable' reached' : List Token → Prop} {s s' : Slice}
  {front tokens back : List Token} {e : ParseError}

/-- Something is wanted, and what has been read is viable. -/
lemma wanted {what : Expectation} (read : List Token) {left : List Token} (h : viable read) :
    Fault viable reached s (read ++ left) (.expected what (s.sight left)) :=
  .snag (.wanted read h)

/-- **A failure in a part of the tokens** is one in all of them, if the tokens behind the part are
seen at its end, and no brace that is opened in the part is closed only behind it. -/
theorem embed (hsight : ∀ left, s'.sight left = s.sight (left ++ back))
    (hlimit : s'.limit = s.limit)
    (hopen : ∀ {l : Token} {left : List Token}, l :: left <:+ tokens → l.kind = .mark .leftBrace →
      enclosed? 0 left = none → s'.last = s.last ∧ enclosed? 0 (left ++ back) = none)
    (hviable : ∀ read, viable read → viable' (front ++ read))
    (hreached : ∀ read, reached read → reached' (front ++ read))
    (h : Fault viable reached s' tokens e) :
    Fault viable' reached' s (front ++ (tokens ++ back)) e := by
  cases h with
  | snag hsnag => exact .snag (hsnag.embed hsight hlimit hviable hreached)
  | @block read left hread hbrace =>
    have hsplit : front ++ (read ++ left ++ back) = front ++ read ++ (left ++ back) := by simp
    rw [hsplit, hlimit, hsight]
    refine .block _ (hreached read hread) fun l hl => ?_
    rw [List.append_assoc]
    exact hviable _ (hbrace l hl)
  | @unclosed read left l hl hnone hread =>
    have hsplit : front ++ (read ++ l :: left ++ back) = front ++ read ++ l :: (left ++ back) := by
      simp
    obtain ⟨hlast, hnone'⟩ := hopen (List.suffix_append read _) hl hnone
    rw [hsplit, hlast]
    refine .unclosed _ hl hnone' ?_
    rw [List.append_assoc]
    exact hviable _ hread
  | @masked what read inner left k n l id hk hn hl hread hlist hparams =>
    have hsplit : front ++ (read ++ k :: n :: l :: (inner ++ left) ++ back) =
        front ++ read ++ k :: n :: l :: (inner ++ (left ++ back)) := by simp
    rw [hsplit, hsight]
    refine .masked _ hk hn hl ?_ hlist hparams
    rw [List.append_assoc]
    exact hviable _ hread

/-- A failure after some tokens have been taken. -/
lemma after (front : List Token) (hviable : ∀ read, viable read → viable' (front ++ read))
    (hreached : ∀ read, reached read → reached' (front ++ read))
    (h : Fault viable reached s tokens e) : Fault viable' reached' s (front ++ tokens) e := by
  have hsight : ∀ left, s.sight left = s.sight (left ++ []) := fun left => by rw [List.append_nil]
  have hall := h.embed hsight rfl (fun {_ left} _ _ hnone => ⟨rfl, by rwa [List.append_nil]⟩)
    hviable hreached
  rwa [List.append_nil] at hall

/-- A failure in the body of a block: there, every brace that is opened is closed. -/
private lemma in_body (front : List Token) {found : Enclosed}
    (hfound : enclosed? 0 tokens = some found)
    (hviable : ∀ read, viable read → viable' (front ++ read))
    (hreached : ∀ read, reached read → reached' (front ++ read))
    (h : Fault viable reached ⟨s.limit, found.body.getLast?, some found.closing⟩ found.body e) :
    Fault viable' reached' s (front ++ tokens) e := by
  have hsight : ∀ left, Slice.sight ⟨s.limit, found.body.getLast?, some found.closing⟩ left =
      s.sight (left ++ found.closing :: found.rest) := by
    intro left
    cases left with
    | nil => rfl
    | cons t left => rfl
  rw [(enclosed?_eq_some hfound).1]
  refine h.embed hsight rfl (fun {l left} hsuffix hl hnone => ?_) hviable hreached
  obtain ⟨inner, hinner⟩ := matched_body hfound hsuffix hl
  rw [hnone] at hinner
  cases hinner

end Fault

/-- A rule fails in one of these ways: what it has read can be completed to a text of a category, or
`levels` levels are open. -/
def Faults {α β : Type} (rule : Plain α) (category : List Token → Option Token → β → Prop)
    (levels : Nat) : Prop :=
  ∀ ⦃s : Slice⦄ ⦃tokens : List Token⦄ ⦃e : ParseError⦄ ⦃rest : List Token⦄,
    rule s tokens = .error e rest → Fault (Begins category tokens.head?) (Opened levels) s tokens e

/-- After a reserved word, a rule fails in one of these ways, together with the word. -/
def FaultsAfter (word : Keyword) (rule : Plain Node)
    (category : List Token → Option Token → Node → Prop) (levels : Nat) : Prop :=
  ∀ ⦃s : Slice⦄ ⦃k : Token⦄ ⦃tokens : List Token⦄ ⦃e : ParseError⦄ ⦃rest : List Token⦄,
    k.kind = .keyword word → rule s tokens = .error e rest →
      Fault (Begins category (some k)) (Opened levels) s (k :: tokens) e

/-! ## Blocks -/

/-- A brace begins a block, whatever token is found in its place. -/
lemma begins_braced {l : Token} (hl : l.kind = .mark .leftBrace) (first : Option Token) :
    Begins (fun tokens _ block => Braced tokens block) first [l] := by
  refine ⟨[l, Kind.token (.mark .rightBrace)], [], List.cons_prefix_cons.2 ⟨rfl, List.nil_prefix⟩,
    List.cons_ne_nil _ _, fun hopens => ?_, fun _ _ => braced_nil hl rfl⟩
  exact absurd hopens (not_leads_of_ne (by simp [hl]))

/-- **A block** fails where no brace opens it, where none closes it, or as its contents do. -/
theorem braced_faults {contents : Plain Block} {levels : Nat}
    (h : Faults contents Program levels) :
    Faults (braced contents) (fun tokens _ block => Braced tokens block) (levels + 1) := by
  intro s tokens e rest hfail
  rcases bind_eq_error_iff.1 hfail with hopen | ⟨_, middle, hopen, hbody⟩
  · rw [expectMark_eq_error hopen]
    exact .wanted [] (.nil (t := Kind.token (.mark .leftBrace)) nofun
      (fun _ _ => braced_emptyBlock) _)
  · obtain ⟨l, hl, rfl⟩ := expectMark_eq_ok_iff.1 hopen
    rw [enclosed, Reading.left_list] at hbody
    cases hfound : enclosed? 0 middle with
    | none =>
      simp only [hfound] at hbody
      cases hbody
      exact .unclosed [] hl hfound (begins_braced hl _)
    | some found =>
      simp only [hfound, Reading.enter_list] at hbody
      split at hbody
      · cases hbody
      · next e' left hcontents =>
        cases hbody
        refine Fault.in_body [l] hfound (fun read hread => ?_) (fun read hread => ?_)
          (h hcontents)
        · obtain ⟨whole, block, hread, -, -, hprogram⟩ := hread
          have hprefix := hread.trans (List.prefix_append whole [Kind.token (.mark .rightBrace)])
          exact .cons hprefix fun _ _ => .mk hl (hprogram _ (not_leads_of_ne (by rintro ⟨⟩))) rfl
        · exact .enclosed (.inr ⟨hl, rfl⟩) hread

/-! ## Parameters -/

section Lists

variable {expression : Plain Node} {levels : Nat} (hsound : Sound expression Expression levels)

/-- An entry starts with the next token. -/
lemma entry_first {s : Slice} {tokens rest : List Token} {found : Entry}
    (h : entry expression s tokens = .ok found rest) : tokens.head? = some found.first := by
  cases tokens with
  | nil => cases h
  | cons t tokens =>
    rw [entry, bind_run] at h
    obtain ⟨node, middle, -, hend⟩ := bind_eq_ok_iff.1 h
    obtain ⟨rfl, -⟩ := pure_eq_ok_iff.1 hend
    rfl

include hsound

/-- Where an entry starts that has been read after the first one, any expression may stand. -/
lemma entries_until : ∀ count {s : Slice} {tokens rest : List Token} {before more : List Entry}
    {found : Entry}, entries expression count s tokens = .ok (before ++ found :: more) rest →
      ∃ (c : Token) (front left : List Token), tokens = c :: (front ++ left) ∧
        left.head? = some found.first ∧
        ∀ {whole : List Token} {next : Option Token} {node : Node}, Expression whole next node →
          MoreEntries (c :: (front ++ whole)) next (before.map (·.node) ++ [node])
  | 0, _, _, _, before, more, found, h => by
    obtain ⟨hnil, -⟩ := pure_eq_ok_iff.1 h
    exact absurd hnil.symm (List.append_ne_nil_of_right_ne_nil before (List.cons_ne_nil _ _))
  | count + 1, s, tokens, rest, before, more, found, h => by
    have hsome : before ++ found :: more ≠ [] :=
      List.append_ne_nil_of_right_ne_nil before (List.cons_ne_nil _ _)
    rcases entries_eq_ok h with ⟨c, after, left, first, others, rfl, hc, hfirst, hothers, hfound⟩ |
      ⟨_, _, _, hnil⟩ | ⟨_, hnil⟩
    · cases before with
      | nil =>
        obtain ⟨rfl, rfl⟩ := List.cons.inj hfound
        refine ⟨c, [], after, rfl, entry_first hfirst, fun {whole next node} hnode => ?_⟩
        have hone : MoreEntries (c :: (whole ++ [])) next [node] := .cons hc hnode .nil
        rwa [List.append_nil] at hone
      | cons b before =>
        obtain ⟨rfl, rfl⟩ := List.cons.inj hfound
        obtain ⟨taken, rfl, -, hexpression⟩ := entry_sound hsound hfirst
        obtain ⟨c', front, left, rfl, hleft, hmore⟩ := entries_until count hothers
        refine ⟨c, taken ++ c' :: front, left, by simp, hleft, fun {whole next node} hnode => ?_⟩
        rw [List.append_assoc, List.cons_append]
        exact .cons hc (hexpression (some c') id) (hmore hnode)
    · exact absurd hnil hsome
    · exact absurd hnil hsome

/-- Where an entry of a list starts that has been read, any expression may stand. -/
private lemma commaList_until {s : Slice} {tokens rest : List Token} {before more : List Entry}
    {found : Entry} (h : commaList expression s tokens = .ok (before ++ found :: more) rest) :
    ∃ front left, tokens = front ++ left ∧ left.head? = some found.first ∧
      ∀ {whole : List Token} {next : Option Token} {node : Node}, Expression whole next node →
        Listing (front ++ whole) next (before.map (·.node) ++ [node]) := by
  obtain ⟨closed, middle, hclosed, hrest⟩ := bind_eq_ok_iff.1 h
  rw [check_run] at hclosed
  cases hclosed
  split at hrest
  · exact absurd (pure_eq_ok_iff.1 hrest).1.symm
      (List.append_ne_nil_of_right_ne_nil before (List.cons_ne_nil _ _))
  · obtain ⟨first, middle, hfirst, h₁⟩ := bind_eq_ok_iff.1 hrest
    rw [bind_run] at h₁
    obtain ⟨others, middle', hothers, hdone⟩ := bind_eq_ok_iff.1 h₁
    obtain ⟨hfound, rfl⟩ := pure_eq_ok_iff.1 hdone
    cases before with
    | nil =>
      obtain ⟨rfl, rfl⟩ := List.cons.inj hfound
      exact ⟨[], tokens, rfl, entry_first hfirst, fun hnode => .entries (.last hnode)⟩
    | cons b before =>
      obtain ⟨rfl, rfl⟩ := List.cons.inj hfound
      obtain ⟨taken, rfl, -, hexpression⟩ := entry_sound hsound hfirst
      obtain ⟨c, front, left, rfl, hleft, hmore⟩ := entries_until hsound _ hothers
      refine ⟨taken ++ c :: front, left, by simp, hleft, fun {whole next node} hnode => ?_⟩
      rw [List.append_assoc, List.cons_append]
      exact .entries ((hmore hnode).entries (hexpression (some c) id))

/-- Where an entry of a list is no name, a name may stand instead, as before it. -/
private lemma paramNames_wanted {s : Slice} {tokens rest : List Token} {found : List Entry}
    {e : ParseError} (hlist : commaList expression s tokens = .ok found rest)
    (hnames : paramNames found = .error e) :
    ∃ (front left : List Token) (params : List String), tokens = front ++ left ∧
      e = .expected .identifier (s.sight left) ∧ ListingBegins front (params.map .name) := by
  obtain ⟨before, more, entry, params, rfl, hbefore, rfl⟩ := paramNames_eq_error hnames
  obtain ⟨front, left, rfl, hleft, hcomplete⟩ := commaList_until hsound hlist
  have hname : Expression [Kind.token (.identifier "")] (some closingParen) (.name "") :=
    .term (.value (.name rfl not_opens_closingParen))
  have hwhole : Listing (front ++ [Kind.token (.identifier "")]) (some closingParen)
      ((params ++ [""]).map .name) := by
    rw [List.map_append, ← hbefore]
    exact hcomplete hname
  refine ⟨front, left, params ++ [""], rfl, ?_, _, closingParen, List.prefix_append front _, rfl,
    hwhole⟩
  rw [s.sight_of_head? hleft]

end Lists

/-! ## Statements -/

section Statements

variable {expression : Plain Node} {block : Plain Block} {levels : Nat}
  (he : Sound expression Expression levels) (hse : Snags expression Expression levels)
  (hb : Sound block (fun tokens _ body => Braced tokens body) levels)
  (hfb : Faults block (fun tokens _ body => Braced tokens body) levels)

include hse

/-- A declaration fails at its name, at the equals sign, or in its value. -/
private lemma declaration_faults : FaultsAfter .ref (declaration expression) Statement levels := by
  intro s k tokens e rest hk hfail
  -- whatever has been read, zero may be declared
  have hdeclare : ∀ {n q : Token} {id : String}, n.kind = .identifier id → q.kind = .mark .equals →
      Begins Statement (some k) [k, n, q] :=
    fun hn hq => .cons (List.prefix_append [_, _] [Kind.token (.number 0)])
      fun _ _ => .declare hk hn hq (.term (.value (.number rfl)))
  rcases bind_eq_error_iff.1 hfail with hid | ⟨id, middle, hid, h₁⟩
  · rw [expectIdentifier_eq_error hid]
    have hall : Begins Statement (some k)
        [k, Kind.token (.identifier ""), Kind.token (.mark .equals)] :=
      hdeclare rfl rfl
    exact .wanted [k] (hall.of_prefix (List.prefix_append [k] _))
  obtain ⟨n, hn, rfl⟩ := expectIdentifier_eq_ok_iff.1 hid
  rcases bind_eq_error_iff.1 h₁ with hequals | ⟨_, middle', hequals, h₂⟩
  · rw [expectMark_eq_error hequals]
    have hall : Begins Statement (some k) [k, n, Kind.token (.mark .equals)] := hdeclare hn rfl
    exact .wanted [k, n] (hall.of_prefix (List.prefix_append [k, n] _))
  obtain ⟨q, hq, rfl⟩ := expectMark_eq_ok_iff.1 hequals
  have hfront : Bracketed [k, n, q] :=
    .plain (by rw [hk]; trivial) (.plain (by rw [hn]; trivial)
      (.plain (by rw [hq]; trivial) .nil))
  refine .snag ((hse (error_of_bind_pure h₂)).after [k, n, q] (fun read hread => ?_)
    fun read hread => hread.append hfront)
  exact hread.after fun whole value _ hwhole =>
    ⟨.declare id value, fun next hnext => .declare hk hn hq (hwhole next hnext)⟩

include he

/-- **Parameters** that cannot be read.  What has been read of them is either the start of a list of
names or not; in the second case an earlier entry is passed over. -/
private lemma params_faults {s : Slice} {k n l : Token} {id : String} {tokens rest : List Token}
    {e : ParseError} (hk : k.kind = .keyword .fn) (hn : n.kind = .identifier id)
    (hl : l.kind = .mark .leftParen) (hlist : commaList expression s tokens = .error e rest) :
    Fault (Begins Statement (some k)) (Opened levels) s (k :: n :: l :: tokens) e := by
  cases commaList_snags he hse hlist with
  | @wanted what inner left hread =>
    by_cases hnames : ∃ params : List String, ListingBegins inner (params.map .name)
    · obtain ⟨params, hnames⟩ := hnames
      exact .wanted (k :: n :: l :: inner) (hnames.function hk hn hl)
    · obtain ⟨whole, nodes, hread, -, -, hwhole⟩ := hread
      refine .masked [] hk hn hl (listingBegins_nil.function hk hn hl) ⟨nodes, ?_⟩
        (not_exists.1 hnames)
      exact ⟨whole, closingParen, hread, rfl, hwhole _ not_opens_closingParen⟩
  | @group inner left l' hl' hread =>
    exact .snag (.group (k :: n :: l :: inner) hl' (.params hk hn hl hread))
  | @call inner left t l' id' ht hl' hread =>
    exact .snag (.call (k :: n :: l :: inner) ht hl' (.params hk hn hl hread))

include hfb

/-- **Functions.**

**Proof sketch.** Up to its parameters a function can be completed by an empty list and a block
without statements.  An entry that is no name is reported where it starts, and those before it are
names.  After the parameters, the block fails as blocks do. -/
theorem definition_faults :
    FaultsAfter .fn (definition (commaList expression) block) Statement levels := by
  intro s k tokens e rest hk hfail
  rcases bind_eq_error_iff.1 hfail with hid | ⟨id, middle, hid, h₁⟩
  · rw [expectIdentifier_eq_error hid]
    have hall : Begins Statement (some k)
        [k, Kind.token (.identifier ""), Kind.token (.mark .leftParen)] :=
      listingBegins_nil.function hk rfl rfl
    exact .wanted [k] (hall.of_prefix (List.prefix_append [k] _))
  obtain ⟨n, hn, rfl⟩ := expectIdentifier_eq_ok_iff.1 hid
  rcases bind_eq_error_iff.1 h₁ with hopen | ⟨_, middle', hopen, h₂⟩
  · rw [expectMark_eq_error hopen]
    have hall : Begins Statement (some k) [k, n, Kind.token (.mark .leftParen)] :=
      listingBegins_nil.function hk hn rfl
    exact .wanted [k, n] (hall.of_prefix (List.prefix_append [k, n] _))
  obtain ⟨l, hl, rfl⟩ := expectMark_eq_ok_iff.1 hopen
  rcases bind_eq_error_iff.1 h₂ with hlist | ⟨found, middle'', hlist, h₃⟩
  · exact params_faults he hse hk hn hl hlist
  cases hnames : paramNames found with
  | error e' =>
    simp only [hnames] at h₃
    cases h₃
    obtain ⟨front, left, params, rfl, rfl, hfront⟩ := paramNames_wanted he hlist hnames
    exact .wanted (k :: n :: l :: front) (hfront.function hk hn hl)
  | ok params =>
    simp only [hnames] at h₃
    obtain ⟨taken, rfl, hnested, hwhole⟩ := commaList_sound he hlist
    simp only [paramNames_eq_ok hnames] at hwhole
    rcases bind_eq_error_iff.1 h₃ with hclose | ⟨_, left, hclose, h₄⟩
    · rw [expectMark_eq_error hclose]
      have htaken : ListingBegins taken (params.map .name) :=
        ⟨taken, closingParen, List.prefix_rfl, rfl,
          hwhole _ fun hopens => absurd hopens not_opens_closingParen⟩
      exact .wanted (k :: n :: l :: taken) (htaken.function hk hn hl)
    obtain ⟨r, hr, rfl⟩ := expectMark_eq_ok_iff.1 hclose
    have hfront : Bracketed (k :: n :: l :: (taken ++ [r])) :=
      .params hk hn hl hr hnested.bracketed .nil
    have hsplit : ∀ more,
        k :: n :: l :: (taken ++ [r]) ++ more = k :: n :: l :: (taken ++ r :: more) := by simp
    rw [← hsplit left]
    refine (hfb (error_of_bind_pure h₄)).after _ (fun read hread => ?_)
      fun read hread => hread.append hfront
    refine hread.after fun whole body _ hbraced => ⟨.define ⟨id, params, body⟩, ?_⟩
    intro next hnext
    rw [hsplit whole]
    exact .define hk hn hl (hwhole (some r) fun hopens => hopens) hr (hbraced next hnext)

/-- A condition with its block. -/
lemma branch_faults :
    Faults (branch expression block) (fun tokens _ arm => Arm tokens arm) levels := by
  intro s tokens e rest hfail
  rcases bind_eq_error_iff.1 hfail with hcondition | ⟨condition, middle, hcondition, hrest⟩
  · exact .snag ((hse hcondition).after [] (fun _ hread => hread.arm) fun _ hread => hread)
  obtain ⟨taken, rfl, hnested, hexpression⟩ := he hcondition
  refine (hfb (error_of_bind_pure hrest)).after taken (fun read hread => ?_)
    fun read hread => hread.append hnested.bracketed
  refine hread.after fun whole body hfollowing hbraced => ⟨⟨condition, body⟩, fun next hnext => ?_⟩
  refine .mk (hexpression _ fun hopens => hfollowing none ?_) (hbraced next hnext)
  rwa [following, Option.or_none]

include hb

/-- Further arms fail as arms do, and the last block as blocks do. -/
lemma elseArms_faults : ∀ count, Faults (elseArms expression block count)
    (fun tokens _ (found : List (Branch Node) × Option Block) =>
      ElseArms tokens found.1 found.2) levels
  | 0 => fun _ _ _ _ hfail => absurd hfail pure_ne_error
  | count + 1 => by
    intro s tokens e rest hfail
    rcases error_of_bind_accept (Kind.exact_keyword _) hfail with ⟨q, middle, hq, rfl, h₁⟩ | ⟨-, h₁⟩
    · have hplain : q.kind.IsPlain := by rw [hq]; trivial
      rcases error_of_bind_accept (Kind.exact_keyword _) h₁ with ⟨i, middle', hi, rfl, h₂⟩ | ⟨-, h₂⟩
      · have hplain' : i.kind.IsPlain := by rw [hi]; trivial
        rcases bind_eq_error_iff.1 h₂ with harm | ⟨arm, left, harm, h₃⟩
        · refine (branch_faults he hse hfb harm).after [q, i] (fun read hread => ?_)
            fun read hread => hread.append (.plain hplain (.plain hplain' .nil))
          refine hread.after fun whole arm _ hwhole => ⟨([arm], none), fun next hnext => ?_⟩
          have harms : ElseArms (q :: i :: (whole ++ [])) [arm] none :=
            .cons hq hi (hwhole next hnext) .nil
          rwa [List.append_nil] at harms
        · obtain ⟨taken, rfl, hnested, harm'⟩ := branch_sound he hb harm
          have hfront : Bracketed (q :: i :: taken) :=
            .plain hplain (.plain hplain' hnested.bracketed)
          refine (elseArms_faults count (error_of_bind_pure h₃)).after (q :: i :: taken)
            (fun read hread => ?_) fun read hread => hread.append hfront
          refine hread.after fun whole found hfollowing hwhole => ⟨(arm :: found.1, found.2), ?_⟩
          exact fun next hnext => .cons hq hi (harm' _ (hfollowing next)) (hwhole next hnext)
      · refine (hfb (error_of_bind_pure h₂)).after [q] (fun read hread => ?_)
          fun read hread => hread.append (.plain hplain .nil)
        exact hread.after fun whole body _ hwhole =>
          ⟨([], some body), fun next hnext => .otherwise hq (hwhole next hnext)⟩
    · exact absurd h₁ pure_ne_error

/-- A conditional fails as its arms do. -/
private lemma conditional_faults :
    FaultsAfter .if_ (conditional expression block) Statement levels := by
  intro s k tokens e rest hk hfail
  have hplain : k.kind.IsPlain := by rw [hk]; trivial
  rcases bind_eq_error_iff.1 hfail with harm | ⟨first, middle, harm, h₁⟩
  · refine (branch_faults he hse hfb harm).after [k] (fun read hread => ?_)
      fun read hread => hread.append (.plain hplain .nil)
    refine hread.after fun whole arm _ hwhole => ⟨.choose [arm] none, fun next hnext => ?_⟩
    have hchoose : Statement (k :: (whole ++ [])) next (.choose [arm] none) :=
      .choose hk (hwhole next hnext) .nil
    rwa [List.append_nil] at hchoose
  · obtain ⟨taken, rfl, hnested, harm'⟩ := branch_sound he hb harm
    rw [bind_run] at h₁
    refine (elseArms_faults he hse hb hfb _ (error_of_bind_pure h₁)).after (k :: taken)
      (fun read hread => ?_) fun read hread => hread.append (.plain hplain hnested.bracketed)
    refine hread.after fun whole found hfollowing hwhole =>
      ⟨.choose (first :: found.1) found.2, fun next hnext => ?_⟩
    exact .choose hk (harm' _ (hfollowing next)) (hwhole next hnext)

omit hb in
/-- A loop fails as a condition with its block does. -/
lemma loop_faults {word : Keyword} (hword : word = .while_ ∨ word = .for_) :
    FaultsAfter word (loop expression block) Statement levels := by
  intro s k tokens e rest hk hfail
  have hkind : k.kind = .keyword .while_ ∨ k.kind = .keyword .for_ := by
    rcases hword with rfl | rfl
    · exact .inl hk
    · exact .inr hk
  have hplain : k.kind.IsPlain := by rcases hkind with hkind | hkind <;> rw [hkind] <;> trivial
  have hbranch : branch expression block s tokens = .error e rest := by
    rcases bind_eq_error_iff.1 hfail with hcondition | ⟨condition, middle, hcondition, hrest⟩
    · exact bind_eq_error_iff.2 (.inl hcondition)
    · exact bind_eq_error_iff.2 (.inr ⟨condition, middle, hcondition,
        bind_eq_error_iff.2 (.inl (error_of_bind_pure hrest))⟩)
  refine (branch_faults he hse hfb hbranch).after [k] (fun read hread => ?_)
    fun read hread => hread.append (.plain hplain .nil)
  exact hread.after fun whole arm _ hwhole =>
    ⟨.loop [arm.condition] arm.body, fun next hnext => .loop hkind (hwhole next hnext)⟩

omit hse hfb he hb in
/-- A rule that is chosen by a reserved word. -/
lemma dispatch_faults {category : List Token → Option Token → Node → Prop} {word : Keyword}
    {rule other : Plain Node} (hrule : FaultsAfter word rule category levels)
    (hother : Faults other category levels) :
    Faults (do if ← acceptKeyword word then rule else other) category levels := by
  intro s tokens e rest hfail
  rcases error_of_bind_accept (Kind.exact_keyword _) hfail with
    ⟨k, more, hk, rfl, hrest⟩ | ⟨-, hrest⟩
  · exact hrule hk hrest
  · exact hother hrest

/-- **Statements**, from the rules for expressions and blocks. -/
lemma statementWith_faults :
    Faults (statementWith expression (commaList expression) block) Statement levels := by
  refine dispatch_faults (declaration_faults hse) (dispatch_faults (definition_faults he hse hfb)
    (dispatch_faults (conditional_faults he hse hb hfb)
    (dispatch_faults (loop_faults he hse hfb (.inl rfl))
    (dispatch_faults (loop_faults he hse hfb (.inr rfl)) ?_))))
  intro s tokens e rest hfail
  refine .snag ((hse hfail).after [] (fun read hread => ?_) fun _ hread => hread)
  exact hread.after fun whole node _ hwhole =>
    ⟨node, fun next hnext => .expression (hwhole next hnext)⟩

end Statements

/-! ## Programs -/

/-- Statements one after the other fail where one of them does. -/
lemma statements_faults {statement : Plain Node} {levels : Nat}
    (hsound : Sound statement Statement levels) (h : Faults statement Statement levels) :
    ∀ count, Faults (statements statement count) Program levels
  | 0 => fun _ _ _ _ hfail => absurd hfail pure_ne_error
  | count + 1 => by
    intro s tokens e rest hfail
    cases tokens with
    | nil => cases hfail
    | cons t tokens =>
      rw [statements, bind_run] at hfail
      rcases bind_eq_error_iff.1 hfail with hfirst | ⟨first, middle, hfirst, hrest⟩
      · refine (h hfirst).after [] (fun read hread => ?_) fun _ hread => hread
        refine hread.after fun whole node _ hwhole => ⟨[node], fun next hnext => ?_⟩
        have hone : Program (whole ++ []) next [node] := .cons (hwhole next hnext) .nil
        rwa [List.append_nil] at hone
      · obtain ⟨taken, htaken, hnested, hstatement⟩ := hsound hfirst
        rw [htaken]
        refine (statements_faults hsound h count (error_of_bind_pure hrest)).after taken
          (fun read hread => ?_) fun read hread => hread.append hnested.bracketed
        refine hread.after fun whole nodes hfollowing hwhole => ⟨first :: nodes, ?_⟩
        exact fun next hnext => .cons (hstatement _ (hfollowing next)) (hwhole next hnext)

/-- Blocks, within a number of levels. -/
lemma block_faults : ∀ levels,
    Faults (Plain.block levels) (fun tokens _ body => Braced tokens body) levels
  | 0 => by
    intro s tokens e rest hfail
    cases hfail
    exact .block [] .nil fun l hl => begins_braced hl _
  | levels + 1 => by
    have hstatement := statementWith_faults (expression_sound levels) (expression_snags levels)
      (block_sound levels) (block_faults levels)
    exact braced_faults fun _ tokens _ _ hfail =>
      statements_faults (statement_sound levels) hstatement tokens.length hfail

/-- **Programs**, within a number of levels. -/
theorem program_faults (levels : Nat) : Faults (Plain.program levels) Program levels :=
  fun _ tokens _ _ hfail => statements_faults (statement_sound levels)
    (statementWith_faults (expression_sound levels) (expression_snags levels) (block_sound levels)
      (block_faults levels)) tokens.length hfail

end Parse

/-- Tokens with which a program begins: they can be completed to tokens that are read, under some
limit on nesting. -/
def Token.Viable (read : List Token) : Prop :=
  ∃ (whole : List Token) (limit : Nat) (block : Block),
    read <+: whole ∧ Node.parse limit whole = .ok block

/-- What can be completed to a program of the grammar can be completed to tokens that are read. -/
lemma Grammar.Begins.viable {first : Option Token} {read : List Token}
    (h : Begins Program first read) : Token.Viable read := by
  obtain ⟨whole, block, hread, -, -, hprogram⟩ := h
  obtain ⟨limit, hlimit⟩ :=
    (Node.parse_eventually_ok_iff whole block).2 (hprogram none (not_leads_none _))
  exact ⟨whole, limit, block, hread, hlimit limit (Nat.le_refl _)⟩

namespace Node

/-- **Where reading all tokens fails.** -/
theorem parse_faults {limit : Nat} {tokens : List Token} {e : ParseError}
    (h : parse limit tokens = .error e) :
    Parse.Fault Token.Viable (fun read => Token.openLevels read = limit) (.ofTokens limit tokens)
      tokens e := by
  obtain ⟨rest, hprogram⟩ := parse_eq_error_iff.1 h
  exact (Parse.program_faults limit hprogram).after [] (fun _ hread => hread.viable)
    fun _ hread => hread.openLevels_eq

end Node

end Abacus
