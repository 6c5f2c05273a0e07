import Mathlib.Tactic.Common
import Abacus.Proofs.Expressions
import Abacus.Proofs.Kinds

/-!
# Where reading an expression fails

The rule for expressions fails in three ways.  Something is wanted where another token comes: then
what has been read so far can be completed to an expression.  Or a level too many would be opened,
by a parenthesis around an expression or by that of a call: then as many levels are open as may be.
In the first two cases the failure is reported where it arises.  The parenthesis of a call has been
taken before the levels are counted, so there the token after it is reported.

What can be completed and how many levels are open are two predicates of the tokens that have been
read.  A rule that is put together from others hands the failures of its parts on, with more tokens
in front.

## Main definitions

* `Abacus.Kind.openAfter`, `Abacus.Token.openLevels` — how many levels are open after a text.
* `Abacus.Grammar.Begins` — tokens that can be completed to a text of a category.
* `Abacus.Parse.Snag` — the ways to fail, with what holds in each.
* `Abacus.Parse.Snags` — a rule all of whose failures are such.

## Main results

* `Abacus.Grammar.Bracketed.openAfter_append` — tokens whose brackets match leave no level open.
* `Abacus.Parse.Snag.embed` — a failure in a part of the tokens.
* `Abacus.Parse.commaList_snags`, `Abacus.Parse.expression_snags` — lists and expressions.
-/

namespace Abacus

/-! ## Levels that are open -/

namespace Kind

/-- How many levels are open after a text.  Of the brackets that are open where the text starts,
innermost first, `brackets` tells whether they opened a level; `params` tells whether a parenthesis
is awaited that opens the parameters of a function, and no level. -/
def openAfter : Bool → List Bool → List Kind → Nat
  | _, brackets, [] => brackets.count true
  | params, brackets, kind :: kinds =>
    match kind with
    | mark .leftParen => openAfter false ((!params) :: brackets) kinds
    | mark .leftBrace => openAfter false (true :: brackets) kinds
    | mark .rightParen | mark .rightBrace => openAfter false brackets.tail kinds
    | keyword .fn => openAfter true brackets kinds
    | _ => openAfter params brackets kinds

variable {params : Bool} {brackets : List Bool} {kind l r : Kind} {kinds : List Kind}

/-- A kind that is no bracket and no `fn` leaves the open levels as they are. -/
lemma openAfter_plain (h : kind.IsPlain) :
    openAfter params brackets (kind :: kinds) = openAfter params brackets kinds := by
  cases kind with
  | mark m =>
    cases m with
    | leftParen | rightParen | leftBrace | rightBrace => exact h.elim
    | _ => rfl
  | keyword word =>
    cases word with
    | fn => exact h.elim
    | _ => rfl
  | _ => rfl

/-- A bracket that opens a level. -/
lemma openAfter_open (h : Encloses l r) :
    openAfter false brackets (l :: kinds) = openAfter false (true :: brackets) kinds := by
  rcases h with ⟨rfl, -⟩ | ⟨rfl, -⟩ <;> rfl

/-- A bracket that closes the innermost one. -/
lemma openAfter_close (h : Encloses l r) :
    openAfter params brackets (r :: kinds) = openAfter false brackets.tail kinds := by
  rcases h with ⟨-, rfl⟩ | ⟨-, rfl⟩ <;> rfl

end Kind

/-- How many levels are open after some tokens. -/
def Token.openLevels (tokens : List Token) : Nat :=
  Kind.openAfter false [] (tokens.map (·.kind))

namespace Grammar

open Kind (openAfter Encloses)

/-- **Tokens whose brackets match leave no level open.** -/
theorem Bracketed.openAfter_append {tokens : List Token} (h : Bracketed tokens) :
    ∀ (brackets : List Bool) (others : List Kind),
      openAfter false brackets (tokens.map (·.kind) ++ others) =
        openAfter false brackets others := by
  induction h with
  | nil => exact fun _ _ => rfl
  | plain ht _ ih =>
    intro brackets others
    rw [List.map_cons, List.cons_append, Kind.openAfter_plain ht, ih]
  | enclosed hpair _ _ ihinner ihrest =>
    intro brackets others
    simp only [List.map_cons, List.map_append, List.cons_append, List.append_assoc,
      Kind.openAfter_open hpair, ihinner, Kind.openAfter_close hpair, List.tail_cons, ihrest]
  | @params k n l r id inner rest hk hn hl hr _ _ ihinner ihrest =>
    intro brackets others
    have hopened : ∀ kinds, openAfter false brackets (k.kind :: n.kind :: l.kind :: kinds) =
        openAfter false (false :: brackets) kinds := by
      intro kinds
      rw [hk, hn, hl]
      rfl
    simp only [List.map_cons, List.map_append, List.cons_append, List.append_assoc, hopened,
      ihinner, Kind.openAfter_close (.inl ⟨hl, hr⟩), List.tail_cons, ihrest]

/-- Tokens after which `levels` levels more are open than before them. -/
def Opened (levels : Nat) (tokens : List Token) : Prop :=
  ∀ brackets : List Bool,
    openAfter false brackets (tokens.map (·.kind)) = brackets.count true + levels

namespace Opened

variable {levels : Nat} {front tokens : List Token}

/-- Without tokens no level is opened. -/
lemma nil : Opened 0 [] := fun _ => rfl

/-- Tokens whose brackets match may stand in front. -/
lemma append (hfront : Bracketed front) (h : Opened levels tokens) :
    Opened levels (front ++ tokens) := by
  intro brackets
  rw [List.map_append, hfront.openAfter_append, h brackets]

/-- A bracket that is not closed opens one level. -/
lemma enclosed {l : Token} {r : Kind} (hpair : Encloses l.kind r) (h : Opened levels tokens) :
    Opened (levels + 1) (l :: tokens) := by
  intro brackets
  rw [List.map_cons, Kind.openAfter_open hpair, h, List.count_cons_self]
  omega

/-- The parenthesis before the parameters of a function opens none. -/
lemma params {k n l : Token} {id : String} (hk : k.kind = .keyword .fn)
    (hn : n.kind = .identifier id) (hl : l.kind = .mark .leftParen) (h : Opened levels tokens) :
    Opened levels (k :: n :: l :: tokens) := by
  intro brackets
  have hparams := h (false :: brackets)
  rw [List.count_cons_of_ne (by decide)] at hparams
  rw [List.map_cons, List.map_cons, List.map_cons, hk, hn, hl]
  exact hparams

/-- How many levels are open after a whole text. -/
lemma openLevels_eq (h : Opened levels tokens) : Token.openLevels tokens = levels := by
  have hlevels := h []
  rwa [List.count_nil, Nat.zero_add] at hlevels

end Opened

/-! ## Tokens that can be completed -/

/-- A parenthesis to complete a text with. -/
abbrev closingParen : Token := Kind.token (.mark .rightParen)

/-- A closing parenthesis opens none. -/
lemma not_opens_closingParen : ¬ Opens (some closingParen) := not_leads_of_ne nofun

/-- Tokens that can be completed to a text of a category, whatever comes after it, as long as that
opens no parenthesis.  The text is not empty, and opens a parenthesis at its start only if the token
`first` does. -/
def Begins {α : Type} (category : List Token → Option Token → α → Prop) (first : Option Token)
    (read : List Token) : Prop :=
  ∃ whole a, read <+: whole ∧ whole ≠ [] ∧ (Opens whole.head? → Opens first) ∧
    ∀ next, ¬ Opens next → category whole next a

namespace Begins

variable {α β : Type} {category : List Token → Option Token → α → Prop}
  {category' : List Token → Option Token → β → Prop}

/-- Where nothing has been read, the text may start with any token that opens no parenthesis. -/
lemma nil {t : Token} (ht : t.kind ≠ .mark .leftParen) {more : List Token} {a : α}
    (h : ∀ next, ¬ Opens next → category (t :: more) next a) (first : Option Token) :
    Begins category first [] :=
  ⟨t :: more, a, List.nil_prefix, List.cons_ne_nil _ _,
    fun hopens => absurd hopens (not_leads_of_ne ht), h⟩

/-- Where a token has been read, it is the first of the text. -/
lemma cons {t : Token} {read more : List Token} {a : α} (hread : read <+: more)
    (h : ∀ next, ¬ Opens next → category (t :: more) next a) :
    Begins category (some t) (t :: read) :=
  ⟨t :: more, a, List.cons_prefix_cons.2 ⟨rfl, hread⟩, List.cons_ne_nil _ _, id, h⟩

/-- If tokens can be completed, so can fewer of them. -/
lemma of_prefix {first : Option Token} {read less : List Token} (h : Begins category first read)
    (hless : less <+: read) : Begins category first less := by
  obtain ⟨whole, a, hread, hwhole⟩ := h
  exact ⟨whole, a, hless.trans hread, hwhole⟩

/-- A text that can be completed may have tokens in front of it. -/
lemma after {front tokens read : List Token} (h : Begins category tokens.head? read)
    (hlift : ∀ whole a, (∀ next, Opens (following whole next) → Opens tokens.head?) →
      (∀ next, ¬ Opens next → category whole next a) →
        ∃ b, ∀ next, ¬ Opens next → category' (front ++ whole) next b) :
    Begins category' (front ++ tokens).head? (front ++ read) := by
  obtain ⟨whole, a, hread, hne, hfirst, hcategory⟩ := h
  have hfollowing : ∀ next, Opens (following whole next) → Opens tokens.head? := by
    intro next hopens
    cases whole with
    | nil => exact absurd rfl hne
    | cons t whole => exact hfirst hopens
  obtain ⟨b, hb⟩ := hlift whole a hfollowing hcategory
  refine ⟨front ++ whole, b, (List.prefix_append_right_inj front).2 hread, ?_, ?_, hb⟩
  · exact fun hnil => hne (List.append_eq_nil_iff.1 hnil).2
  · cases front with
    | nil => exact hfirst
    | cons t front => exact id

/-- Where nothing has been read, a number will do. -/
lemma value (first : Option Token) : Begins Value first [] :=
  .nil (t := Kind.token (.number 0)) nofun (fun _ _ => .number rfl) first

/-- What can be completed to a text of one category can be completed to one of a wider category. -/
lemma imp {wider : List Token → Option Token → α → Prop} {first : Option Token} {read : List Token}
    (h : Begins category first read)
    (hwider : ∀ {tokens : List Token} {next : Option Token} {a : α},
      category tokens next a → wider tokens next a) : Begins wider first read := by
  obtain ⟨whole, a, hread, hne, hfirst, hcategory⟩ := h
  exact ⟨whole, a, hread, hne, hfirst, fun next hnext => hwider (hcategory next hnext)⟩

/-- A value can be completed to an expression. -/
lemma expression {first : Option Token} {read : List Token} (h : Begins Value first read) :
    Begins Expression first read :=
  h.imp fun hvalue => .term (.value hvalue)

end Begins

end Grammar

open Grammar

namespace Parse

/-! ## Ways to fail -/

/-- The ways in which reading an expression fails, where what has been read is `viable` or has
`reached` the limit on levels: something is wanted where some tokens are `left`; or a parenthesis
around an expression would open a level too many; or that of a call would, and then the token after
it is reported. -/
inductive Snag (viable reached : List Token → Prop) (s : Slice) : List Token → ParseError → Prop
  | wanted {what : Expectation} (read : List Token) {left : List Token} : viable read →
      Snag viable reached s (read ++ left) (.expected what (s.sight left))
  | group (read : List Token) {left : List Token} {l : Token} : l.kind = .mark .leftParen →
      reached read →
      Snag viable reached s (read ++ l :: left) (.nestingTooDeep s.limit (some l.span))
  | call (read : List Token) {left : List Token} {t l : Token} {id : String} :
      t.kind = .identifier id → l.kind = .mark .leftParen → reached read →
      Snag viable reached s (read ++ t :: l :: left) (.nestingTooDeep s.limit (s.sight left).span)

namespace Snag

variable {viable reached viable' reached' : List Token → Prop} {s s' : Slice}
  {front tokens back : List Token} {e : ParseError}

/-- **A failure in a part of the tokens** is one in all of them, if the tokens behind the part are
seen at its end. -/
theorem embed (hsight : ∀ left, s'.sight left = s.sight (left ++ back))
    (hlimit : s'.limit = s.limit)
    (hviable : ∀ read, viable read → viable' (front ++ read))
    (hreached : ∀ read, reached read → reached' (front ++ read))
    (h : Snag viable reached s' tokens e) :
    Snag viable' reached' s (front ++ (tokens ++ back)) e := by
  cases h with
  | @wanted what read left hread =>
    have hsplit : front ++ (read ++ left ++ back) = front ++ read ++ (left ++ back) := by simp
    rw [hsplit, hsight]
    exact .wanted _ (hviable read hread)
  | @group read left l hl hread =>
    have hsplit : front ++ (read ++ l :: left ++ back) = front ++ read ++ l :: (left ++ back) := by
      simp
    rw [hsplit, hlimit]
    exact .group _ hl (hreached read hread)
  | @call read left t l id ht hl hread =>
    have hsplit : front ++ (read ++ t :: l :: left ++ back) =
        front ++ read ++ t :: l :: (left ++ back) := by simp
    rw [hsplit, hlimit, hsight]
    exact .call _ ht hl (hreached read hread)

/-- A failure after some tokens have been taken. -/
lemma after (front : List Token) (hviable : ∀ read, viable read → viable' (front ++ read))
    (hreached : ∀ read, reached read → reached' (front ++ read))
    (h : Snag viable reached s tokens e) : Snag viable' reached' s (front ++ tokens) e := by
  have hsight : ∀ left, s.sight left = s.sight (left ++ []) := fun left => by rw [List.append_nil]
  have hall := h.embed hsight rfl hviable hreached
  rwa [List.append_nil] at hall

end Snag

/-- A rule fails in one of these ways: what it has read can be completed to a text of a category, or
`levels` levels are open. -/
def Snags {α β : Type} (rule : Plain α) (category : List Token → Option Token → β → Prop)
    (levels : Nat) : Prop :=
  ∀ ⦃s : Slice⦄ ⦃tokens : List Token⦄ ⦃e : ParseError⦄ ⦃rest : List Token⦄,
    rule s tokens = .error e rest → Snag (Begins category tokens.head?) (Opened levels) s tokens e

/-! ## Chains -/

section Chains

variable {tier : List Operator} {item : Plain Node}
  {Item : List Token → Option Token → Node → Prop} {levels : Nat}
  (hsound : Sound item Item levels) (h : Snags item Item levels)

include hsound h

/-- Where the rest of a layer fails, the chain that has been read so far can be completed.

**Proof sketch.** Induction on the bound.  If the item after an operator fails, what has been read
of it can be completed to an item, and so the chain can be completed with it.  Otherwise the item
makes a longer chain. -/
private lemma foldLayer_snags (count : Nat) :
    ∀ {s : Slice} {front tokens rest : List Token} {first : Node} {e : ParseError},
      Bracketed front →
      (∀ next, (Opens next → Opens tokens.head?) → Chain tier Item front next first) →
      foldLayer tier item count first s tokens = .error e rest →
        Snag (Begins (Chain tier Item) (front ++ tokens).head?) (Opened levels) s
          (front ++ tokens) e := by
  induction count with
  | zero => exact fun _ _ hfail => absurd hfail pure_ne_error
  | succ count ih =>
    intro s front tokens rest first e hfront hchain hfail
    obtain ⟨t, more, op, rfl, ht, hop⟩ | hends := leads_tier_or_not tier tokens
    · have hplain : t.kind.IsPlain := by rw [ht]; trivial
      rw [foldLayer_of_left rfl ht hop] at hfail
      rcases bind_eq_error_iff.1 hfail with hitem | ⟨right, middle, hitem, hrest⟩
      · rw [List.append_cons]
        refine (h hitem).after (front ++ [t]) (fun read hread => ?_)
          fun read hread => hread.append (hfront.append (.plain hplain .nil))
        refine hread.after fun whole node _ hwhole => ⟨.binary op first node, ?_⟩
        intro next hnext
        rw [← List.append_cons]
        exact .link (hchain (some t) id) ht hop (hwhole next hnext)
      · obtain ⟨taken, htaken, hnested, hcategory⟩ := hsound hitem
        have hlonger : ∀ next, (Opens next → Opens middle.head?) →
            Chain tier Item (front ++ t :: taken) next (.binary op first right) :=
          fun next hnext => .link (hchain (some t) id) ht hop (hcategory next hnext)
        have hsnag := ih (hfront.append (.plain hplain hnested.bracketed)) hlonger hrest
        rw [Reading.leave_list] at htaken
        rwa [List.append_assoc, List.cons_append, ← htaken] at hsnag
    · rw [foldLayer_of_not_leads hends] at hfail
      cases hfail

/-- **One layer** fails in these ways. -/
lemma layer_snags : Snags (layer tier item) (Chain tier Item) levels := by
  intro s tokens e rest hfail
  rcases bind_eq_error_iff.1 hfail with hitem | ⟨first, middle, hitem, hrest⟩
  · exact (h hitem).after [] (fun _ hread => hread.imp .item) fun _ hread => hread
  · obtain ⟨taken, rfl, hnested, hcategory⟩ := hsound hitem
    exact foldLayer_snags hsound h _ hnested.bracketed
      (fun next hnext => .item (hcategory next hnext)) hrest

end Chains

/-- Both layers fail in these ways, and so does climbing. -/
lemma climbing_snags {operand : Plain Node} {levels : Nat} (hshrinks : Shrinks operand)
    (hsound : Sound operand Value levels) (h : Snags operand Value levels) :
    Snags (climbing operand) Expression levels := by
  have hterm : Snags (term operand) Term levels := fun _ _ _ _ hfail =>
    (layer_snags hsound h hfail).after [] (fun _ hread => hread.imp Chain.term) fun _ hread => hread
  rw [climbing_eq_layered hshrinks]
  exact fun _ _ _ _ hfail => (layer_snags (term_sound hsound) hterm hfail).after []
    (fun _ hread => hread.imp Chain.expression) fun _ hread => hread

/-! ## Lists -/

section Lists

variable {expression : Plain Node} {levels : Nat} (hsound : Sound expression Expression levels)
  (h : Snags expression Expression levels)

include h

/-- One entry of a list. -/
lemma entry_snags : Snags (entry expression) Expression levels := by
  intro s tokens e rest hfail
  cases tokens with
  | nil =>
    cases hfail
    exact .wanted [] (Begins.value none).expression
  | cons t tokens =>
    rw [entry, bind_run] at hfail
    exact h (error_of_bind_pure hfail)

include hsound

/-- The entries of a list after the first one.  An entry that fails before the closing parenthesis
is no failure of the list. -/
lemma entries_snags : ∀ count, Snags (entries expression count) MoreEntries levels
  | 0 => fun _ _ _ _ hfail => absurd hfail pure_ne_error
  | count + 1 => by
    intro s tokens e rest hfail
    rcases error_of_bind_accept (Kind.exact_mark _) hfail with
      ⟨c, middle, hc, rfl, hrest⟩ | ⟨-, hrest⟩
    · have hplain : c.kind.IsPlain := by rw [hc]; trivial
      rw [if_pos rfl, bind_run, attempt] at hrest
      cases hentry : entry expression s middle with
      | error e' left =>
        rw [hentry] at hrest
        have hsame : e' = e := by
          dsimp only at hrest
          rw [bind_run, check_run] at hrest
          dsimp only at hrest
          split at hrest <;> cases hrest
          rfl
        rw [hsame] at hentry
        refine (entry_snags h hentry).after [c] (fun read hread => ?_)
          fun read hread => hread.append (.plain hplain .nil)
        refine hread.after fun whole node _ hwhole => ⟨[node], fun next hnext => ?_⟩
        have hmore : MoreEntries (c :: (whole ++ [])) next [node] :=
          .cons hc (hwhole next hnext) .nil
        rwa [List.append_nil] at hmore
      | ok found left =>
        rw [hentry] at hrest
        obtain ⟨taken, rfl, hnested, hnode⟩ := entry_sound hsound hentry
        refine (entries_snags count (error_of_bind_pure hrest)).after (c :: taken)
          (fun read hread => ?_) fun read hread => hread.append (.plain hplain hnested.bracketed)
        refine hread.after fun whole nodes hfollowing hwhole => ⟨found.node :: nodes, ?_⟩
        exact fun next hnext => .cons hc (hnode _ (hfollowing next)) (hwhole next hnext)
    · exact absurd hrest pure_ne_error

/-- **Lists**, up to the closing parenthesis. -/
theorem commaList_snags : Snags (commaList expression) Listing levels := by
  intro s tokens e rest hfail
  rw [commaList, bind_run, check_run] at hfail
  dsimp only at hfail
  split at hfail
  · exact absurd hfail pure_ne_error
  · rcases bind_eq_error_iff.1 hfail with hentry | ⟨first, middle, hentry, hrest⟩
    · refine (entry_snags h hentry).after [] (fun read hread => ?_) fun _ hread => hread
      refine hread.after fun whole node _ hwhole => ⟨[node], fun next hnext => ?_⟩
      exact .entries (.last (hwhole next hnext))
    · obtain ⟨taken, rfl, hnested, hnode⟩ := entry_sound hsound hentry
      rw [bind_run] at hrest
      refine (entries_snags hsound h _ (error_of_bind_pure hrest)).after taken
        (fun read hread => ?_) fun read hread => hread.append hnested.bracketed
      refine hread.after fun whole nodes hfollowing hwhole => ⟨first.node :: nodes, ?_⟩
      intro next hnext
      exact .entries ((hwhole next hnext).entries (hnode _ (hfollowing next)))

/-- The arguments of a call, together with the name and the parenthesis before them. -/
private lemma arguments_snags {s : Slice} {t l : Token} {tokens : List Token} {id : String}
    {e : ParseError} {rest : List Token} (ht : t.kind = .identifier id)
    (hl : l.kind = .mark .leftParen)
    (hfail : arguments (commaList expression) s tokens = .error e rest) :
    Snag (Begins Value (some t)) (Opened (levels + 1)) s (t :: l :: tokens) e := by
  have hplain : t.kind.IsPlain := by rw [ht]; trivial
  -- a list can be completed to a call by a closing parenthesis
  have hcall : ∀ {read inner : List Token} {nodes : List Node}, read <+: inner →
      Listing inner (some closingParen) nodes → Begins Value (some t) (t :: l :: read) := by
    intro read inner nodes hread hlist
    have hprefix : l :: read <+: l :: (inner ++ [closingParen]) :=
      List.cons_prefix_cons.2 ⟨rfl, hread.trans (List.prefix_append inner _)⟩
    exact .cons hprefix fun _ _ => .call ht hl hlist rfl
  rcases bind_eq_error_iff.1 hfail with hlist | ⟨found, middle, hlist, hclose⟩
  · refine (commaList_snags hsound h hlist).after [t, l] (fun read hread => ?_)
      fun read hread => ?_
    · obtain ⟨inner, nodes, hread, -, -, hwhole⟩ := hread
      exact hcall hread (hwhole _ not_opens_closingParen)
    · have hopened : Opened (levels + 1) ([t] ++ l :: read) :=
        .append (.plain hplain .nil) (.enclosed (.inl ⟨hl, rfl⟩) hread)
      exact hopened
  · obtain ⟨taken, rfl, -, hwhole⟩ := commaList_sound hsound hlist
    rw [expectMark_eq_error (error_of_bind_pure hclose)]
    refine .wanted (t :: l :: taken) (hcall List.prefix_rfl (hwhole _ fun hopens => ?_))
    exact absurd hopens not_opens_closingParen

/-- An expression in parentheses. -/
private lemma parenthesized_snags {s : Slice} {l : Token} {tokens : List Token} {e : ParseError}
    {rest : List Token} (hl : l.kind = .mark .leftParen)
    (hfail : parenthesized expression s (l :: tokens) = .error e rest) :
    Snag (Begins Value (some l)) (Opened (levels + 1)) s (l :: tokens) e := by
  have hgroup : ∀ {read inner : List Token} {node : Node}, read <+: inner →
      Expression inner (some closingParen) node → Begins Value (some l) (l :: read) :=
    fun {_ inner _} hread hexpression =>
      .cons (hread.trans (List.prefix_append inner _)) fun _ _ => .group hl hexpression rfl
  rw [parenthesized, bind_run] at hfail
  rcases bind_eq_error_iff.1 hfail with hinner | ⟨inner, middle, hinner, hclose⟩
  · refine (h hinner).after [l] (fun read hread => ?_)
      fun read hread => .enclosed (.inl ⟨hl, rfl⟩) hread
    obtain ⟨inner, node, hread, -, -, hwhole⟩ := hread
    exact hgroup hread (hwhole _ not_opens_closingParen)
  · obtain ⟨taken, htaken, -, hwhole⟩ := hsound hinner
    rw [show tokens = taken ++ middle from htaken]
    rw [expectMark_eq_error (error_of_bind_pure hclose)]
    refine .wanted (l :: taken) (hgroup List.prefix_rfl (hwhole _ fun hopens => ?_))
    exact absurd hopens not_opens_closingParen

end Lists

/-! ## Operands and expressions -/

/-- One operand, if what stands in parentheses fails in these ways. -/
lemma operand_snags {group : Plain Node} {arguments : Plain (List Node)} {levels : Nat}
    (hgroup : ∀ {s : Slice} {l : Token} {tokens : List Token} {e : ParseError} {rest : List Token},
      l.kind = .mark .leftParen → group s (l :: tokens) = .error e rest →
        Snag (Begins Value (some l)) (Opened levels) s (l :: tokens) e)
    (harguments : ∀ {s : Slice} {t l : Token} {tokens : List Token} {id : String} {e : ParseError}
      {rest : List Token}, t.kind = .identifier id → l.kind = .mark .leftParen →
        arguments s tokens = .error e rest →
          Snag (Begins Value (some t)) (Opened levels) s (t :: l :: tokens) e) :
    Snags (operand group arguments) Value levels := by
  intro s tokens e rest hfail
  have hwanted : Snag (Begins Value tokens.head?) (Opened levels) s tokens
      (.expected .expression (s.sight tokens)) :=
    .wanted [] (.value tokens.head?)
  cases tokens with
  | nil =>
    cases hfail
    exact hwanted
  | cons t tokens =>
    rw [operand, bind_run] at hfail
    simp only [peekKind, Reading.left_list, List.head?_cons, Option.map_some] at hfail
    cases hkind : t.kind with
    | number value =>
      rw [hkind] at hfail
      have hnumber := error_of_bind_pure hfail
      rw [expectNumber_eq_ok_iff.2 ⟨t, hkind, rfl⟩] at hnumber
      cases hnumber
    | identifier id =>
      rw [hkind] at hfail
      rcases bind_eq_error_iff.1 hfail with hname | ⟨name, middle, hname, hrest⟩
      · rw [expectIdentifier_eq_ok_iff.2 ⟨t, hkind, rfl⟩] at hname
        cases hname
      · obtain ⟨t', ht', htokens⟩ := expectIdentifier_eq_ok_iff.1 hname
        obtain ⟨rfl, rfl⟩ := List.cons.inj htokens
        rcases error_of_bind_accept (Kind.exact_mark _) hrest with
          ⟨l, more, hl, rfl, hcalled⟩ | ⟨-, hcalled⟩
        · exact harguments hkind hl (error_of_bind_pure hcalled)
        · exact absurd hcalled pure_ne_error
    | mark m =>
      rw [hkind] at hfail
      cases m with
      | leftParen => exact hgroup hkind hfail
      | _ =>
        cases hfail
        exact hwanted
    | _ =>
      rw [hkind] at hfail
      cases hfail
      exact hwanted

/-- Operands, within a number of levels. -/
private lemma value_snags (levels : Nat) : Snags (Plain.value levels) Value levels := by
  induction levels with
  | zero =>
    refine operand_snags ?_ ?_
    · intro s l tokens e rest hl hfail
      cases hfail
      exact .group [] hl .nil
    · intro s t l tokens id e rest ht hl hfail
      cases hfail
      exact .call [] ht hl .nil
  | succ levels ih =>
    have hexpression : Snags (Plain.expression levels) Expression levels :=
      climbing_snags (value_shrinks levels) (value_sound levels) ih
    refine operand_snags ?_ ?_
    · exact parenthesized_snags (expression_sound levels) hexpression
    · exact arguments_snags (expression_sound levels) hexpression

/-- **Expressions**, within a number of levels. -/
theorem expression_snags (levels : Nat) : Snags (Plain.expression levels) Expression levels :=
  climbing_snags (value_shrinks levels) (value_sound levels) (value_snags levels)

end Parse

end Abacus
