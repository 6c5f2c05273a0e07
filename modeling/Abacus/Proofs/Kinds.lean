import Mathlib.Tactic.Common
import Abacus.Proofs.Brackets
import Abacus.Proofs.Reading

/-!
# The grammar sees kinds

The grammar looks at the kinds of tokens only, not at their places or spellings, so tokens of the
same kinds spell the same trees.  It looks past the end of a text in one case only: where the text
ends in a name, that name must not be followed by an opening parenthesis.

## Main definitions

* `Abacus.Kind.token` — a token of a given kind.
* `Abacus.Grammar.EndsInName` — tokens the last of which is a name.

## Main results

* `Abacus.Grammar.Program.transfer` — what a program depends on.
* `Abacus.Grammar.Program.append` — one program after the other.
-/

namespace Abacus

/-- A token of a given kind. -/
def Kind.token (kind : Kind) : Token := ⟨kind, "", .start⟩

namespace Token

variable {t : Token} {tokens more tokens' : List Token}

/-- Tokens of the same kinds as others have a first one if those do. -/
lemma exists_of_kinds_cons (h : tokens'.map (·.kind) = (t :: tokens).map (·.kind)) :
    ∃ t' rest, tokens' = t' :: rest ∧ t'.kind = t.kind ∧
      rest.map (·.kind) = tokens.map (·.kind) := by
  rw [List.map_cons] at h
  exact List.map_eq_cons_iff.1 h

/-- Tokens of the same kinds as two texts one after the other are two such texts. -/
lemma exists_of_kinds_append (h : tokens'.map (·.kind) = (tokens ++ more).map (·.kind)) :
    ∃ first rest, tokens' = first ++ rest ∧ first.map (·.kind) = tokens.map (·.kind) ∧
      rest.map (·.kind) = more.map (·.kind) := by
  rw [List.map_append] at h
  exact List.map_eq_append_iff.1 h

/-- Nesting is a matter of kinds. -/
lemma nesting_of_kinds (h : tokens'.map (·.kind) = tokens.map (·.kind)) :
    nesting tokens' = nesting tokens := by
  rw [nesting, nesting, h]

end Token

namespace Grammar

open Token (exists_of_kinds_cons exists_of_kinds_append)

/-- Tokens the last of which is a name. -/
def EndsInName (tokens : List Token) : Prop :=
  ∃ t id, tokens.getLast? = some t ∧ t.kind = .identifier id

/-- What ends in a name still does with tokens before it. -/
lemma EndsInName.append {tokens : List Token} (h : EndsInName tokens) (before : List Token) :
    EndsInName (before ++ tokens) := by
  obtain ⟨t, id, hlast, ht⟩ := h
  exact ⟨t, id, by rw [List.getLast?_append, hlast]; rfl, ht⟩

/-- What ends in a name still does with a token before it. -/
lemma EndsInName.cons {tokens : List Token} (h : EndsInName tokens) (t : Token) :
    EndsInName (t :: tokens) :=
  h.append [t]

/-- Whether a token opens a parenthesis depends on its kind only. -/
lemma opens_of_kind_eq {t t' : Token} (h : t'.kind = t.kind) (hopens : Opens (some t')) :
    Opens (some t) := by
  rwa [Opens, Leads, Option.map_some, ← h]

/-- Whether a parenthesis comes first depends on the kinds only. -/
lemma opens_head?_of_kinds {tokens tokens' : List Token}
    (h : tokens'.map (·.kind) = tokens.map (·.kind)) (hopens : Opens tokens'.head?) :
    Opens tokens.head? := by
  rw [Opens, Leads, ← List.head?_map] at hopens ⊢
  rwa [← h]

/-- Whether a parenthesis follows depends on the kinds only. -/
private lemma opens_following_of_kinds {rest rest' : List Token} {next next' : Option Token}
    (h : rest'.map (·.kind) = rest.map (·.kind)) (hnext : rest' = [] → Opens next' → Opens next)
    (hopens : Opens (following rest' next')) : Opens (following rest next) := by
  cases rest with
  | nil =>
    obtain rfl := List.map_eq_nil_iff.1 h
    exact hnext rfl hopens
  | cons t rest =>
    obtain ⟨t', rest', rfl, ht, -⟩ := exists_of_kinds_cons h
    exact opens_of_kind_eq ht hopens

/-! ## Transfer to other tokens -/

mutual

/-- Tokens of the same kinds as a value are that value, unless they end in a name that becomes a
call. -/
lemma Value.transfer {tokens : List Token} {next : Option Token} {node : Node} :
    Value tokens next node → ∀ {tokens' : List Token} {next' : Option Token},
      tokens'.map (·.kind) = tokens.map (·.kind) →
        (EndsInName tokens' → Opens next' → Opens next) → Value tokens' next' node
  | .number ht, tokens', next', hkinds, _ => by
    obtain ⟨t', rest, rfl, ht', hrest⟩ := exists_of_kinds_cons hkinds
    obtain rfl := List.map_eq_nil_iff.1 hrest
    exact .number (ht'.trans ht)
  | .group hl h hr, tokens', next', hkinds, _ => by
    obtain ⟨l', rest, rfl, hl', hrest⟩ := exists_of_kinds_cons hkinds
    obtain ⟨inner, rest, rfl, hinner, hrest⟩ := exists_of_kinds_append hrest
    obtain ⟨r', rest, rfl, hr', hrest⟩ := exists_of_kinds_cons hrest
    obtain rfl := List.map_eq_nil_iff.1 hrest
    exact .group (hl'.trans hl) (h.transfer hinner fun _ => opens_of_kind_eq hr') (hr'.trans hr)
  | .name ht hclosed, tokens', next', hkinds, hnext => by
    obtain ⟨t', rest, rfl, ht', hrest⟩ := exists_of_kinds_cons hkinds
    obtain rfl := List.map_eq_nil_iff.1 hrest
    exact .name (ht'.trans ht) fun hopens => hclosed (hnext ⟨t', _, rfl, ht'.trans ht⟩ hopens)
  | .call ht hl h hr, tokens', next', hkinds, _ => by
    obtain ⟨t', rest, rfl, ht', hrest⟩ := exists_of_kinds_cons hkinds
    obtain ⟨l', rest, rfl, hl', hrest⟩ := exists_of_kinds_cons hrest
    obtain ⟨inner, rest, rfl, hinner, hrest⟩ := exists_of_kinds_append hrest
    obtain ⟨r', rest, rfl, hr', hrest⟩ := exists_of_kinds_cons hrest
    obtain rfl := List.map_eq_nil_iff.1 hrest
    exact .call (ht'.trans ht) (hl'.trans hl) (h.transfer hinner fun _ => opens_of_kind_eq hr')
      (hr'.trans hr)

/-- So it is for terms. -/
lemma Term.transfer {tokens : List Token} {next : Option Token} {node : Node} :
    Term tokens next node → ∀ {tokens' : List Token} {next' : Option Token},
      tokens'.map (·.kind) = tokens.map (·.kind) →
        (EndsInName tokens' → Opens next' → Opens next) → Term tokens' next' node
  | .value h, _, _, hkinds, hnext => .value (h.transfer hkinds hnext)
  | .product h ht htight h', tokens', next', hkinds, hnext => by
    obtain ⟨left, rest, rfl, hleft, hrest⟩ := exists_of_kinds_append hkinds
    obtain ⟨t', right, rfl, ht', hright⟩ := exists_of_kinds_cons hrest
    exact .product (h.transfer hleft fun _ => opens_of_kind_eq ht') (ht'.trans ht) htight
      (h'.transfer hright fun hname => hnext ((hname.cons t').append left))

/-- So it is for expressions. -/
lemma Expression.transfer {tokens : List Token} {next : Option Token} {node : Node} :
    Expression tokens next node → ∀ {tokens' : List Token} {next' : Option Token},
      tokens'.map (·.kind) = tokens.map (·.kind) →
        (EndsInName tokens' → Opens next' → Opens next) → Expression tokens' next' node
  | .term h, _, _, hkinds, hnext => .term (h.transfer hkinds hnext)
  | .sum h ht hloose h', tokens', next', hkinds, hnext => by
    obtain ⟨left, rest, rfl, hleft, hrest⟩ := exists_of_kinds_append hkinds
    obtain ⟨t', right, rfl, ht', hright⟩ := exists_of_kinds_cons hrest
    exact .sum (h.transfer hleft fun _ => opens_of_kind_eq ht') (ht'.trans ht) hloose
      (h'.transfer hright fun hname => hnext ((hname.cons t').append left))

/-- So it is for the entries of a list. -/
lemma Entries.transfer {tokens : List Token} {next : Option Token} {nodes : List Node} :
    Entries tokens next nodes → ∀ {tokens' : List Token} {next' : Option Token},
      tokens'.map (·.kind) = tokens.map (·.kind) →
        (EndsInName tokens' → Opens next' → Opens next) → Entries tokens' next' nodes
  | .last h, _, _, hkinds, hnext => .last (h.transfer hkinds hnext)
  | .trailing h hc, tokens', next', hkinds, _ => by
    obtain ⟨first, rest, rfl, hfirst, hrest⟩ := exists_of_kinds_append hkinds
    obtain ⟨c', rest, rfl, hc', hrest⟩ := exists_of_kinds_cons hrest
    obtain rfl := List.map_eq_nil_iff.1 hrest
    exact .trailing (h.transfer hfirst fun _ => opens_of_kind_eq hc') (hc'.trans hc)
  | .cons h hc h', tokens', next', hkinds, hnext => by
    obtain ⟨first, rest, rfl, hfirst, hrest⟩ := exists_of_kinds_append hkinds
    obtain ⟨c', more, rfl, hc', hmore⟩ := exists_of_kinds_cons hrest
    exact .cons (h.transfer hfirst fun _ => opens_of_kind_eq hc') (hc'.trans hc)
      (h'.transfer hmore fun hname => hnext ((hname.cons c').append first))

/-- So it is for lists. -/
lemma Listing.transfer {tokens : List Token} {next : Option Token} {nodes : List Node} :
    Listing tokens next nodes → ∀ {tokens' : List Token} {next' : Option Token},
      tokens'.map (·.kind) = tokens.map (·.kind) →
        (EndsInName tokens' → Opens next' → Opens next) → Listing tokens' next' nodes
  | .nil, tokens', next', hkinds, _ => by
    obtain rfl := List.map_eq_nil_iff.1 hkinds
    exact .nil
  | .entries h, _, _, hkinds, hnext => .entries (h.transfer hkinds hnext)

end

mutual

/-- So it is for statements. -/
lemma Statement.transfer {tokens : List Token} {next : Option Token} {node : Node} :
    Statement tokens next node → ∀ {tokens' : List Token} {next' : Option Token},
      tokens'.map (·.kind) = tokens.map (·.kind) →
        (EndsInName tokens' → Opens next' → Opens next) → Statement tokens' next' node
  | .declare hk hn he h, tokens', next', hkinds, hnext => by
    obtain ⟨k', rest, rfl, hk', hrest⟩ := exists_of_kinds_cons hkinds
    obtain ⟨n', rest, rfl, hn', hrest⟩ := exists_of_kinds_cons hrest
    obtain ⟨e', rest, rfl, he', hrest⟩ := exists_of_kinds_cons hrest
    exact .declare (hk'.trans hk) (hn'.trans hn) (he'.trans he)
      (h.transfer hrest fun hname => hnext (((hname.cons e').cons n').cons k'))
  | .define hk hn hl h hr h', tokens', next', hkinds, _ => by
    obtain ⟨k', rest, rfl, hk', hrest⟩ := exists_of_kinds_cons hkinds
    obtain ⟨n', rest, rfl, hn', hrest⟩ := exists_of_kinds_cons hrest
    obtain ⟨l', rest, rfl, hl', hrest⟩ := exists_of_kinds_cons hrest
    obtain ⟨inner, rest, rfl, hinner, hrest⟩ := exists_of_kinds_append hrest
    obtain ⟨r', body, rfl, hr', hbody⟩ := exists_of_kinds_cons hrest
    exact .define (hk'.trans hk) (hn'.trans hn) (hl'.trans hl)
      (h.transfer hinner fun _ => opens_of_kind_eq hr') (hr'.trans hr) (h'.transfer hbody)
  | .choose hk h h', tokens', next', hkinds, _ => by
    obtain ⟨k', rest, rfl, hk', hrest⟩ := exists_of_kinds_cons hkinds
    obtain ⟨first, more, rfl, hfirst, hmore⟩ := exists_of_kinds_append hrest
    exact .choose (hk'.trans hk) (h.transfer hfirst) (h'.transfer hmore)
  | .loop hk h, tokens', next', hkinds, _ => by
    obtain ⟨k', rest, rfl, hk', hrest⟩ := exists_of_kinds_cons hkinds
    exact .loop (hk.imp hk'.trans hk'.trans) (h.transfer hrest)
  | .expression h, _, _, hkinds, hnext => .expression (h.transfer hkinds hnext)

/-- Tokens of the same kinds as an arm are that arm, since a brace ends it. -/
lemma Arm.transfer {tokens : List Token} {arm : Branch Node} :
    Arm tokens arm → ∀ {tokens' : List Token}, tokens'.map (·.kind) = tokens.map (·.kind) →
      Arm tokens' arm
  | .mk h h', tokens', hkinds => by
    obtain ⟨condition, body, rfl, hcondition, hbody⟩ := exists_of_kinds_append hkinds
    exact .mk (h.transfer hcondition fun _ => opens_head?_of_kinds hbody) (h'.transfer hbody)

/-- Tokens of the same kinds as further arms are those arms. -/
lemma ElseArms.transfer {tokens : List Token} {arms : List (Branch Node)}
    {otherwise : Option Block} : ElseArms tokens arms otherwise → ∀ {tokens' : List Token},
      tokens'.map (·.kind) = tokens.map (·.kind) → ElseArms tokens' arms otherwise
  | .nil, tokens', hkinds => by
    obtain rfl := List.map_eq_nil_iff.1 hkinds
    exact .nil
  | .otherwise he h, tokens', hkinds => by
    obtain ⟨e', rest, rfl, he', hrest⟩ := exists_of_kinds_cons hkinds
    exact .otherwise (he'.trans he) (h.transfer hrest)
  | .cons he hi h h', tokens', hkinds => by
    obtain ⟨e', rest, rfl, he', hrest⟩ := exists_of_kinds_cons hkinds
    obtain ⟨i', rest, rfl, hi', hrest⟩ := exists_of_kinds_cons hrest
    obtain ⟨first, more, rfl, hfirst, hmore⟩ := exists_of_kinds_append hrest
    exact .cons (he'.trans he) (hi'.trans hi) (h.transfer hfirst) (h'.transfer hmore)

/-- Tokens of the same kinds as a block are that block. -/
lemma Braced.transfer {tokens : List Token} {block : Block} :
    Braced tokens block → ∀ {tokens' : List Token}, tokens'.map (·.kind) = tokens.map (·.kind) →
      Braced tokens' block
  | .mk hl h hr, tokens', hkinds => by
    obtain ⟨l', rest, rfl, hl', hrest⟩ := exists_of_kinds_cons hkinds
    obtain ⟨inner, rest, rfl, hinner, hrest⟩ := exists_of_kinds_append hrest
    obtain ⟨r', rest, rfl, hr', hrest⟩ := exists_of_kinds_cons hrest
    obtain rfl := List.map_eq_nil_iff.1 hrest
    exact .mk (hl'.trans hl) (h.transfer hinner fun _ => opens_of_kind_eq hr') (hr'.trans hr)

/-- **What a program depends on**: the kinds of its tokens and, if it ends in a name, whether a
parenthesis comes next. -/
theorem Program.transfer {tokens : List Token} {next : Option Token} {block : Block} :
    Program tokens next block → ∀ {tokens' : List Token} {next' : Option Token},
      tokens'.map (·.kind) = tokens.map (·.kind) →
        (EndsInName tokens' → Opens next' → Opens next) → Program tokens' next' block
  | .nil, tokens', next', hkinds, _ => by
    obtain rfl := List.map_eq_nil_iff.1 hkinds
    exact .nil
  | .cons h h', tokens', next', hkinds, hnext => by
    obtain ⟨first, rest, rfl, hfirst, hrest⟩ := exists_of_kinds_append hkinds
    refine .cons (h.transfer hfirst fun hname => opens_following_of_kinds hrest ?_)
      (h'.transfer hrest fun hname => hnext (hname.append first))
    rintro rfl
    exact hnext (by rwa [List.append_nil])

end

/-! ## One program after the other -/

/-- **One program after the other** is a program. -/
theorem Program.append {tokens more : List Token} {next : Option Token} {block others : Block} :
    Program tokens (following more next) block → Program more next others →
      Program (tokens ++ more) next (block ++ others)
  | .nil, hmore => hmore
  | .cons h h', hmore => by
    rw [List.append_assoc]
    refine .cons ?_ (h'.append hmore)
    rwa [following_append]

end Grammar

end Abacus
