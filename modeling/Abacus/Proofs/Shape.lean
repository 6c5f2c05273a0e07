import Mathlib.Tactic.Common
import Abacus.Proofs.Grammar
import Abacus.Proofs.Scanning

/-!
# The shape of programs

Not every tree of nodes can be written down.  In a script operands, arguments and conditions are
expressions, a conditional has an arm, a loop has one condition, and a block never stands on its
own.  Names are spelled with letters, digits, underscores and dollar signs, do not start with a
digit, and are not reserved.

## Main definitions

* `Abacus.IsName` — the spellings of names.
* `Abacus.Node.IsExpression`, `Abacus.Node.IsStatement` — nodes as a script has them.
* `Abacus.Node.Shaped` — blocks as a script has them.

## Main results

* `Abacus.Token.named_of_scan` — the names among the tokens of a script are names.
* `Abacus.Grammar.Program.shaped` — the programs of the grammar are shaped.
-/

namespace Abacus

/-- Whether some characters are those of a word: a letter, an underscore or a dollar sign, and then
any number of these and of digits. -/
def Rule.spellsWord : List Char → Bool
  | [] => false
  | c :: cs => startsName c && cs.all continuesName

/-- The spellings of names: all words but the reserved ones. -/
structure IsName (name : String) : Prop where
  spellsWord : Rule.spellsWord name.toList = true
  not_reserved : Keyword.ofText? name = none

instance (name : String) : Decidable (IsName name) :=
  decidable_of_iff (Rule.spellsWord name.toList = true ∧ Keyword.ofText? name = none)
    ⟨fun h => ⟨h.1, h.2⟩, fun h => ⟨h.1, h.2⟩⟩

namespace Node

/-- A node that stands for an expression, with numbers for which `P` holds. -/
inductive IsExpression (P : Float → Prop) : Node → Prop
  | literal {value : Float} : P value → IsExpression P (.literal value)
  | name {id : String} : IsName id → IsExpression P (.name id)
  | binary {op : Operator} {left right : Node} :
      IsExpression P left → IsExpression P right → IsExpression P (.binary op left right)
  | call {callee : String} {arguments : List Node} :
      IsName callee → (∀ node ∈ arguments, IsExpression P node) →
        IsExpression P (.call callee arguments)

/-- A node that stands for a statement, with numbers for which `P` holds. -/
inductive IsStatement (P : Float → Prop) : Node → Prop
  | expression {node : Node} : IsExpression P node → IsStatement P node
  | declare {id : String} {value : Node} :
      IsName id → IsExpression P value → IsStatement P (.declare id value)
  | define {id : String} {params : List String} {body : Block} :
      IsName id → (∀ param ∈ params, IsName param) → (∀ node ∈ body, IsStatement P node) →
        IsStatement P (.define ⟨id, params, body⟩)
  | choose {branches : List (Branch Node)} {otherwise : Option Block} :
      branches ≠ [] → (∀ branch ∈ branches, IsExpression P branch.condition) →
        (∀ branch ∈ branches, ∀ node ∈ branch.body, IsStatement P node) →
        (∀ body ∈ otherwise, ∀ node ∈ body, IsStatement P node) →
        IsStatement P (.choose branches otherwise)
  | loop {condition : Node} {body : Block} :
      IsExpression P condition → (∀ node ∈ body, IsStatement P node) →
        IsStatement P (.loop [condition] body)

/-- A block of statements, with numbers for which `P` holds. -/
def Shaped (P : Float → Prop) (block : Block) : Prop := ∀ node ∈ block, node.IsStatement P

end Node

/-! ## Names in a script -/

/-- What is read as a name is one. -/
lemma Match.isName_of_first? {cs : List Char} {m : Match} {id : String}
    (h : first? cs = some m) (hid : m.kind = .identifier id) : IsName id := by
  obtain ⟨rule, -, hread⟩ := List.exists_of_findSome?_eq_some h
  cases rule with
  | number =>
    simp only [Rule.read?, Rule.number?, Option.ite_none_left_eq_some, Option.some.injEq] at hread
    obtain ⟨-, rfl⟩ := hread
    cases hid
  | operator =>
    cases cs with
    | nil => cases hread
    | cons c cs =>
      obtain ⟨op, -, rfl⟩ := Option.map_eq_some_iff.1 hread
      cases hid
  | punctuation =>
    cases cs with
    | nil => cases hread
    | cons c cs =>
      obtain ⟨op, -, rfl⟩ := Option.map_eq_some_iff.1 hread
      cases hid
  | identifier =>
    cases cs with
    | nil => cases hread
    | cons c cs =>
      simp only [Rule.read?, Rule.identifier?, Option.ite_none_right_eq_some,
        Option.some.injEq] at hread
      obtain ⟨hc, rfl⟩ := hread
      simp only [Rule.word] at hid
      split at hid
      · cases hid
      · next hword =>
        cases hid
        refine ⟨?_, hword⟩
        rw [String.toList_ofList, Rule.spellsWord, hc, List.all_takeWhile]
        rfl

namespace Token

/-- The names among some tokens are spelled as names. -/
def Named (tokens : List Token) : Prop :=
  ∀ t ∈ tokens, ∀ id, t.kind = .identifier id → IsName id

/-- Tokens have proper names if the first one and the others do. -/
lemma named_cons {t : Token} {tokens : List Token} :
    Named (t :: tokens) ↔ (∀ id, t.kind = .identifier id → IsName id) ∧ Named tokens :=
  List.forall_mem_cons

/-- Tokens have proper names if those of both parts do. -/
lemma named_append {tokens more : List Token} :
    Named (tokens ++ more) ↔ Named tokens ∧ Named more :=
  List.forall_mem_append

/-- **The names in a script are names.** -/
theorem named_of_scan {s : Span} {cs : List Char} {tokens : List Token}
    (h : scan s cs = .ok tokens) : Named tokens := by
  refine scan_ok_induction (P := fun _ _ tokens => Named tokens) ?_ ?_ h
  · exact fun _ _ _ _ => List.forall_mem_nil _
  · intro s t cs rest m tokens hskip hm ih
    exact named_cons.2 ⟨fun id hid => Match.isName_of_first? hm hid, ih⟩

end Token

/-! ## Programs of the grammar -/

namespace Grammar

open Node (IsExpression IsStatement Shaped)
open Token (Named named_cons named_append)

mutual

/-- A value is shaped as an expression. -/
lemma Value.isExpression {tokens : List Token} {next : Option Token} {node : Node} :
    Value tokens next node → Named tokens → node.IsExpression fun _ => True
  | .number _, _ => .literal trivial
  | .group _ h _, hnamed => h.isExpression (named_append.1 (named_cons.1 hnamed).2).1
  | .name ht _, hnamed => .name ((named_cons.1 hnamed).1 _ ht)
  | .call ht _ h _, hnamed =>
    .call ((named_cons.1 hnamed).1 _ ht)
      (h.areExpressions (named_append.1 (named_cons.1 (named_cons.1 hnamed).2).2).1)

/-- A term is shaped as an expression. -/
lemma Term.isExpression {tokens : List Token} {next : Option Token} {node : Node} :
    Term tokens next node → Named tokens → node.IsExpression fun _ => True
  | .value h, hnamed => h.isExpression hnamed
  | .product h _ _ h', hnamed =>
    .binary (h.isExpression (named_append.1 hnamed).1)
      (h'.isExpression (named_cons.1 (named_append.1 hnamed).2).2)

/-- An expression is shaped as one. -/
lemma Expression.isExpression {tokens : List Token} {next : Option Token} {node : Node} :
    Expression tokens next node → Named tokens → node.IsExpression fun _ => True
  | .term h, hnamed => h.isExpression hnamed
  | .sum h _ _ h', hnamed =>
    .binary (h.isExpression (named_append.1 hnamed).1)
      (h'.isExpression (named_cons.1 (named_append.1 hnamed).2).2)

/-- The entries of a list are shaped as expressions. -/
lemma Entries.areExpressions {tokens : List Token} {next : Option Token} {nodes : List Node} :
    Entries tokens next nodes → Named tokens → ∀ node ∈ nodes, node.IsExpression fun _ => True
  | .last h, hnamed => List.forall_mem_singleton.2 (h.isExpression hnamed)
  | .trailing h _, hnamed =>
    List.forall_mem_singleton.2 (h.isExpression (named_append.1 hnamed).1)
  | .cons h _ h', hnamed =>
    List.forall_mem_cons.2 ⟨h.isExpression (named_append.1 hnamed).1,
      h'.areExpressions (named_cons.1 (named_append.1 hnamed).2).2⟩

/-- The nodes of a list are shaped as expressions. -/
lemma Listing.areExpressions {tokens : List Token} {next : Option Token} {nodes : List Node} :
    Listing tokens next nodes → Named tokens → ∀ node ∈ nodes, node.IsExpression fun _ => True
  | .nil, _ => nofun
  | .entries h, hnamed => h.areExpressions hnamed

end

/-- The parameters of a function definition are names. -/
lemma Listing.areNames {tokens : List Token} {next : Option Token} {params : List String}
    (h : Listing tokens next (params.map .name)) (hnamed : Named tokens) :
    ∀ param ∈ params, IsName param := by
  intro param hparam
  cases h.areExpressions hnamed (.name param) (List.mem_map_of_mem hparam) with
  | name hname => exact hname

mutual

/-- A statement is shaped as one. -/
lemma Statement.isStatement {tokens : List Token} {next : Option Token} {node : Node} :
    Statement tokens next node → Named tokens → node.IsStatement fun _ => True
  | .declare _ hn _ h, hnamed => by
    have hnamed' := (named_cons.1 hnamed).2
    exact .declare ((named_cons.1 hnamed').1 _ hn)
      (h.isExpression (named_cons.1 (named_cons.1 hnamed').2).2)
  | .define _ hn _ h _ h', hnamed => by
    have hnamed' := (named_cons.1 hnamed).2
    obtain ⟨hparams, hbody⟩ := named_append.1 (named_cons.1 (named_cons.1 hnamed').2).2
    exact .define ((named_cons.1 hnamed').1 _ hn) (h.areNames hparams)
      (h'.shaped (named_cons.1 hbody).2)
  | .choose _ h h', hnamed => by
    obtain ⟨hfirst, hmore⟩ := named_append.1 (named_cons.1 hnamed).2
    obtain ⟨hcondition, hbody⟩ := h.shaped hfirst
    obtain ⟨hconditions, hbodies, hotherwise⟩ := h'.shaped hmore
    exact .choose (List.cons_ne_nil _ _) (List.forall_mem_cons.2 ⟨hcondition, hconditions⟩)
      (List.forall_mem_cons.2 ⟨hbody, hbodies⟩) hotherwise
  | .loop _ h, hnamed => by
    obtain ⟨hcondition, hbody⟩ := h.shaped (named_cons.1 hnamed).2
    exact .loop hcondition hbody
  | .expression h, hnamed => .expression (h.isExpression hnamed)

/-- An arm has an expression and a block. -/
lemma Arm.shaped {tokens : List Token} {arm : Branch Node} :
    Arm tokens arm → Named tokens →
      arm.condition.IsExpression (fun _ => True) ∧ Shaped (fun _ => True) arm.body
  | .mk h h', hnamed =>
    ⟨h.isExpression (named_append.1 hnamed).1, h'.shaped (named_append.1 hnamed).2⟩

/-- Further arms have expressions and blocks. -/
lemma ElseArms.shaped {tokens : List Token} {arms : List (Branch Node)}
    {otherwise : Option Block} : ElseArms tokens arms otherwise → Named tokens →
      (∀ arm ∈ arms, arm.condition.IsExpression fun _ => True) ∧
        (∀ arm ∈ arms, Shaped (fun _ => True) arm.body) ∧
        ∀ body ∈ otherwise, Shaped (fun _ => True) body
  | .nil, _ => ⟨nofun, nofun, nofun⟩
  | .otherwise _ h, hnamed => by
    refine ⟨nofun, nofun, ?_⟩
    rintro _ ⟨⟩
    exact h.shaped (named_cons.1 hnamed).2
  | .cons _ _ h h', hnamed => by
    obtain ⟨hfirst, hmore⟩ := named_append.1 (named_cons.1 (named_cons.1 hnamed).2).2
    obtain ⟨hcondition, hbody⟩ := h.shaped hfirst
    obtain ⟨hconditions, hbodies, hotherwise⟩ := h'.shaped hmore
    exact ⟨List.forall_mem_cons.2 ⟨hcondition, hconditions⟩,
      List.forall_mem_cons.2 ⟨hbody, hbodies⟩, hotherwise⟩

/-- A block is shaped as a program. -/
lemma Braced.shaped {tokens : List Token} {block : Block} :
    Braced tokens block → Named tokens → Shaped (fun _ => True) block
  | .mk _ h _, hnamed => h.shaped (named_append.1 (named_cons.1 hnamed).2).1

/-- **The programs of the grammar are shaped.** -/
theorem Program.shaped {tokens : List Token} {next : Option Token} {block : Block} :
    Program tokens next block → Named tokens → Shaped (fun _ => True) block
  | .nil, _ => nofun
  | .cons h h', hnamed =>
    List.forall_mem_cons.2 ⟨h.isStatement (named_append.1 hnamed).1,
      h'.shaped (named_append.1 hnamed).2⟩

end

end Grammar

end Abacus
