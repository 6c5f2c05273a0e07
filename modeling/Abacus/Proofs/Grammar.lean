import Mathlib.Tactic.Common
import Abacus.Node.Parser

/-!
# The grammar of programs

The grammar as a relation between tokens and trees, apart from any way of reading them.  A
category of the grammar relates a list of tokens to the tree that they spell; a name is a value
of its own only if no parenthesis follows it, so a category also sees the token that comes `next`.

```text
program    = statement*
statement  = `ref` id `=` expression | `fn` id `(` list `)` block
           | `if` arm (`else` `if` arm)* (`else` block)? | (`while` | `for`) arm | expression
arm        = expression block
block      = `{` program `}`
expression = expression (`+` | `-`) term | term
term       = term (`*` | `/`) value | value
value      = number | `(` expression `)` | id | id `(` list `)`
list       = nothing | expression (`,` expression)* `,`?
```

## Main definitions

* `Abacus.Grammar.Value`, `Term`, `Expression`, `Entries`, `Listing` — expressions.
* `Abacus.Grammar.Statement`, `Arm`, `ElseArms`, `Braced`, `Program` — statements and blocks.

## Main results

* `Abacus.Grammar.Expression.head`, `Statement.head` — the tokens that a category starts with.
-/

namespace Abacus

/-- Whether an operator multiplies or divides, that is, belongs to the tier that binds tighter. -/
def Operator.Tight : Operator → Prop
  | .multiply | .divide => True
  | .add | .subtract => False

instance : DecidablePred Operator.Tight
  | .multiply | .divide => isTrue trivial
  | .add | .subtract => isFalse id

namespace Grammar

/-- Whether the next token is of a given kind. -/
def Leads (kind : Kind) (next : Option Token) : Prop := next.map (·.kind) = some kind

/-- Whether the next token opens a parenthesis. -/
abbrev Opens (next : Option Token) : Prop := Leads (.mark .leftParen) next

/-- The token that comes after some text: the first of the tokens that follow it, or else the one
after those. -/
def following (tokens : List Token) (next : Option Token) : Option Token := tokens.head?.or next

/-! ## Expressions -/

mutual

/-- An operand: a number, an expression in parentheses, a name that is not called, or a call. -/
inductive Value : List Token → Option Token → Node → Prop
  | number {t : Token} {next : Option Token} {value : Float} :
      t.kind = .number value → Value [t] next (.literal value)
  | group {l r : Token} {tokens : List Token} {next : Option Token} {node : Node} :
      l.kind = .mark .leftParen → Expression tokens (some r) node → r.kind = .mark .rightParen →
        Value (l :: (tokens ++ [r])) next node
  | name {t : Token} {next : Option Token} {id : String} :
      t.kind = .identifier id → ¬ Opens next → Value [t] next (.name id)
  | call {t l r : Token} {tokens : List Token} {next : Option Token} {id : String}
      {nodes : List Node} :
      t.kind = .identifier id → l.kind = .mark .leftParen → Listing tokens (some r) nodes →
        r.kind = .mark .rightParen → Value (t :: l :: (tokens ++ [r])) next (.call id nodes)

/-- Values with operators of the tighter tier between them, grouped to the left. -/
inductive Term : List Token → Option Token → Node → Prop
  | value {tokens : List Token} {next : Option Token} {node : Node} :
      Value tokens next node → Term tokens next node
  | product {t : Token} {left right : List Token} {next : Option Token} {op : Operator}
      {x y : Node} :
      Term left (some t) x → t.kind = .operator op → op.Tight → Value right next y →
        Term (left ++ t :: right) next (.binary op x y)

/-- Terms with operators of the looser tier between them, grouped to the left. -/
inductive Expression : List Token → Option Token → Node → Prop
  | term {tokens : List Token} {next : Option Token} {node : Node} :
      Term tokens next node → Expression tokens next node
  | sum {t : Token} {left right : List Token} {next : Option Token} {op : Operator}
      {x y : Node} :
      Expression left (some t) x → t.kind = .operator op → ¬ op.Tight → Term right next y →
        Expression (left ++ t :: right) next (.binary op x y)

/-- One or more expressions with commas between them, and at most one comma after the last. -/
inductive Entries : List Token → Option Token → List Node → Prop
  | last {tokens : List Token} {next : Option Token} {node : Node} :
      Expression tokens next node → Entries tokens next [node]
  | trailing {c : Token} {tokens : List Token} {next : Option Token} {node : Node} :
      Expression tokens (some c) node → c.kind = .mark .comma →
        Entries (tokens ++ [c]) next [node]
  | cons {c : Token} {tokens more : List Token} {next : Option Token} {node : Node}
      {nodes : List Node} :
      Expression tokens (some c) node → c.kind = .mark .comma → Entries more next nodes →
        Entries (tokens ++ c :: more) next (node :: nodes)

/-- What may stand between the parentheses of a call or of a function's parameters. -/
inductive Listing : List Token → Option Token → List Node → Prop
  | nil {next : Option Token} : Listing [] next []
  | entries {tokens : List Token} {next : Option Token} {nodes : List Node} :
      Entries tokens next nodes → Listing tokens next nodes

end

/-! ## Statements -/

mutual

/-- A statement.  The entries between the parentheses of a function definition are expressions
whose trees are bare names. -/
inductive Statement : List Token → Option Token → Node → Prop
  | declare {k n e : Token} {tokens : List Token} {next : Option Token} {id : String}
      {value : Node} :
      k.kind = .keyword .ref → n.kind = .identifier id → e.kind = .mark .equals →
        Expression tokens next value → Statement (k :: n :: e :: tokens) next (.declare id value)
  | define {k n l r : Token} {tokens body : List Token} {next : Option Token} {id : String}
      {params : List String} {block : Block} :
      k.kind = .keyword .fn → n.kind = .identifier id → l.kind = .mark .leftParen →
        Listing tokens (some r) (params.map .name) → r.kind = .mark .rightParen →
        Braced body block →
        Statement (k :: n :: l :: (tokens ++ r :: body)) next (.define ⟨id, params, block⟩)
  | choose {k : Token} {first more : List Token} {next : Option Token} {arm : Branch Node}
      {arms : List (Branch Node)} {otherwise : Option Block} :
      k.kind = .keyword .if_ → Arm first arm → ElseArms more arms otherwise →
        Statement (k :: (first ++ more)) next (.choose (arm :: arms) otherwise)
  | loop {k : Token} {tokens : List Token} {next : Option Token} {arm : Branch Node} :
      k.kind = .keyword .while_ ∨ k.kind = .keyword .for_ → Arm tokens arm →
        Statement (k :: tokens) next (.loop [arm.condition] arm.body)
  | expression {tokens : List Token} {next : Option Token} {node : Node} :
      Expression tokens next node → Statement tokens next node

/-- A condition and the block that it decides on. -/
inductive Arm : List Token → Branch Node → Prop
  | mk {tokens body : List Token} {condition : Node} {block : Block} :
      Expression tokens body.head? condition → Braced body block →
        Arm (tokens ++ body) ⟨condition, block⟩

/-- What follows the first arm of a conditional: further arms, and a block for when no condition
holds. -/
inductive ElseArms : List Token → List (Branch Node) → Option Block → Prop
  | nil : ElseArms [] [] none
  | otherwise {e : Token} {tokens : List Token} {block : Block} :
      e.kind = .keyword .else_ → Braced tokens block → ElseArms (e :: tokens) [] (some block)
  | cons {e i : Token} {tokens more : List Token} {arm : Branch Node}
      {arms : List (Branch Node)} {otherwise : Option Block} :
      e.kind = .keyword .else_ → i.kind = .keyword .if_ → Arm tokens arm →
        ElseArms more arms otherwise → ElseArms (e :: i :: (tokens ++ more)) (arm :: arms) otherwise

/-- A block: a program in braces. -/
inductive Braced : List Token → Block → Prop
  | mk {l r : Token} {tokens : List Token} {block : Block} :
      l.kind = .mark .leftBrace → Program tokens (some r) block → r.kind = .mark .rightBrace →
        Braced (l :: (tokens ++ [r])) block

/-- A program: statements one after the other. -/
inductive Program : List Token → Option Token → Block → Prop
  | nil {next : Option Token} : Program [] next []
  | cons {first rest : List Token} {next : Option Token} {node : Node} {nodes : Block} :
      Statement first (following rest next) node → Program rest next nodes →
        Program (first ++ rest) next (node :: nodes)

end

/-! ## First tokens -/

/-- What the first token of an expression can be. -/
def StartsExpression : Kind → Prop
  | .number _ | .identifier _ | .mark .leftParen => True
  | _ => False

/-- What the first token of a statement can be. -/
def StartsStatement : Kind → Prop
  | .keyword word => word ≠ .else_
  | kind => StartsExpression kind

/-- An expression is a statement, so what starts one starts the other. -/
lemma StartsExpression.startsStatement {kind : Kind} (h : StartsExpression kind) :
    StartsStatement kind := by
  cases kind with
  | keyword word => exact h.elim
  | _ => exact h

/-- A value starts with a number, a name or a parenthesis. -/
lemma Value.head {tokens : List Token} {next : Option Token} {node : Node}
    (h : Value tokens next node) : ∃ t rest, tokens = t :: rest ∧ StartsExpression t.kind := by
  cases h with
  | number ht => exact ⟨_, _, rfl, by rw [ht]; trivial⟩
  | group hl => exact ⟨_, _, rfl, by rw [hl]; trivial⟩
  | name ht => exact ⟨_, _, rfl, by rw [ht]; trivial⟩
  | call ht => exact ⟨_, _, rfl, by rw [ht]; trivial⟩

/-- A term starts as its first value does. -/
lemma Term.head {tokens : List Token} {next : Option Token} {node : Node} :
    Term tokens next node → ∃ t rest, tokens = t :: rest ∧ StartsExpression t.kind
  | .value h => h.head
  | .product h _ _ _ => by
    obtain ⟨t, rest, rfl, ht⟩ := h.head
    exact ⟨t, _, rfl, ht⟩

/-- An expression starts as its first term does. -/
theorem Expression.head {tokens : List Token} {next : Option Token} {node : Node} :
    Expression tokens next node → ∃ t rest, tokens = t :: rest ∧ StartsExpression t.kind
  | .term h => h.head
  | .sum h _ _ _ => by
    obtain ⟨t, rest, rfl, ht⟩ := h.head
    exact ⟨t, _, rfl, ht⟩

/-- A statement starts with a reserved word other than `else`, or as an expression does. -/
theorem Statement.head {tokens : List Token} {next : Option Token} {node : Node}
    (h : Statement tokens next node) : ∃ t rest, tokens = t :: rest ∧ StartsStatement t.kind := by
  cases h with
  | declare hk => exact ⟨_, _, rfl, by rw [hk]; simp [StartsStatement]⟩
  | define hk => exact ⟨_, _, rfl, by rw [hk]; simp [StartsStatement]⟩
  | choose hk => exact ⟨_, _, rfl, by rw [hk]; simp [StartsStatement]⟩
  | loop hk => rcases hk with hk | hk <;> exact ⟨_, _, rfl, by rw [hk]; simp [StartsStatement]⟩
  | expression h =>
    obtain ⟨t, rest, rfl, ht⟩ := h.head
    exact ⟨t, rest, rfl, ht.startsStatement⟩

end Grammar

end Abacus
