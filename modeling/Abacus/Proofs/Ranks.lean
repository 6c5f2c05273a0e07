import Mathlib.Tactic.Common
import Abacus.Proofs.Occurrences
import Abacus.Proofs.Programs

/-!
# How deeply the evaluation of a node descends

The rank of a node is how deeply evaluations are nested while the node is evaluated, apart from
calls.  A chain of operators that leans left is evaluated from its left end, operand after operand,
so it adds one to the rank however long it is, and the body of a function adds nothing to its
definition.

The ranks in a program are bounded by how many levels of brackets are open at once in its text, and
not by its length.  On one level there is a chain of terms, each of which is a chain of values, and
a value can be a call, whose arguments are one level further in.  So every level adds three.  On the
level inside them all there are three as well, and a statement around an expression adds one.

## Main definitions

* `Abacus.Node.rank` — how deeply the evaluation of a node descends.
* `Abacus.Node.operands` — the operands of a chain that leans left.
* `Abacus.Node.Bounded` — no node inside a node has a rank above a bound.

## Main results

* `Abacus.Node.rank_le_succ_iff` — the rank of a node from the ranks of its parts.
* `Abacus.Grammar.Program.bounded` — the ranks in a program from the nesting of its text.
* `Abacus.Node.bounded_of_parse` — the ranks in what is read within a nesting limit.
-/

namespace Abacus

namespace Node

/-! ## Ranks -/

/-- How deeply evaluations are nested while a node is evaluated, apart from calls. -/
def rank (node : Node) : Nat :=
  (node.parts.attach.map fun inner => rank inner.1).foldr max 0 + 1
termination_by node.height
decreasing_by exact height_lt_of_mem_parts inner.2

/-- The rank of a node is one more than the largest rank of its parts. -/
theorem rank_le_succ_iff {node : Node} {bound : Nat} :
    node.rank ≤ bound + 1 ↔ ∀ inner ∈ node.parts, inner.rank ≤ bound := by
  rw [rank, Nat.add_le_add_iff_right, Environment.foldr_max_le_iff, List.forall_mem_map]
  constructor
  · exact fun h inner hinner => h ⟨inner, hinner⟩ (List.mem_attach _ _)
  · exact fun h inner _ => h inner.1 inner.2

/-- Every node has a rank. -/
lemma rank_pos (node : Node) : 0 < node.rank := by
  rw [rank]
  exact Nat.succ_pos _

/-- The evaluation of a part descends less. -/
lemma rank_lt_of_mem_parts {node inner : Node} (h : inner ∈ node.parts) :
    inner.rank < node.rank := by
  obtain ⟨bound, hbound⟩ : ∃ bound, node.rank = bound + 1 :=
    ⟨node.rank - 1, by have := node.rank_pos; omega⟩
  have := rank_le_succ_iff.1 (Nat.le_of_eq hbound) inner h
  omega

/-! ## Chains -/

/-- The operands of a chain that leans left. -/
def operands (node : Node) : List Node := node.leftmost :: (node.spine []).map (·.operand)

/-- Links that come first stay first. -/
private lemma spine_append (node : Node) (links more : List Link) :
    node.spine (links ++ more) = node.spine links ++ more := by
  fun_induction spine node links with
  | case1 op left right links ih =>
    rw [spine]
    exact ih
  | case2 node links hnode =>
    cases node with
    | binary op left right => exact absurd rfl (hnode op left right)
    | _ => rfl

/-- The operands of an operation are those of its left side, and its right side. -/
private lemma operands_binary (op : Operator) (left right : Node) :
    (binary op left right).operands = left.operands ++ [right] := by
  have hspine : (binary op left right).spine [] = left.spine [] ++ [⟨op, right⟩] :=
    spine_append left [] [⟨op, right⟩]
  rw [operands, operands, leftmost, hspine, List.map_append]
  rfl

/-- An operand of a chain has no larger rank than the chain. -/
private lemma rank_le_of_mem_operands {node operand : Node} (h : operand ∈ node.operands) :
    operand.rank ≤ node.rank := by
  cases node with
  | binary op left right => exact Nat.le_of_lt (rank_lt_of_mem_parts h)
  | _ =>
    obtain rfl := List.mem_singleton.1 h
    exact Nat.le_refl _

/-! ## Bounds for all nodes inside a node -/

/-- No node inside a node has a rank above a bound. -/
def Bounded (bound : Nat) (node : Node) : Prop := ∀ inner ∈ node.subnodes, inner.rank ≤ bound

/-- The operands of a chain have ranks up to a bound, and the nodes inside it up to one above. -/
structure Chained (bound : Nat) (node : Node) : Prop where
  operands : ∀ operand ∈ node.operands, operand.rank ≤ bound
  bounded : node.Bounded (bound + 1)

variable {bound bound' : Nat} {node left right : Node}

/-- A bounded node has no larger rank than the bound. -/
lemma Bounded.rank_le (h : node.Bounded bound) : node.rank ≤ bound :=
  h node (mem_subnodes_self node)

/-- A larger bound does as well. -/
lemma Bounded.mono (h : node.Bounded bound) (hle : bound ≤ bound') : node.Bounded bound' :=
  fun inner hinner => Nat.le_trans (h inner hinner) hle

/-- A larger bound on the operands does as well. -/
lemma Chained.mono (h : node.Chained bound) (hle : bound ≤ bound') : node.Chained bound' :=
  ⟨fun operand hoperand => Nat.le_trans (h.operands operand hoperand) hle,
    h.bounded.mono (Nat.succ_le_succ hle)⟩

/-- Any node is a chain, if only of one operand. -/
lemma Bounded.chained (h : node.Bounded bound) : node.Chained bound :=
  ⟨fun _ hoperand => Nat.le_trans (rank_le_of_mem_operands hoperand) h.rank_le,
    h.mono (Nat.le_succ _)⟩

/-- **A chain may be as long as it likes**: one more operand adds nothing to the bound. -/
lemma Chained.binary (h : left.Chained bound) (h' : right.Bounded bound) (op : Operator) :
    (binary op left right).Chained bound := by
  have hoperands : ∀ operand ∈ (Node.binary op left right).operands, operand.rank ≤ bound := by
    rw [operands_binary]
    refine List.forall_mem_append.2 ⟨h.operands, fun operand hoperand => ?_⟩
    obtain rfl := List.mem_singleton.1 hoperand
    exact h'.rank_le
  refine ⟨hoperands, ?_⟩
  rw [Bounded, subnodes, List.forall_mem_cons, List.forall_mem_append]
  exact ⟨rank_le_succ_iff.2 hoperands, h.bounded, h'.mono (Nat.le_succ _)⟩

/-- A node adds one to the ranks of its parts. -/
lemma bounded_succ_of_parts (hsubnodes : node.subnodes = node :: node.parts.flatMap subnodes)
    (h : ∀ part ∈ node.parts, part.Bounded bound) : node.Bounded (bound + 1) := by
  rw [Bounded, hsubnodes, List.forall_mem_cons]
  refine ⟨rank_le_succ_iff.2 fun part hpart => (h part hpart).rank_le, fun inner hinner => ?_⟩
  obtain ⟨part, hpart, hinner⟩ := List.mem_flatMap.1 hinner
  exact Nat.le_trans (h part hpart inner hinner) (Nat.le_succ _)

/-- A call is bounded by one more than its arguments. -/
private lemma bounded_call {callee : String} {arguments : List Node}
    (h : ∀ node ∈ arguments, node.Bounded bound) : (call callee arguments).Bounded (bound + 1) :=
  bounded_succ_of_parts (by rw [subnodes, subnodesEach_eq]; rfl) h

/-- A declaration is bounded by one more than its value. -/
private lemma bounded_declare {id : String} {value : Node} (h : value.Bounded bound) :
    (declare id value).Bounded (bound + 1) := by
  refine bounded_succ_of_parts ?_ (List.forall_mem_singleton.2 h)
  rw [subnodes, parts, List.flatMap_singleton]

/-- The definition of a function adds nothing to the ranks in its body. -/
private lemma bounded_define {fn : Function} (hbound : 0 < bound)
    (h : ∀ node ∈ fn.body, node.Bounded bound) : (define fn).Bounded bound := by
  obtain ⟨id, params, body⟩ := fn
  obtain ⟨bound, rfl⟩ : ∃ n, bound = n + 1 := ⟨bound - 1, by omega⟩
  rw [Bounded, subnodes, List.forall_mem_cons, subnodesEach_eq]
  refine ⟨rank_le_succ_iff.2 (List.forall_mem_nil _), fun inner hinner => ?_⟩
  obtain ⟨node, hnode, hinner⟩ := List.mem_flatMap.1 hinner
  exact h node hnode inner hinner

/-- A conditional is bounded by one more than its conditions and blocks. -/
private lemma bounded_choose {branches : List (Branch Node)} {otherwise : Option Block}
    (h : ∀ node ∈ branches.flatMap (fun branch => branch.condition :: branch.body) ++
      otherwise.getD [], node.Bounded bound) : (choose branches otherwise).Bounded (bound + 1) := by
  refine bounded_succ_of_parts ?_ h
  cases otherwise with
  | none => rw [subnodes, subnodesArms_eq, parts, Option.getD_none, List.append_nil]
  | some body =>
    rw [subnodes, subnodesArms_eq, subnodesEach_eq, parts, Option.getD_some, List.flatMap_append]

/-- A loop is bounded by one more than its conditions and its body. -/
private lemma bounded_loop {conditions : List Node} {body : Block}
    (h : ∀ node ∈ conditions ++ body, node.Bounded bound) :
    (loop conditions body).Bounded (bound + 1) :=
  bounded_succ_of_parts
    (by rw [subnodes, subnodesEach_eq, subnodesEach_eq, parts, List.flatMap_append]) h

end Node

/-! ## The ranks in a program -/

namespace Grammar

open Token (nesting)

mutual

/-- A value is bounded by its nesting. -/
lemma Value.bounded {tokens : List Token} {next : Option Token} {node : Node} :
    Value tokens next node → node.Bounded (3 * nesting tokens + 1)
  | .number _ => Node.bounded_succ_of_parts rfl (List.forall_mem_nil _)
  | .group hl h hr => by
    have hdeep := nesting_enclosed (.inl ⟨hl, hr⟩) h.bracketed []
    exact h.chained.bounded.mono (by omega)
  | .name _ _ => Node.bounded_succ_of_parts rfl (List.forall_mem_nil _)
  | .call ht hl h hr => by
    have hdeep := nesting_enclosed (.inl ⟨hl, hr⟩) h.bracketed []
    rw [nesting_plain (by rw [ht]; trivial)]
    exact (Node.bounded_call h.bounded).mono (by omega)

/-- The operands of a term are bounded by its nesting. -/
lemma Term.chained {tokens : List Token} {next : Option Token} {node : Node} :
    Term tokens next node → node.Chained (3 * nesting tokens + 1)
  | .value h => h.bounded.chained
  | .product h ht _ h' => by
    rw [nesting_append h.bracketed, nesting_plain (by rw [ht]; trivial)]
    exact (h.chained.mono (by omega)).binary (h'.bounded.mono (by omega)) _

/-- The operands of an expression are bounded by its nesting. -/
lemma Expression.chained {tokens : List Token} {next : Option Token} {node : Node} :
    Expression tokens next node → node.Chained (3 * nesting tokens + 2)
  | .term h => h.chained.bounded.chained
  | .sum h ht _ h' => by
    rw [nesting_append h.bracketed, nesting_plain (by rw [ht]; trivial)]
    exact (h.chained.mono (by omega)).binary (h'.chained.bounded.mono (by omega)) _

/-- Entries of a list are bounded by their nesting. -/
lemma Entries.bounded {tokens : List Token} {next : Option Token} {nodes : List Node} :
    Entries tokens next nodes → ∀ node ∈ nodes, node.Bounded (3 * nesting tokens + 3)
  | .last h => List.forall_mem_singleton.2 h.chained.bounded
  | .trailing h hc => by
    rw [nesting_append h.bracketed]
    exact List.forall_mem_singleton.2 (h.chained.bounded.mono (by omega))
  | .cons h hc h' => by
    rw [nesting_append h.bracketed, nesting_plain (by rw [hc]; trivial)]
    exact List.forall_mem_cons.2 ⟨h.chained.bounded.mono (by omega), fun node hnode =>
      (h'.bounded node hnode).mono (by omega)⟩

/-- The nodes of a list are bounded by its nesting. -/
lemma Listing.bounded {tokens : List Token} {next : Option Token} {nodes : List Node} :
    Listing tokens next nodes → ∀ node ∈ nodes, node.Bounded (3 * nesting tokens + 3)
  | .nil => List.forall_mem_nil _
  | .entries h => h.bounded

end

mutual

/-- A statement is bounded by its nesting. -/
lemma Statement.bounded {tokens : List Token} {next : Option Token} {node : Node} :
    Statement tokens next node → node.Bounded (3 * nesting tokens + 4)
  | .declare hk hn he h => by
    rw [nesting_plain (by rw [hk]; trivial), nesting_plain (by rw [hn]; trivial),
      nesting_plain (by rw [he]; trivial)]
    exact Node.bounded_declare h.chained.bounded
  | .define hk hn hl h hr h' => by
    rw [nesting_params hk hn hl hr h.bracketed]
    exact Node.bounded_define (Nat.succ_pos _) fun node hnode =>
      (h'.bounded node hnode).mono (by omega)
  | .choose hk h h' => by
    rw [nesting_plain (by rw [hk]; trivial), nesting_append h.bracketed]
    refine Node.bounded_choose fun node hnode => ?_
    rw [List.flatMap_cons, List.append_assoc] at hnode
    rcases List.mem_append.1 hnode with hnode | hnode
    · exact (h.bounded node hnode).mono (by omega)
    · exact (h'.bounded node hnode).mono (by omega)
  | .loop hk h => by
    rw [nesting_plain (by rcases hk with hk | hk <;> rw [hk] <;> trivial)]
    exact Node.bounded_loop h.bounded
  | .expression h => h.chained.bounded.mono (Nat.le_succ _)

/-- The condition and the body of an arm are bounded by its nesting. -/
lemma Arm.bounded {tokens : List Token} {arm : Branch Node} :
    Arm tokens arm → ∀ node ∈ arm.condition :: arm.body, node.Bounded (3 * nesting tokens + 3)
  | .mk h h' => by
    rw [nesting_append h.bracketed]
    exact List.forall_mem_cons.2 ⟨h.chained.bounded.mono (by omega), fun node hnode =>
      (h'.bounded node hnode).mono (by omega)⟩

/-- The nodes of further arms are bounded by their nesting. -/
lemma ElseArms.bounded {tokens : List Token} {arms : List (Branch Node)}
    {otherwise : Option Block} : ElseArms tokens arms otherwise →
      ∀ node ∈ arms.flatMap (fun arm => arm.condition :: arm.body) ++ otherwise.getD [],
        node.Bounded (3 * nesting tokens + 3)
  | .nil => List.forall_mem_nil _
  | .otherwise he h => by
    rw [nesting_plain (by rw [he]; trivial)]
    exact fun node hnode => (h.bounded node hnode).mono (by omega)
  | .cons he hi h h' => by
    rw [nesting_plain (by rw [he]; trivial), nesting_plain (by rw [hi]; trivial),
      nesting_append h.bracketed, List.flatMap_cons, List.append_assoc]
    exact List.forall_mem_append.2 ⟨fun node hnode => (h.bounded node hnode).mono (by omega),
      fun node hnode => (h'.bounded node hnode).mono (by omega)⟩

/-- The brace around a block pays for three of the four that a statement may add. -/
lemma Braced.bounded {tokens : List Token} {block : Block} :
    Braced tokens block → ∀ node ∈ block, node.Bounded (3 * nesting tokens + 1)
  | .mk hl h hr => by
    have hdeep := nesting_enclosed (.inr ⟨hl, hr⟩) h.bracketed []
    exact fun node hnode => (h.bounded node hnode).mono (by omega)

/-- **The ranks in a program** from the nesting of its text. -/
theorem Program.bounded {tokens : List Token} {next : Option Token} {block : Block} :
    Program tokens next block → ∀ node ∈ block, node.Bounded (3 * nesting tokens + 4)
  | .nil => List.forall_mem_nil _
  | .cons h h' => by
    rw [nesting_append h.bracketed]
    exact List.forall_mem_cons.2 ⟨h.bounded.mono (by omega), fun node hnode =>
      (h'.bounded node hnode).mono (by omega)⟩

end

end Grammar

/-- **What is read within a nesting limit** has ranks of at most three for every level and four. -/
theorem Node.bounded_of_parse {limit : Nat} {tokens : List Token} {block : Block}
    (h : Node.parse limit tokens = .ok block) : ∀ node ∈ block, node.Bounded (3 * limit + 4) := by
  obtain ⟨hprogram, hdeep⟩ := Node.parse_ok_iff_nesting_le.1 h
  exact fun node hnode => (hprogram.bounded node hnode).mono (by omega)

end Abacus
