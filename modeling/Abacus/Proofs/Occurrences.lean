import Mathlib.Tactic.Common
import Abacus.Proofs.Termination

/-!
# What occurs in a node

The nodes inside a node are those that it is built from, however deeply, and those in the bodies of
the functions that it defines.  Whatever the evaluation of a node comes to, apart from functions
that were bound before, is one of them: the rule of a node evaluates nodes inside it, and a function
that it binds has its body inside it.

## Main definitions

* `Abacus.Node.subnodes` — a node with all nodes inside it.
* `Abacus.Node.names` — the names that occur in a node.

## Main results

* `Abacus.Node.subnodes_subset_of_mem_parts` — what the rule of a node evaluates is inside it.
* `Abacus.Node.subnodes_subset_of_mem_body` — the body of a function is inside its definition.
-/

namespace Abacus

namespace Node

/-! ## The nodes inside a node -/

mutual

/-- A node with all nodes inside it, those in the bodies of functions among them. -/
def subnodes : Node → List Node
  | literal value => [literal value]
  | name id => [name id]
  | binary op left right => binary op left right :: (left.subnodes ++ right.subnodes)
  | call callee arguments => call callee arguments :: subnodesEach arguments
  | declare id value => declare id value :: value.subnodes
  | define ⟨id, params, body⟩ => define ⟨id, params, body⟩ :: subnodesEach body
  | choose branches none => choose branches none :: subnodesArms branches
  | choose branches (some body) =>
    choose branches (some body) :: (subnodesArms branches ++ subnodesEach body)
  | loop conditions body => loop conditions body :: (subnodesEach conditions ++ subnodesEach body)
  | block body => block body :: subnodesEach body

/-- Some nodes with all nodes inside them. -/
def subnodesEach : List Node → List Node
  | [] => []
  | node :: nodes => node.subnodes ++ subnodesEach nodes

/-- The conditions and bodies of the arms of a conditional with all nodes inside them. -/
def subnodesArms : List (Branch Node) → List Node
  | [] => []
  | ⟨condition, body⟩ :: branches =>
    condition.subnodes ++ subnodesEach body ++ subnodesArms branches

end

/-- The nodes inside of several are those inside of each. -/
lemma subnodesEach_eq (nodes : List Node) : subnodesEach nodes = nodes.flatMap subnodes := by
  induction nodes with
  | nil => rfl
  | cons node nodes ih => rw [subnodesEach, ih, List.flatMap_cons]

/-- The nodes inside of arms are those inside of their conditions and bodies. -/
lemma subnodesArms_eq (branches : List (Branch Node)) :
    subnodesArms branches =
      (branches.flatMap fun branch => branch.condition :: branch.body).flatMap subnodes := by
  induction branches with
  | nil => rfl
  | cons branch branches ih =>
    obtain ⟨condition, body⟩ := branch
    simp only [subnodesArms, subnodesEach_eq, ih, List.flatMap_cons, List.flatMap_append]

/-- A node occurs in itself. -/
lemma mem_subnodes_self (node : Node) : node ∈ node.subnodes := by
  cases node with
  | define fn =>
    obtain ⟨id, params, body⟩ := fn
    simp [subnodes]
  | choose branches otherwise => cases otherwise <;> simp [subnodes]
  | _ => simp [subnodes]

/-- The nodes inside some of the nodes of a list. -/
lemma subnodes_subset_flatMap {inner : Node} {nodes : List Node} (h : inner ∈ nodes) :
    inner.subnodes ⊆ nodes.flatMap subnodes :=
  fun _ hnode => List.mem_flatMap.2 ⟨inner, h, hnode⟩

/-! ## What is evaluated and bound -/

/-- What occurs in the leftmost operand of a chain occurs in the chain. -/
private lemma subnodes_leftmost_subset (node : Node) : node.leftmost.subnodes ⊆ node.subnodes := by
  fun_induction leftmost node with
  | case1 op left right ih =>
    rw [subnodes]
    exact fun _ h => List.mem_cons_of_mem _ (List.mem_append_left _ (ih h))
  | case2 => exact List.Subset.refl _

/-- The operands along a chain are inside the chain. -/
private lemma subnodes_subset_of_mem_spine {node : Node} {links : List Link} {link : Link}
    (h : link ∈ node.spine links) : link ∈ links ∨ link.operand.subnodes ⊆ node.subnodes := by
  fun_induction spine node links with
  | case1 links op left right ih =>
    rw [subnodes]
    rcases ih h with h | h
    · rcases List.mem_cons.1 h with rfl | h
      · exact .inr fun _ h => List.mem_cons_of_mem _ (List.mem_append_right _ h)
      · exact .inl h
    · exact .inr fun _ hnode => List.mem_cons_of_mem _ (List.mem_append_left _ (h hnode))
  | case2 => exact .inl h

/-- **What the rule of a node evaluates is inside the node.** -/
theorem subnodes_subset_of_mem_parts {node inner : Node} (h : inner ∈ node.parts) :
    inner.subnodes ⊆ node.subnodes := by
  cases node with
  | literal value => cases h
  | name id => cases h
  | define fn => cases h
  | binary op left right =>
    rcases List.mem_cons.1 h with rfl | h
    · exact subnodes_leftmost_subset (binary op left right)
    · obtain ⟨link, hlink, rfl⟩ := List.mem_map.1 h
      have hspine : link ∈ (binary op left right).spine [] := hlink
      exact (subnodes_subset_of_mem_spine hspine).resolve_left List.not_mem_nil
  | call callee arguments =>
    rw [subnodes, subnodesEach_eq]
    exact fun _ hnode => List.mem_cons_of_mem _ (subnodes_subset_flatMap h hnode)
  | declare id value =>
    obtain rfl := List.mem_singleton.1 h
    rw [subnodes]
    exact List.subset_cons_self _ _
  | choose branches otherwise =>
    have hinside := subnodes_subset_flatMap h
    cases otherwise with
    | none =>
      rw [parts, Option.getD_none, List.append_nil] at hinside
      rw [subnodes, subnodesArms_eq]
      exact fun _ hnode => List.mem_cons_of_mem _ (hinside hnode)
    | some body =>
      rw [subnodes, subnodesArms_eq, subnodesEach_eq, ← List.flatMap_append]
      exact fun _ hnode => List.mem_cons_of_mem _ (hinside hnode)
  | loop conditions body =>
    rw [subnodes, subnodesEach_eq, subnodesEach_eq, ← List.flatMap_append]
    exact fun _ hnode => List.mem_cons_of_mem _ (subnodes_subset_flatMap h hnode)
  | block body =>
    rw [subnodes, subnodesEach_eq]
    exact fun _ hnode => List.mem_cons_of_mem _ (subnodes_subset_flatMap h hnode)

/-- **The body of a function is inside its definition.** -/
theorem subnodes_subset_of_mem_body {fn : Function} {inner : Node} (h : inner ∈ fn.body) :
    inner.subnodes ⊆ (define fn).subnodes := by
  obtain ⟨id, params, body⟩ := fn
  rw [subnodes, subnodesEach_eq]
  exact fun _ hnode => List.mem_cons_of_mem _ (subnodes_subset_flatMap h hnode)

/-! ## Names -/

/-- The names that a node mentions by itself: what it looks up or binds, and parameters. -/
def ownNames : Node → List String
  | name id => [id]
  | call callee _ => [callee]
  | declare id _ => [id]
  | define fn => fn.name :: fn.params
  | _ => []

/-- The names that occur in a node. -/
def names (node : Node) : List String := node.subnodes.flatMap ownNames

/-- A node mentions the names that a node inside of it mentions. -/
lemma names_subset_of_subnodes {node inner : Node} (h : inner.subnodes ⊆ node.subnodes) :
    inner.names ⊆ node.names := by
  intro id hid
  obtain ⟨mentioning, hmem, hown⟩ := List.mem_flatMap.1 hid
  exact List.mem_flatMap.2 ⟨mentioning, h hmem, hown⟩

/-- A node mentions the names of its own. -/
lemma ownNames_subset_names (node : Node) : node.ownNames ⊆ node.names :=
  fun _ h => List.mem_flatMap.2 ⟨node, mem_subnodes_self node, h⟩

end Node

end Abacus
