import Mathlib.Tactic.Common
import Abacus.Proofs.Kinds
import Abacus.Proofs.Sessions
import Abacus.Proofs.Writing

/-!
# Programs and their text

A program that is written down and read again comes back unchanged, whatever its shape, and every
program that is read from a script is one that can be written down.

Reading takes two steps.  The tokens of the text are those that the program was written as, and
these spell the program by the grammar: what is written for an expression is a value of the grammar,
so that it may stand anywhere.

## Main results

* `Abacus.Node.IsExpression.value`, `Abacus.Node.IsStatement.statement` — what is written for a node
  spells the node.
* `Abacus.Session.program_round_trip` — programs and their text.
-/

namespace Abacus

/-- Tokens that are made for some kinds have those kinds. -/
lemma Kind.map_kind_map_token (kinds : List Kind) :
    (kinds.map token).map (·.kind) = kinds := by
  rw [List.map_map]
  exact List.map_id kinds

/-! ## Written nodes and the grammar -/

namespace Grammar

open Kind (token)
open Node (written writtenBlock writtenArms writtenOtherwise inBraces)

/-- Expressions with commas between them are a list of the grammar. -/
lemma listing_intercalate {α : Type} {kinds : α → List Kind} {node : α → Node}
    {next : Option Token} (hnext : ¬ Opens next) : ∀ {items : List α},
    (∀ a ∈ items, ∀ next, ¬ Opens next → Expression ((kinds a).map token) next (node a)) →
      Listing (([.mark .comma].intercalate (items.map kinds)).map token) next (items.map node)
  | [], _ => .nil
  | first :: items, h => by
    refine .entries ?_
    induction items generalizing first with
    | nil => simpa using Entries.last (h first (by simp) next hnext)
    | cons second items ih =>
      have hcomma : ¬ Opens (some (token (.mark .comma))) := by rintro ⟨⟩
      have hrest := ih second fun a ha => h a (List.mem_cons_of_mem _ ha)
      simpa using Entries.cons (c := token (.mark .comma)) (h first (by simp) _ hcomma) rfl hrest

/-- Statements that are written one after the other are a program of the grammar. -/
lemma program_writtenBlock {block : Block}
    (h : ∀ node ∈ block, ∀ next, Statement (node.written.map token) next node)
    (next : Option Token) : Program ((writtenBlock block).map token) next block := by
  induction block with
  | nil => exact .nil
  | cons node block ih =>
    rw [writtenBlock, List.flatMap_cons, List.map_append]
    exact .cons (h node (by simp) _) (ih fun n hn => h n (List.mem_cons_of_mem _ hn))

/-- A block is written in braces. -/
lemma braced_inBraces {body : Block}
    (h : ∀ node ∈ body, ∀ next, Statement (node.written.map token) next node) :
    Braced ((inBraces (writtenBlock body)).map token) body := by
  have hbraced := Braced.mk (l := token (.mark .leftBrace)) (r := token (.mark .rightBrace)) rfl
    (program_writtenBlock h _) rfl
  simpa [inBraces] using hbraced

/-- An arm is written as its condition and its body. -/
lemma arm_written {branch : Branch Node}
    (hcondition : ∀ next, Value (branch.condition.written.map token) next branch.condition)
    (hbody : ∀ node ∈ branch.body, ∀ next, Statement (node.written.map token) next node) :
    Arm ((branch.condition.written ++ inBraces (writtenBlock branch.body)).map token) branch := by
  rw [List.map_append]
  exact .mk (.term (.value (hcondition _))) (braced_inBraces hbody)

/-- The last block of a conditional is written after `else`. -/
private lemma elseArms_writtenOtherwise {otherwise : Option Block}
    (h : ∀ body ∈ otherwise, ∀ node ∈ body, ∀ next,
      Statement (node.written.map token) next node) :
    ElseArms ((writtenOtherwise otherwise).map token) [] otherwise := by
  cases otherwise with
  | none => exact .nil
  | some body => exact .otherwise rfl (braced_inBraces (h body rfl))

/-- The arms after the first one of a conditional that is written are those of the grammar. -/
private lemma elseArms_writtenArms {branches : List (Branch Node)} {otherwise : Option Block}
    (hconditions : ∀ branch ∈ branches, ∀ next,
      Value (branch.condition.written.map token) next branch.condition)
    (hbodies : ∀ branch ∈ branches, ∀ node ∈ branch.body, ∀ next,
      Statement (node.written.map token) next node)
    (hotherwise : ∀ body ∈ otherwise, ∀ node ∈ body, ∀ next,
      Statement (node.written.map token) next node) :
    ElseArms ((writtenArms branches ++ writtenOtherwise otherwise).map token) branches
      otherwise := by
  induction branches with
  | nil => exact elseArms_writtenOtherwise hotherwise
  | cons branch branches ih =>
    have harm := arm_written (hconditions branch (by simp)) (hbodies branch (by simp))
    have harms := ih (fun b hb => hconditions b (List.mem_cons_of_mem _ hb))
      fun b hb => hbodies b (List.mem_cons_of_mem _ hb)
    have hcons := ElseArms.cons (e := token (.keyword .else_)) (i := token (.keyword .if_)) rfl rfl
      harm harms
    simpa [Node.writtenArms_cons] using hcons

end Grammar

namespace Node

open Grammar
open Kind (token)

variable {P : Float → Prop} {node : Node}

/-- **What is written for an expression is a value** of the grammar, whatever comes next. -/
theorem IsExpression.value (h : node.IsExpression P) :
    ∀ next, Value (node.written.map token) next node := by
  induction h with
  | literal =>
    intro next
    rw [written]
    exact .number rfl
  | @name id =>
    intro next
    have hclosed : ¬ Opens (some (token (.mark .rightParen))) := by rintro ⟨⟩
    have hname : Value [token (.identifier id)] (some (token (.mark .rightParen))) (.name id) :=
      .name rfl hclosed
    rw [written]
    exact .group rfl (.term (.value hname)) rfl
  | @binary op left right _ _ ihleft ihright =>
    intro next
    have hinner : ∀ next, Expression
        (left.written.map token ++ token (.operator op) :: right.written.map token) next
        (.binary op left right) := by
      intro next
      by_cases htight : op.Tight
      · exact .term (.product (.value (ihleft _)) rfl htight (ihright next))
      · exact .sum (.term (.value (ihleft _))) rfl htight (.value (ihright next))
    have hgroup : Value _ next (.binary op left right) :=
      .group (l := token (.mark .leftParen)) (r := token (.mark .rightParen)) rfl (hinner _) rfl
    simpa [written] using hgroup
  | @call callee arguments _ _ ih =>
    intro next
    have hclosed : ¬ Opens (some (token (.mark .rightParen))) := by rintro ⟨⟩
    have hlist : Listing (([.mark .comma].intercalate (arguments.map written)).map token)
        (some (token (.mark .rightParen))) (arguments.map id) :=
      listing_intercalate hclosed fun a ha next _ => .term (.value (ih a ha next))
    rw [List.map_id] at hlist
    have hcall : Value _ next (.call callee arguments) :=
      .call (t := token (.identifier callee)) (l := token (.mark .leftParen)) rfl rfl hlist rfl
    simpa [written_call] using hcall

/-- **What is written for a statement is that statement** of the grammar, whatever comes next. -/
theorem IsStatement.statement (h : node.IsStatement P) :
    ∀ next, Statement (node.written.map token) next node := by
  induction h with
  | expression h => exact fun next => .expression (.term (.value (h.value next)))
  | declare _ hvalue =>
    intro next
    rw [written]
    exact .declare rfl rfl rfl (.term (.value (hvalue.value next)))
  | @define id params body _ _ _ ih =>
    intro next
    have hclosed : ¬ Opens (some (token (.mark .rightParen))) := by rintro ⟨⟩
    have hlist : Listing (([.mark .comma].intercalate
        (params.map fun param => [Kind.identifier param])).map token)
        (some (token (.mark .rightParen))) (params.map .name) :=
      listing_intercalate hclosed fun _ _ next hnext => .term (.value (.name rfl hnext))
    have hdefine : Statement _ next (.define ⟨id, params, body⟩) :=
      .define (k := token (.keyword .fn)) (n := token (.identifier id))
        (l := token (.mark .leftParen)) rfl rfl rfl hlist rfl (braced_inBraces ih)
    simpa [written_define] using hdefine
  | @choose branches otherwise hne hconditions _ _ ihbodies ihotherwise =>
    intro next
    obtain ⟨branch, branches, rfl⟩ := List.exists_cons_of_ne_nil hne
    have harm := arm_written (hconditions branch (by simp)).value (ihbodies branch (by simp))
    have harms := elseArms_writtenArms
      (fun b hb => (hconditions b (List.mem_cons_of_mem _ hb)).value)
      (fun b hb => ihbodies b (List.mem_cons_of_mem _ hb)) ihotherwise
    have hchoose : Statement _ next (.choose (branch :: branches) otherwise) :=
      .choose (k := token (.keyword .if_)) rfl harm harms
    simpa [written_choose, writtenArms_cons] using hchoose
  | @loop condition body hcondition _ ih =>
    intro next
    have harm : Arm _ ⟨condition, body⟩ := arm_written hcondition.value ih
    rw [written_loop]
    exact .loop (.inl rfl) harm

/-! ## Written nodes are legible -/

/-- What holds of lists and of a separator holds of the lists with the separator between them. -/
lemma forall_mem_intercalate {Q : Kind → Prop} {sep : List Kind} (hsep : ∀ k ∈ sep, Q k) :
    ∀ {lists : List (List Kind)}, (∀ list ∈ lists, ∀ k ∈ list, Q k) →
      ∀ k ∈ sep.intercalate lists, Q k
  | [], _ => by simp
  | [list], h => by simpa using h
  | list :: next :: lists, h => by
    have hrest := forall_mem_intercalate hsep fun l hl => h l (List.mem_cons_of_mem _ hl)
    rw [List.intercalate_cons_cons]
    exact List.forall_mem_append.2
      ⟨List.forall_mem_append.2 ⟨h list (by simp), hsep⟩, hrest⟩

/-- What holds of the kinds of all statements holds of the kinds of a block. -/
lemma forall_mem_writtenBlock {Q : Kind → Prop} {block : Block}
    (h : ∀ node ∈ block, ∀ k ∈ node.written, Q k) : ∀ k ∈ writtenBlock block, Q k := by
  intro k hk
  obtain ⟨node, hnode, hmem⟩ := List.mem_flatMap.1 hk
  exact h node hnode k hmem

/-- Braces are legible around what is. -/
lemma legible_inBraces {kinds : List Kind} (h : ∀ k ∈ kinds, k.Legible) :
    ∀ k ∈ inBraces kinds, k.Legible := by
  refine List.forall_mem_cons.2 ⟨trivial, List.forall_mem_append.2 ⟨h, ?_⟩⟩
  exact List.forall_mem_singleton.2 trivial

/-- The tokens of an expression are legible. -/
lemma IsExpression.legible (h : node.IsExpression Number.ReadsBack) :
    ∀ k ∈ node.written, k.Legible := by
  induction h with
  | literal hvalue =>
    rw [written]
    exact List.forall_mem_singleton.2 hvalue
  | name hname =>
    rw [written]
    simpa [Kind.Legible] using hname
  | binary _ _ ihleft ihright =>
    rw [written]
    refine List.forall_mem_cons.2 ⟨trivial, List.forall_mem_append.2 ⟨ihleft, ?_⟩⟩
    refine List.forall_mem_cons.2 ⟨trivial, List.forall_mem_append.2 ⟨ihright, ?_⟩⟩
    exact List.forall_mem_singleton.2 trivial
  | call hname _ ih =>
    rw [written_call]
    refine List.forall_mem_cons.2 ⟨hname, List.forall_mem_cons.2 ⟨trivial, ?_⟩⟩
    refine List.forall_mem_append.2 ⟨?_, List.forall_mem_singleton.2 trivial⟩
    exact forall_mem_intercalate (List.forall_mem_singleton.2 trivial) (List.forall_mem_map.2 ih)

/-- The tokens of the arms of a conditional are legible. -/
private lemma legible_writtenArms {branches : List (Branch Node)}
    (hconditions : ∀ branch ∈ branches, ∀ k ∈ branch.condition.written, k.Legible)
    (hbodies : ∀ branch ∈ branches, ∀ node ∈ branch.body, ∀ k ∈ node.written, k.Legible) :
    ∀ k ∈ writtenArms branches, k.Legible := by
  induction branches with
  | nil =>
    rw [writtenArms]
    exact List.forall_mem_nil _
  | cons branch branches ih =>
    have hrest := ih (fun b hb => hconditions b (List.mem_cons_of_mem _ hb))
      fun b hb => hbodies b (List.mem_cons_of_mem _ hb)
    rw [writtenArms_cons]
    refine List.forall_mem_cons.2 ⟨trivial, List.forall_mem_cons.2 ⟨trivial, ?_⟩⟩
    refine List.forall_mem_append.2 ⟨List.forall_mem_append.2 ⟨?_, ?_⟩, hrest⟩
    · exact hconditions branch (by simp)
    · exact legible_inBraces (forall_mem_writtenBlock (hbodies branch (by simp)))

/-- The tokens of a statement are legible. -/
lemma IsStatement.legible (h : node.IsStatement Number.ReadsBack) :
    ∀ k ∈ node.written, k.Legible := by
  induction h with
  | expression h => exact h.legible
  | declare hname hvalue =>
    rw [written]
    refine List.forall_mem_cons.2 ⟨trivial, List.forall_mem_cons.2 ⟨hname, ?_⟩⟩
    exact List.forall_mem_cons.2 ⟨trivial, hvalue.legible⟩
  | define hname hparams _ ih =>
    rw [written_define]
    refine List.forall_mem_cons.2 ⟨trivial, List.forall_mem_cons.2 ⟨hname, ?_⟩⟩
    refine List.forall_mem_cons.2 ⟨trivial, List.forall_mem_append.2 ⟨?_, ?_⟩⟩
    · refine forall_mem_intercalate (List.forall_mem_singleton.2 trivial) ?_
      exact List.forall_mem_map.2 fun param hparam =>
        List.forall_mem_singleton.2 (hparams param hparam)
    · exact List.forall_mem_cons.2 ⟨trivial, legible_inBraces (forall_mem_writtenBlock ih)⟩
  | @choose branches otherwise _ hconditions _ _ ihbodies ihotherwise =>
    rw [written_choose]
    refine List.forall_mem_append.2 ⟨fun k hk => ?_, ?_⟩
    · exact legible_writtenArms (fun b hb => (hconditions b hb).legible) ihbodies k
        (List.mem_of_mem_tail hk)
    · cases otherwise with
      | none => exact List.forall_mem_nil _
      | some body =>
        refine List.forall_mem_cons.2 ⟨trivial, legible_inBraces ?_⟩
        exact forall_mem_writtenBlock (ihotherwise body rfl)
  | loop hcondition _ ih =>
    rw [written_loop]
    refine List.forall_mem_cons.2 ⟨trivial, List.forall_mem_append.2 ⟨hcondition.legible, ?_⟩⟩
    exact legible_inBraces (forall_mem_writtenBlock ih)

end Node

/-! ## Programs and their text -/

namespace Session

open Node (Shaped writtenBlock)

/-- **Programs and their text.**  A shaped block whose numbers are finite and read back from their
own text is read back from its text, within every limit that the nesting of the text keeps to; and
every block that is read from a script is shaped.

**Proof sketch.** The tokens of the text have the kinds that the block was written as, and what was
written spells the block by the grammar, which looks at kinds only.  Conversely the programs of the
grammar are shaped, and the names among the tokens of a script are names. -/
theorem program_round_trip :
    (∀ block : Block, Shaped Number.ReadsBack block → ∀ limit : Nat,
        Kind.nesting (writtenBlock block) ≤ limit →
        program limit (Node.text block) = .ok block) ∧
      ∀ (limit : Nat) (source : String) (block : Block), program limit source = .ok block →
        Shaped (fun _ => True) block := by
  constructor
  · intro block h limit hlimit
    obtain ⟨tokens, hscan, hkinds⟩ := Token.scan_text
      (Node.forall_mem_writtenBlock fun node hnode => (h node hnode).legible) .start
    refine program_eq_ok_iff.2 ⟨tokens, ?_, Node.parse_ok_iff_nesting_le.2 ⟨?_, ?_⟩⟩
    · rw [Token.tokenize, Node.text, String.toList_ofList]
      exact hscan
    · have hprogram := Grammar.program_writtenBlock
        (fun node hnode => (h node hnode).statement) none
      exact hprogram.transfer (by rw [hkinds, Kind.map_kind_map_token]) fun _ hopens => hopens
    · rw [Token.nesting, hkinds]
      exact hlimit
  · intro limit source block h
    obtain ⟨tokens, htokens, hparse⟩ := program_eq_ok_iff.1 h
    obtain ⟨hprogram, -⟩ := Node.parse_ok_iff_nesting_le.1 hparse
    exact hprogram.shaped (Token.named_of_scan htokens)

/-- A minus sign in front of a negative number, a name in front of a statement that starts with a
parenthesis, and a conditional with all that it can have. -/
theorem program_round_trip_conditional :
    let block : Block :=
      [.declare "a" (.binary .subtract (.literal 1) (.literal (-2.5))), .name "a",
        .define ⟨"f", ["x", "$y"], [.call "f" [.name "x", .literal 0]]⟩,
        .choose [⟨.name "a", []⟩, ⟨.literal 1, [.loop [.name "b"] [.literal 0]]⟩]
          (some [.name "a"])]
    Node.text block = "ref a = ( 1 - -2.5 ) ( a ) fn f ( x , $y ) \x7b f ( ( x ) , 0 ) \x7d " ++
        "if ( a ) \x7b \x7d else if 1 \x7b while ( b ) \x7b 0 \x7d \x7d else \x7b ( a ) \x7d" ∧
      program 3 (Node.text block) = .ok block ∧ Shaped (fun _ => True) block := by
  intro block
  have hzero : Number.ReadsBack 0 := ⟨rfl, rfl⟩
  have hone : Number.ReadsBack 1 := ⟨rfl, rfl⟩
  have hnegative : Number.ReadsBack (-2.5) := ⟨rfl, rfl⟩
  have ha : (Node.name "a").IsExpression Number.ReadsBack := .name (by decide)
  have hcall : (Node.call "f" [.name "x", .literal 0]).IsExpression Number.ReadsBack :=
    .call (by decide) (by simpa using ⟨.name (by decide), .literal hzero⟩)
  have hloop : (Node.loop [.name "b"] [.literal 0]).IsStatement Number.ReadsBack :=
    .loop (.name (by decide)) (by simpa using .expression (.literal hzero))
  have hblock : Shaped Number.ReadsBack block := by
    simp only [block, Shaped, List.forall_mem_cons]
    refine ⟨.declare (by decide) (.binary (.literal hone) (.literal hnegative)), .expression ha,
      .define (by decide) (by decide) (by simpa using .expression hcall), ?_,
      List.forall_mem_nil _⟩
    refine .choose (by simp) (by simpa using ⟨ha, .literal hone⟩) (by simpa using hloop) ?_
    simpa using .expression ha
  have hprogram := program_round_trip.1 block hblock 3 (by decide)
  exact ⟨by decide +kernel, hprogram, program_round_trip.2 3 _ block hprogram⟩

end Session

end Abacus
