import Mathlib.Data.List.Forall2
import Mathlib.Tactic.Common
import Abacus.Proofs.FrameUnion
import Abacus.Proofs.Moments

/-!
# When the two scopings agree

With shared names a call binds its parameters in the one table there is and unbinds them when it
ends, whatever they stood for before.  With frames it has a frame of its own.  The two give
different answers only if names clash.  As long as the evaluation with frames meets no clash, the
evaluation with shared names goes through the same moments and ends in the same way, and at each of
the moments its table is the union of the frames.

## Main definitions

* `Abacus.Moment.Corresponds` — the same moment, with frames and with the union of the frames.
* `Abacus.Eval.ScopesAgree` — an evaluation that keeps environments merged.

## Main results

* `Abacus.Eval.ScopesAgree.bind`, `insideCall` — one evaluation after the other, and calls.
* `Abacus.Node.scopesAgree_evaluate` — evaluation keeps environments merged.
* `Abacus.Node.scopings_agree` — programs whose names do not clash.
-/

namespace Abacus

open Environment

/-- The same thing happens in the same calls, with frames and with the union of the frames. -/
structure Moment.Corresponds (framed shared : Moment) : Prop where
  event_eq : framed.event = shared.event
  calls_eq : framed.calls = shared.calls
  locals_shared : shared.environment.locals = []
  union : Frame.IsUnion framed.environment.frames shared.environment.globals

/-- Moments with merged environments correspond. -/
lemma Environment.Merged.corresponds {calls : List Function} {framed shared : Environment}
    (h : Merged calls framed shared) (event : Event) (inside : List Function) :
    Moment.Corresponds ⟨event, inside, framed⟩ ⟨event, inside, shared⟩ :=
  ⟨rfl, rfl, h.locals_shared, h.union⟩

namespace Eval

variable {α β : Type}

/-- An evaluation that, unless names clash with frames, does the same in merged environments and
leaves them merged. -/
def ScopesAgree (calls : List Function) (x : Eval α) (course : Course) : Prop :=
  ∀ ⦃framed shared : Environment⦄, Merged calls framed shared →
    (∀ m ∈ course framed, m.NoClash) →
      List.Forall₂ Moment.Corresponds (course framed) (course shared) ∧
        Fits (Merged calls) (fun _ => True) (fun _ => False) (x framed) (x shared)

namespace ScopesAgree

variable {calls : List Function}

/-! ## Putting evaluations together -/

/-- What is coupled under merged environments agrees, where nothing happens. -/
lemma of_coupled {x : Eval α}
    (h : Coupled (Merged calls) (fun _ => True) (fun _ => False) x x) :
    ScopesAgree calls x .silent :=
  fun _ _ hmerged _ => ⟨.nil, h hmerged⟩

/-- A value agrees with itself. -/
lemma pure (a : α) : ScopesAgree calls (Pure.pure a) .silent := of_coupled (.pure a)

/-- A failure agrees with itself. -/
lemma throw (stop : Stop) : ScopesAgree calls (MonadExcept.throw stop : Eval α) .silent :=
  of_coupled (.throw trivial)

/-- Evaluation in two steps agrees if both steps do. -/
theorem bind {x : Eval α} {next : α → Eval β} {course : Course} {courses : α → Course}
    (h : ScopesAgree calls x course)
    (hnext : ∀ a env after, x env = .ok a after → ScopesAgree calls (next a) (courses a)) :
    ScopesAgree calls (x >>= next) (course.followedBy x courses) := by
  intro framed shared hmerged hclash
  obtain ⟨hfirst, hrest⟩ := List.forall_mem_append.1 hclash
  obtain ⟨hmoments, hfits⟩ := h hmerged hfirst
  have hcontinue := fun a after => hnext a framed after
  rw [bind_run, bind_run]
  unfold Course.followedBy
  generalize x framed = r, x shared = r' at hfits hrest hcontinue
  cases hfits with
  | ok hinv =>
    obtain ⟨hmoments', hfits'⟩ := hcontinue _ _ rfl hinv hrest
    exact ⟨List.rel_append hmoments hmoments', hfits'⟩
  | error _ hinv => exact ⟨List.rel_append hmoments .nil, .error trivial hinv⟩
  | lost hlost => exact hlost.elim

/-- What follows may be silent. -/
lemma bind_silent {x : Eval α} {next : α → Eval β} {course : Course}
    (h : ScopesAgree calls x course) (hnext : ∀ a, ScopesAgree calls (next a) .silent) :
    ScopesAgree calls (x >>= next) course := by
  rw [← Course.followedBy_silent course x]
  exact h.bind fun a _ _ _ => hnext a

/-! ## The rules -/

section Rules

variable {f : Node → Eval Float} {course : Node → Course}

/-- Nodes that are evaluated one after the other agree if each of them does. -/
lemma values (h : ∀ node, ScopesAgree calls (f node) (course node)) (nodes : List Node) :
    ScopesAgree calls (Eval.values f nodes) (Course.sequence f course nodes) := by
  induction nodes with
  | nil => exact pure []
  | cons node nodes ih => exact (h node).bind fun _ _ _ _ => ih.bind_silent fun _ => pure _

/-- A block agrees if its statements do. -/
lemma block (h : ∀ node, ScopesAgree calls (f node) (course node)) (body : Block) :
    ScopesAgree calls (Eval.block f body) (Course.sequence f course body) := by
  induction body with
  | nil => exact throw _
  | cons node body ih =>
    cases body with
    | nil =>
      rw [Course.sequence, Course.sequence, Course.followedBy_silent]
      exact h node
    | cons next body => exact (h node).bind fun _ _ _ _ => ih

/-- A chain of operations agrees if its operands do. -/
lemma applyLinks (h : ∀ node, ScopesAgree calls (f node) (course node)) {links : List Link} :
    ∀ value, ScopesAgree calls (Eval.applyLinks f value links)
      (Course.sequence f course (links.map (·.operand))) := by
  induction links with
  | nil => exact pure
  | cons link links ih => exact fun value => (h link.operand).bind fun _ _ _ _ => ih _

/-- A condition agrees if its node does. -/
lemma holds {condition : Node} (h : ScopesAgree calls (f condition) (course condition)) :
    ScopesAgree calls (Eval.holds f condition) (course condition) :=
  h.bind_silent fun _ => pure _

/-- Conditions agree if each of them does. -/
lemma allHold (h : ∀ node, ScopesAgree calls (f node) (course node)) (conditions : List Node) :
    ScopesAgree calls (Eval.allHold f conditions) (Course.sequence f course conditions) := by
  induction conditions with
  | nil => exact pure true
  | cons condition conditions ih =>
    rw [Course.sequence, ← Course.followedBy_holds]
    exact (holds (h condition)).bind fun _ _ _ _ => ih.bind_silent fun _ => pure _

/-- A conditional agrees if its conditions and blocks do. -/
lemma choose (h : ∀ node, ScopesAgree calls (f node) (course node)) (otherwise : Option Block)
    (branches : List (Branch Node)) :
    ScopesAgree calls (Eval.choose f otherwise branches)
      (Course.choose f course otherwise branches) := by
  induction branches with
  | nil =>
    cases otherwise with
    | none => exact pure _
    | some body => exact block h body
  | cons branch branches ih =>
    refine (holds (h branch.condition)).bind fun held _ _ _ => ?_
    cases held with
    | true => exact block h branch.body
    | false => exact ih

/-- The rounds of a loop agree if its conditions and its body do. -/
lemma rounds (h : ∀ node, ScopesAgree calls (f node) (course node)) (stop : Stop)
    (conditions : List Node) (body : Block) (count : Nat) :
    ∀ last, ScopesAgree calls (Eval.rounds f stop conditions body count last)
      (Course.rounds f course conditions body count) := by
  induction count with
  | zero =>
    refine fun last => (allHold h conditions).bind_silent fun held => ?_
    cases held with
    | true => exact throw stop
    | false => exact pure last
  | succ count ih =>
    refine fun last => (allHold h conditions).bind fun held _ _ _ => ?_
    cases held with
    | true => exact (block h body).bind fun value _ _ _ => ih value
    | false => exact pure last

/-- Merged environments have the same limits, so that loops run equally often. -/
lemma loop (h : ∀ node, ScopesAgree calls (f node) (course node)) (patience : Nat)
    (conditions : List Node) (body : Block) :
    ScopesAgree calls (Eval.loop f patience conditions body)
      (Course.loop f course patience conditions body) := by
  intro framed shared hmerged hclash
  have hmost : mostRounds patience framed = mostRounds patience shared := by
    rw [mostRounds, mostRounds, hmerged.limits_eq]
  have hstop : roundsStop framed = roundsStop shared := by
    rw [roundsStop, roundsStop, hmerged.limits_eq]
  rw [loop_run, loop_run, Course.loop, Course.loop, ← hmost, ← hstop]
  exact rounds h (roundsStop framed) conditions body _ 0 hmerged hclash

end Rules

/-! ## Calls -/

/-- There are as many values as nodes. -/
private lemma length_values {f : Node → Eval Float} {nodes : List Node} :
    ∀ {env after : Environment} {found : List Float},
      Eval.values f nodes env = .ok found after → found.length = nodes.length := by
  induction nodes with
  | nil =>
    rintro env after found ⟨⟩
    rfl
  | cons node nodes ih =>
    intro env after found h
    rw [Eval.values, bind_run] at h
    cases hfirst : f node env with
    | error stop env' =>
      rw [hfirst] at h
      cases h
    | ok value env' =>
      simp only [hfirst, bind_run] at h
      cases hothers : Eval.values f nodes env' with
      | error stop env'' =>
        rw [hothers] at h
        cases h
      | ok others env'' =>
        rw [hothers] at h
        cases h
        exact congrArg (· + 1) (ih hothers)

/-- A call whose parameters do not clash keeps environments merged, from the moment in which it
starts to the moment in which it ends. -/
theorem insideCall {fn : Function} {found : List Float} {body : Eval Float} {inner : Course}
    (hlength : fn.params.length = found.length) (hbody : ScopesAgree (fn :: calls) body inner) :
    ScopesAgree calls (Eval.insideCall fn found body)
      (Course.insideCall calls fn found inner body) := by
  intro framed shared hmerged hclash
  unfold Course.insideCall at hclash ⊢
  unfold Eval.insideCall
  cases henter : framed.enterCall fn found with
  | error e =>
    rw [hmerged.enterCall_error henter]
    exact ⟨.nil, .error trivial hmerged⟩
  | ok inside =>
    simp only [henter, List.forall_mem_cons, List.forall_mem_append] at hclash
    obtain ⟨hfree, -, hinner, -⟩ := hclash
    have hparams : ∀ name ∈ fn.params, ∀ frame ∈ framed.frames, frame.get? name = none :=
      fun name hname frame hframe => Frame.contains_eq_false_iff.1 (hfree name hname frame hframe)
    obtain ⟨inside', henter', hmerged'⟩ := hmerged.enterCall hparams hlength henter
    obtain ⟨hmoments, hfits⟩ := hbody hmerged' hinner
    simp only [henter']
    refine ⟨.cons (hmerged.corresponds _ _) (.cons (hmerged'.corresponds _ _)
      (List.rel_append hmoments (.cons (hfits.final.corresponds _ _) .nil))), ?_⟩
    generalize body inside = r, body inside' = r' at hfits
    cases hfits with
    | ok hinv => exact .ok hinv.leaveCall
    | error _ hinv => exact .error trivial hinv.leaveCall
    | lost hlost => exact hlost.elim

/-- A call agrees if nodes do, whatever calls are in progress. -/
lemma call {f : Node → Eval Float} {course : List Function → Node → Course}
    (h : ∀ calls node, ScopesAgree calls (f node) (course calls node)) (callee : String)
    (arguments : List Node) :
    ScopesAgree calls (Eval.call f callee arguments)
      (Course.call f course calls callee arguments) := by
  intro framed shared hmerged hclash
  unfold Course.call at hclash ⊢
  rw [call_run, call_run, ← hmerged.functionOf]
  cases hfn : framed.functionOf callee with
  | error e => exact ⟨.nil, .error trivial hmerged⟩
  | ok fn =>
    simp only [hfn] at hclash ⊢
    by_cases hlength : fn.params.length = arguments.length
    · simp only [if_pos hlength] at hclash ⊢
      refine ((values (h calls) arguments).bind fun found _ _ hfound => ?_) hmerged hclash
      exact insideCall (hlength.trans (length_values hfound).symm) (block (h (fn :: calls)) fn.body)
    · simp only [if_neg hlength]
      exact ⟨.nil, .error trivial hmerged⟩

end ScopesAgree

end Eval

namespace Node

open Eval

/-! ## Evaluation -/

/-- A statement that binds a name is safe unless the name clashes. -/
lemma scopesAgree_bind {calls : List Function} (id : String) (b : Binding) (value : Float) :
    ScopesAgree calls (do modify (·.declare id b); return value)
      (fun env => [⟨.bind id, calls, env⟩]) := by
  intro framed shared hmerged hclash
  have hname : ∀ f ∈ calls.tail, id ∉ f.params := hclash _ (List.mem_singleton.2 rfl)
  exact ⟨.cons (hmerged.corresponds _ _) .nil, .ok (hmerged.declare b hname)⟩

/-- The rule of a node keeps environments merged if the evaluations of inner nodes do. -/
private lemma scopesAgree_step {f : Node → Eval Float} {course : List Function → Node → Course}
    (h : ∀ calls node, ScopesAgree calls (f node) (course calls node)) (patience : Nat)
    (calls : List Function) (node : Node) :
    ScopesAgree calls (step patience f node) (stepMoments patience f course calls node) := by
  cases node with
  | literal value => exact .pure value
  | name id =>
    refine .of_coupled (.find (fun _ _ hmerged => ?_) fun _ _ _ _ _ => trivial)
    exact hmerged.valueOf id
  | binary op left right =>
    exact (h calls left.leftmost).bind fun value _ _ _ => .applyLinks (h calls) value
  | call callee arguments => exact .call h callee arguments
  | declare id value =>
    exact (h calls value).bind fun found _ _ _ => scopesAgree_bind id (.number found) found
  | define fn => exact scopesAgree_bind fn.name (.function fn) 0
  | choose branches otherwise => exact .choose (h calls) otherwise branches
  | loop conditions body => exact .loop (h calls) patience conditions body
  | block body => exact .block (h calls) body

/-- **Evaluation keeps environments merged**, unless names clash.

**Proof sketch.** Induction on how deeply evaluations may be nested: the rule of a node keeps
environments merged, and so do the moments in which its evaluation starts and is done. -/
theorem scopesAgree_evaluate (patience depth : Nat) : ∀ (calls : List Function) (node : Node),
    ScopesAgree calls (evaluate patience depth node) (moments patience depth calls node) := by
  induction depth with
  | zero => exact fun _ _ => .throw _
  | succ depth ih =>
    intro calls node framed shared hmerged hclash
    simp only [moments, List.forall_mem_cons, List.forall_mem_append] at hclash
    obtain ⟨-, hinner, -⟩ := hclash
    obtain ⟨hmoments, hfits⟩ := scopesAgree_step ih patience calls node hmerged hinner
    have hevaluate : Fits (Merged calls) (fun _ => True) (fun _ => False)
        (evaluate patience (depth + 1) node framed) (evaluate patience (depth + 1) node shared) :=
      hfits
    refine ⟨.cons (hmerged.corresponds _ _) (List.rel_append hmoments (.cons ?_ .nil)), hevaluate⟩
    rw [hevaluate.outcome_eq]
    exact hevaluate.final.corresponds _ _

/-- **The two scopings agree unless names clash.**  Take any block and any global bindings.  If with
frames no call starts while one of its parameters is bound in some frame, and no statement binds a
parameter of a call in progress other than the innermost, then the block ends in the same way with
shared names.  It goes through the same moments, at each of which the shared table is the union of
the frames, and these bind different names.  In the end the global bindings are the same. -/
theorem scopings_agree (patience : Nat) (body : Block) (globals : Frame) (limits : Limits)
    (hclash : ∀ m ∈ blockMoments patience body ⟨globals, [], .frames, limits, 0⟩, m.NoClash) :
    let framed : Environment := ⟨globals, [], .frames, limits, 0⟩
    let shared : Environment := ⟨globals, [], .shared, limits, 0⟩
    outcome (runBlock patience body framed) = outcome (runBlock patience body shared) ∧
      List.Forall₂ Moment.Corresponds (blockMoments patience body framed)
        (blockMoments patience body shared) ∧
      ∀ name, (final (runBlock patience body framed)).globals.get? name =
        (final (runBlock patience body shared)).globals.get? name := by
  intro framed shared
  have hmerged : Merged [] framed shared := ⟨rfl, rfl, rfl, rfl, rfl, .singleton globals, .nil⟩
  -- both blocks have the same reach, as the scoping has no part in it
  have hagree : ScopesAgree [] (Eval.block (evaluate patience (framed.reach body)) body)
      (Course.sequence (evaluate patience (framed.reach body))
        (moments patience (framed.reach body) []) body) :=
    .block (scopesAgree_evaluate patience _ []) body
  obtain ⟨hmoments, hfits⟩ := hagree hmerged hclash
  exact ⟨hfits.outcome_eq, hmoments, hfits.final.get?_globals⟩

/-- A call inside a call, where the outer one binds its own parameter anew and the inner one a name
that is no parameter: no names clash. -/
theorem scopings_agree_nested_calls :
    let g : Function := ⟨"g", ["z"], [.declare "y" (.name "z")]⟩
    let f : Function := ⟨"f", ["x"], [.declare "x" (.literal 5), .call "g" [.name "x"]]⟩
    let body : Block := [.define g, .define f, .call "f" [.literal 1]]
    let framed : Environment := ⟨.empty, [], .frames, ⟨2, 1, none⟩, 0⟩
    let shared : Environment := ⟨.empty, [], .shared, ⟨2, 1, none⟩, 0⟩
    (∀ m ∈ blockMoments 0 body framed, m.NoClash) ∧
      outcome (runBlock 0 body framed) = .ok 5 ∧ outcome (runBlock 0 body shared) = .ok 5 ∧
      List.Forall₂ Moment.Corresponds (blockMoments 0 body framed) (blockMoments 0 body shared) ∧
      ∀ name, (final (runBlock 0 body framed)).globals.get? name =
        (final (runBlock 0 body shared)).globals.get? name := by
  intro g f body framed shared
  have hclash : ∀ m ∈ blockMoments 0 body framed, m.NoClash := by decide
  have hvalue : outcome (runBlock 0 body framed) = .ok 5 := by rfl
  obtain ⟨houtcome, hmoments, hglobals⟩ := scopings_agree 0 body .empty ⟨2, 1, none⟩ hclash
  exact ⟨hclash, hvalue, houtcome ▸ hvalue, hmoments, hglobals⟩

end Node

end Abacus
