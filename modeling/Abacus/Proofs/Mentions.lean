import Mathlib.Data.Set.Basic
import Mathlib.Tactic.Common
import Abacus.Proofs.Occurrences
import Abacus.Proofs.RelatedFrames

/-!
# What a script does not mention

A node looks up and binds no other names than those that occur in it, and in the functions that it
comes to call.  Let a set of names hold all of these.  Then evaluation cannot tell two environments
apart that agree on the set, and it leaves what other names stand for alone.

## Main definitions

* `Abacus.Environment.AgreeOn` — environments that agree on some names, frame by frame.
* `Abacus.Environment.ClosedUnder` — functions bound to some names mention only these.
* `Abacus.Environment.Insulated` — how two evaluations go on together.

## Main results

* `Abacus.Environment.Insulated.declare`, `inside`, `leaveCall` — what the evaluations do.
* `Abacus.Node.evaluate_coupled_insulated` — evaluations in environments that agree.
* `Abacus.Node.unmentioned_names_have_no_part` — names that a node does not mention.
-/

namespace Abacus

/-! ## Frames that agree on some names -/

/-- A binding that mentions only the given names, if it is a function. -/
def Binding.MentionsOnly (V : Set String) : Binding → Prop
  | number _ => True
  | function fn => ∀ id ∈ (Node.define fn).names, id ∈ V

namespace Frame

variable {V : Set String} {f g : Frame} {name : String}

/-- Frames in which the given names stand for the same. -/
def AgreeOn (V : Set String) (f g : Frame) : Prop := ∀ name ∈ V, f.get? name = g.get? name

/-- What the given names stand for mentions only these names. -/
def ClosedUnder (V : Set String) (f : Frame) : Prop :=
  ∀ name ∈ V, ∀ b, f.get? name = some b → b.MentionsOnly V

/-- A frame agrees with itself. -/
lemma AgreeOn.refl (V : Set String) (f : Frame) : f.AgreeOn V f := fun _ _ => rfl

/-- Frames that agree hold the same of the names. -/
lemma AgreeOn.contains_eq (h : f.AgreeOn V g) (hname : name ∈ V) :
    f.contains name = g.contains name := by
  rw [contains, contains, h name hname]

/-- Frames still agree after the same insertion. -/
lemma AgreeOn.insert (h : f.AgreeOn V g) (name : String) (b : Binding) :
    (f.insert name b).AgreeOn V (g.insert name b) := by
  intro other hother
  rw [get?_insert, get?_insert, h other hother]

/-- Frames still agree after the same name is erased. -/
lemma AgreeOn.erase (h : f.AgreeOn V g) (name : String) :
    (f.erase name).AgreeOn V (g.erase name) := by
  intro other hother
  rw [get?_erase, get?_erase, h other hother]

/-- Binding another name changes nothing. -/
lemma AgreeOn.insert_right (h : f.AgreeOn V g) (hname : name ∉ V) (b : Binding) :
    f.AgreeOn V (g.insert name b) := by
  intro other hother
  have hne : other ≠ name := ne_of_mem_of_not_mem hother hname
  rw [get?_insert, if_neg hne, h other hother]

/-- Unbinding another name changes nothing. -/
lemma AgreeOn.erase_right (h : f.AgreeOn V g) (hname : name ∉ V) :
    f.AgreeOn V (g.erase name) := by
  intro other hother
  have hne : other ≠ name := ne_of_mem_of_not_mem hother hname
  rw [get?_erase, if_neg hne, h other hother]

/-- Frames that agree on the given names, which mention only each other. -/
def Alike (V : Set String) (f g : Frame) : Prop := f.ClosedUnder V ∧ f.AgreeOn V g

/-- Empty frames are alike. -/
lemma Alike.empty (V : Set String) : Alike V .empty .empty := ⟨nofun, .refl V _⟩

/-- Frames are still alike after the same insertion of what mentions only the names. -/
lemma Alike.insert (h : Alike V f g) (name : String) {b : Binding} (hb : b.MentionsOnly V) :
    Alike V (f.insert name b) (g.insert name b) := by
  refine ⟨fun other hother c hc => ?_, h.2.insert name b⟩
  rw [get?_insert] at hc
  split at hc
  · cases hc
    exact hb
  · exact h.1 other hother c hc

/-- Frames are still alike after the same name is erased. -/
lemma Alike.erase (h : Alike V f g) (name : String) : Alike V (f.erase name) (g.erase name) := by
  refine ⟨fun other hother c hc => ?_, h.2.erase name⟩
  rw [get?_erase] at hc
  split at hc
  · cases hc
  · exact h.1 other hother c hc

end Frame

namespace Environment

variable {V : Set String} {env other : Environment}

/-! ## Environments that agree on some names -/

/-- Environments with the same scoping, limits, calls in progress and number of frames, in which the
given names stand for the same in every frame. -/
abbrev AgreeOn (V : Set String) (env other : Environment) : Prop :=
  FramesRelated (Frame.AgreeOn V) env other

/-- Functions that are bound to the given names mention only these names. -/
def ClosedUnder (V : Set String) (env : Environment) : Prop := ∀ f ∈ env.frames, f.ClosedUnder V

/-- Environments that agree on a name find the same binding for it. -/
lemma AgreeOn.lookup (h : env.AgreeOn V other) {name : String} (hname : name ∈ V) :
    env.lookup name = other.lookup name := by
  have hframes : List.Forall₂ (Frame.AgreeOn V) env.frames other.frames :=
    List.rel_append h.locals (.cons h.globals .nil)
  unfold Environment.lookup
  generalize env.frames = frames, other.frames = frames' at hframes
  induction hframes with
  | nil => rfl
  | cons hfirst _ ih => rw [List.findSome?_cons, List.findSome?_cons, hfirst name hname, ih]

/-- A function that is found under one of the given names mentions only these. -/
lemma ClosedUnder.functionOf (h : env.ClosedUnder V) {name : String} (hname : name ∈ V)
    {fn : Function} (hfn : env.functionOf name = .ok fn) :
    Binding.MentionsOnly V (.function fn) := by
  unfold Environment.functionOf at hfn
  split at hfn
  · next hlookup =>
    cases hfn
    obtain ⟨f, hf, hfound⟩ := List.exists_of_findSome?_eq_some hlookup
    exact h f hf name hname _ hfound
  · cases hfn

/-- Frame by frame alike means to agree on the names, and to mention no others. -/
lemma framesRelated_alike_iff :
    FramesRelated (Frame.Alike V) env other ↔ env.AgreeOn V other ∧ env.ClosedUnder V := by
  have hframes : env.ClosedUnder V ↔
      env.globals.ClosedUnder V ∧ ∀ f ∈ env.locals, f.ClosedUnder V := by
    simp only [ClosedUnder, frames, List.forall_mem_append, List.forall_mem_singleton]
    exact and_comm
  constructor
  · intro h
    obtain ⟨hclosed, -⟩ := (List.forall₂_and_left _ _).1 h.locals
    exact ⟨h.imp fun _ _ hboth => hboth.2, hframes.2 ⟨h.globals.1, hclosed⟩⟩
  · rintro ⟨h, hclosed⟩
    obtain ⟨hglobals, hlocals⟩ := hframes.1 hclosed
    exact { h with
      globals := ⟨hglobals, h.globals⟩
      locals := (List.forall₂_and_left _ _).2 ⟨hlocals, h.locals⟩ }

/-! ## Two evaluations that go on together -/

/-- How two evaluations go on together that started in the first two environments and have come to
the other two: these agree on the given names, which mention only each other, and the other names
stand for what they stood for at the start. -/
structure Insulated (V : Set String) (start start' env other : Environment) : Prop where
  alike : FramesRelated (Frame.Alike V) env other
  kept : start.AgreeOn Vᶜ env
  kept' : start'.AgreeOn Vᶜ other

namespace Insulated

variable {start start' : Environment}

/-- Insulated environments find the same bindings for the names. -/
lemma lookup (h : Insulated V start start' env other) {name : String} (hname : name ∈ V) :
    env.lookup name = other.lookup name :=
  (framesRelated_alike_iff.1 h.alike).1.lookup hname

/-- Declaring what mentions only the names keeps environments insulated. -/
theorem declare (h : Insulated V start start' env other) {name : String} (hname : name ∈ V)
    {b : Binding} (hb : b.MentionsOnly V) :
    Insulated V start start' (env.declare name b) (other.declare name b) where
  alike := h.alike.declare (fun _ _ hboth => hboth.2.contains_eq hname)
    fun _ _ hboth => hboth.insert name hb
  kept := h.kept.declare_right fun _ _ hagree => hagree.insert_right (fun hnot => hnot hname) b
  kept' := h.kept'.declare_right fun _ _ hagree => hagree.insert_right (fun hnot => hnot hname) b

/-- Starting a call whose parameters are among the given names. -/
theorem inside (h : Insulated V start start' env other) {params : List String}
    (hparams : ∀ name ∈ params, name ∈ V) (arguments : List Float) :
    Insulated V (start.inside [] []) (start'.inside [] []) (env.inside params arguments)
      (other.inside params arguments) where
  alike := h.alike.inside (.empty V) params arguments fun name _ _ _ hboth =>
    hboth.insert name trivial
  kept := h.kept.inside_right (.refl _ _) arguments fun name hname _ _ _ hagree =>
    hagree.insert_right (fun hnot => hnot (hparams name hname)) _
  kept' := h.kept'.inside_right (.refl _ _) arguments fun name hname _ _ _ hagree =>
    hagree.insert_right (fun hnot => hnot (hparams name hname)) _

/-- Ending a call whose parameters are among the given names. -/
theorem leaveCall {fn : Function}
    (h : Insulated V (start.inside [] []) (start'.inside [] []) env other)
    (hparams : ∀ name ∈ fn.params, name ∈ V) :
    Insulated V start start' (env.leaveCall fn) (other.leaveCall fn) where
  alike := h.alike.leaveCall (fun name hname _ _ hboth => hboth.2.contains_eq (hparams name hname))
    fun name _ _ hboth => hboth.erase name
  kept := h.kept.leaveCall_right fun name hname _ _ hagree =>
    hagree.erase_right fun hnot => hnot (hparams name hname)
  kept' := h.kept'.leaveCall_right fun name hname _ _ hagree =>
    hagree.erase_right fun hnot => hnot (hparams name hname)

end Insulated

end Environment

/-! ## Evaluation -/

open Environment Eval

variable {V : Set String}

/-- What a node binds is one of the names in it, and mentions only these. -/
lemma Node.mentionsOnly_of_binds {node : Node} (hnode : ∀ id ∈ node.names, id ∈ V) {id : String}
    {b : Binding} (h : node.Binds id b) : id ∈ V ∧ b.MentionsOnly V := by
  cases node with
  | declare bound value =>
    obtain ⟨rfl, number, rfl⟩ := h
    exact ⟨hnode _ (ownNames_subset_names _ (List.mem_singleton_self _)), trivial⟩
  | define fn =>
    obtain ⟨rfl, rfl⟩ := h
    exact ⟨hnode _ (ownNames_subset_names _ List.mem_cons_self), hnode⟩
  | _ => exact h.elim

/-- **A call is insulated** if its body is, and if the function mentions only the given names. -/
lemma Eval.insideCall_coupled_insulated {fn : Function}
    (hfn : Binding.MentionsOnly V (.function fn)) {found : List Float} {body : Eval Float}
    {start start' : Environment}
    (hbody : Coupled (Insulated V (start.inside [] []) (start'.inside [] [])) (fun _ => True)
      (fun _ => False) body body) :
    Coupled (Insulated V start start') (fun _ => True) (fun _ => False)
      (Eval.insideCall fn found body) (Eval.insideCall fn found body) := by
  have hparams : ∀ name ∈ fn.params, name ∈ V := fun name hname =>
    hfn name (Node.ownNames_subset_names _ (List.mem_cons_of_mem _ hname))
  refine .insideCall ?_ ?_ hbody fun _ _ h => h.leaveCall hparams
  · intro env other entered h henter
    obtain ⟨hlimit, rfl⟩ := enterCall_eq_ok_iff.1 henter
    rw [h.alike.callDepth_eq, h.alike.limits_eq] at hlimit
    exact ⟨_, enterCall_eq_ok_iff.2 ⟨hlimit, rfl⟩, h.inside hparams found⟩
  · intro env other e h henter
    exact .inl ⟨trivial, h.alike.enterCall_error henter⟩

/-- **Evaluations in environments that agree on the names that matter** do the same and leave all
other names alone.

**Proof sketch.** Induction on how deeply evaluations may be nested.  A name that is looked up or
bound is one of those that matter.  So are the names in a function that is called, as it was found
under such a name, and then its body is evaluated in environments that agree again. -/
theorem Node.evaluate_coupled_insulated (patience depth : Nat) :
    ∀ {node : Node} {start start' : Environment}, (∀ id ∈ node.names, id ∈ V) →
      Coupled (Insulated V start start') (fun _ => True) (fun _ => False)
        (Node.evaluate patience depth node) (Node.evaluate patience depth node) := by
  induction depth with
  | zero => exact fun _ => .throw trivial
  | succ depth ih =>
    intro node start start' hnode
    have hparts : ∀ inner ∈ node.parts, ∀ id ∈ inner.names, id ∈ V := fun inner hinner id hid =>
      hnode id (names_subset_of_subnodes (subnodes_subset_of_mem_parts hinner) hid)
    refine Node.step_coupled (fun inner hinner => ih (hparts inner hinner)) (fun _ => trivial) ?_ ?_
      ?_ ?_
    · rintro id rfl
      refine .find (fun env other h => ?_) fun _ _ _ _ _ => trivial
      have hid : id ∈ V := hnode id (ownNames_subset_names _ (List.mem_singleton_self _))
      rw [valueOf, valueOf, h.lookup hid]
    · intro id b hbinds env other h
      obtain ⟨hid, hb⟩ := Node.mentionsOnly_of_binds hnode hbinds
      exact h.declare hid hb
    · rintro callee arguments rfl
      have hcallee : callee ∈ V :=
        hnode callee (ownNames_subset_names _ (List.mem_singleton_self _))
      refine .call ?_ (fun _ _ _ _ _ => trivial) (fun _ _ _ _ _ _ => trivial)
        (fun inner hinner => ih (hparts inner hinner)) ?_
      · intro env other h
        rw [functionOf, functionOf, h.lookup hcallee]
      · intro env other fn h hfn _ found
        have hmentions := (framesRelated_alike_iff.1 h.alike).2.functionOf hcallee hfn
        refine Eval.insideCall_coupled_insulated hmentions
          (.block (fun _ => trivial) fun inner h => ?_)
        exact ih fun id hid =>
          hmentions id (names_subset_of_subnodes (subnodes_subset_of_mem_body h) hid)
    · rintro conditions body rfl
      refine .loop (fun _ => trivial)
        (fun inner h => ih (hparts inner (List.mem_append_left _ h)))
        (fun inner h => ih (hparts inner (List.mem_append_right _ h))) fun env other h => .inl ?_
      rw [roundsStop, roundsStop, mostRounds, mostRounds, h.alike.limits_eq]
      exact ⟨trivial, rfl, rfl⟩

namespace Node

/-- The evaluation of a node never ends, however long the host is willing to wait. -/
def RunsForever (node : Node) (env : Environment) : Prop :=
  ∀ patience, outcome (node.run patience env) = .error .tooLong

/-- As deeply as evaluations can be nested, or deeper, the value of a node is its value. -/
lemma evaluate_of_reach_le {env : Environment} {node : Node} {depth : Nat}
    (h : env.reach [node] ≤ depth) (patience : Nat) :
    evaluate patience depth node env = node.run patience env :=
  evaluate_eq_run (Nat.le_max_left _ _) (within_self env node)
    (Nat.le_trans (room_le_reach env node) h)

/-- **Names that a node does not mention have no part in its evaluation.**  Take a set of names that
holds all names in the node, and all names in the functions that are bound to names of the set.
Take two environments with the same scoping, limits, calls in progress and number of frames that
agree on the set frame by frame.  Then the node runs forever in both or in none, it ends in both
with the same value or failure, and it leaves environments that agree on the set again.  In each of
them every other name stands for what it stood for before, in every frame. -/
theorem unmentioned_names_have_no_part {node : Node} (hnode : ∀ id ∈ node.names, id ∈ V)
    {env other : Environment} (hclosed : env.ClosedUnder V) (hagree : env.AgreeOn V other) :
    (node.RunsForever env ↔ node.RunsForever other) ∧
      ∀ patience, let ended := node.run patience env; let ended' := node.run patience other
        outcome ended = outcome ended' ∧ (final ended).AgreeOn V (final ended') ∧
          env.AgreeOn Vᶜ (final ended) ∧ other.AgreeOn Vᶜ (final ended') := by
  have hstart : Insulated V env other env other :=
    ⟨framesRelated_alike_iff.2 ⟨hagree, hclosed⟩, .refl (.refl _) env, .refl (.refl _) other⟩
  have hfits : ∀ patience, Fits (Insulated V env other) (fun _ => True) (fun _ => False)
      (node.run patience env) (node.run patience other) := by
    intro patience
    -- evaluations may be nested deeper in one of the environments, for what is not mentioned counts
    have hdepth := evaluate_coupled_insulated patience (max (env.reach [node]) (other.reach [node]))
      hnode hstart
    rwa [evaluate_of_reach_le (Nat.le_max_left _ _), evaluate_of_reach_le (Nat.le_max_right _ _)]
      at hdepth
  have houtcome : ∀ patience, outcome (node.run patience env) = outcome (node.run patience other) :=
    fun patience => (hfits patience).outcome_eq
  refine ⟨forall_congr' fun patience => by rw [houtcome], fun patience => ⟨houtcome patience, ?_⟩⟩
  have hfinal := (hfits patience).final
  exact ⟨(framesRelated_alike_iff.1 hfinal.alike).1, hfinal.kept, hfinal.kept'⟩

/-- A call of a function that binds a variable and then fails for want of another function, while
one of the environments has a function that the other has not, and a variable in its place. -/
theorem unmentioned_names_have_no_part_missing :
    let f : Function := ⟨"f", ["x"], [.declare "y" (.name "x"), .call "g" [.name "y"]]⟩
    let V : Set String := {id | id ∈ ["f", "x", "y", "g"]}
    let env : Environment :=
      ⟨⟨[⟨"f", .function f⟩, ⟨"s", .number 1⟩]⟩, [], .shared, ⟨2, 1, none⟩, 0⟩
    let other : Environment :=
      ⟨⟨[⟨"s", .function ⟨"s", [], [.name "h"]⟩⟩, ⟨"f", .function f⟩]⟩, [], .shared,
        ⟨2, 1, none⟩, 0⟩
    let node := Node.call "f" [.literal 3]
    (∀ id ∈ node.names, id ∈ V) ∧ env.ClosedUnder V ∧ env.AgreeOn V other ∧
      outcome (node.run 0 env) = .error (.failure (.notDefined "g")) ∧
      outcome (node.run 0 other) = .error (.failure (.notDefined "g")) ∧
      (final (node.run 0 env)).AgreeOn V (final (node.run 0 other)) ∧
      env.AgreeOn Vᶜ (final (node.run 0 env)) ∧ other.AgreeOn Vᶜ (final (node.run 0 other)) := by
  intro f V env other node
  have hnode : ∀ id ∈ node.names, id ∈ ["f", "x", "y", "g"] := by decide
  have hf : ∀ id ∈ (Node.define f).names, id ∈ ["f", "x", "y", "g"] := by decide
  have hbound : ∀ name ∈ ["f", "x", "y", "g"], ∀ b, env.globals.get? name = some b →
      b.MentionsOnly V := by
    simp only [List.forall_mem_cons]
    refine ⟨?_, ?_, ?_, ?_, List.forall_mem_nil _⟩
    · rintro b ⟨⟩
      exact hf
    all_goals rintro b ⟨⟩
  have hsame : ∀ name ∈ ["f", "x", "y", "g"], env.globals.get? name = other.globals.get? name := by
    simp only [List.forall_mem_cons]
    exact ⟨rfl, rfl, rfl, rfl, List.forall_mem_nil _⟩
  have hclosed : env.ClosedUnder V := List.forall_mem_singleton.2 hbound
  have hagree : env.AgreeOn V other := ⟨rfl, rfl, rfl, hsame, .nil⟩
  have hfails : outcome (node.run 0 env) = .error (.failure (.notDefined "g")) := by rfl
  obtain ⟨-, hruns⟩ := unmentioned_names_have_no_part hnode hclosed hagree
  obtain ⟨houtcome, hafter, hkept, hkept'⟩ := hruns 0
  exact ⟨hnode, hclosed, hagree, hfails, houtcome ▸ hfails, hafter, hkept, hkept'⟩

end Node

end Abacus
