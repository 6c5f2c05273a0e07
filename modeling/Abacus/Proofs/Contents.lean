import Mathlib.Tactic.Common
import Abacus.Proofs.Balance

/-!
# What an environment holds

A property of bindings that every binding of an environment has is kept by everything that
evaluation does to an environment, as long as what is newly bound has it too.  Calls bind numbers
only, and forget.

## Main definitions

* `Abacus.Environment.Every` — every binding in every frame has a property.

## Main results

* `Abacus.Environment.Every.declare`, `inside`, `leaveCall` — the property is kept.
* `Abacus.Environment.Every.functionOf` — what is looked up has the property.
-/

namespace Abacus

namespace Frame

/-- Every binding of a frame has a property. -/
def Every (P : Binding → Prop) (f : Frame) : Prop := ∀ e ∈ f.entries, P e.binding

variable {P : Binding → Prop} {f : Frame}

/-- An empty frame holds nothing. -/
lemma Every.empty : Every P .empty := by
  intro e he
  cases he

/-- What holds of all bindings of a frame still does after one is erased. -/
lemma Every.erase (h : f.Every P) (name : String) : (f.erase name).Every P :=
  fun e he => h e (List.mem_filter.1 he).1

/-- What holds of all bindings of a frame still does after such a one is inserted. -/
lemma Every.insert (h : f.Every P) (name : String) {b : Binding} (hb : P b) :
    (f.insert name b).Every P := by
  intro e he
  rcases List.mem_cons.1 he with rfl | he
  · exact hb
  · exact h.erase name e he

/-- What holds of all bindings of a frame holds of the one that is found. -/
lemma Every.get? (h : f.Every P) {name : String} {b : Binding} (hb : f.get? name = some b) :
    P b := by
  obtain ⟨e, he, rfl⟩ := Option.map_eq_some_iff.1 hb
  exact h e (List.mem_of_find?_eq_some he)

end Frame

namespace Environment

/-- Every binding in every frame has a property. -/
def Every (P : Binding → Prop) (env : Environment) : Prop := ∀ f ∈ env.frames, f.Every P

variable {P : Binding → Prop} {env : Environment}

/-- The bindings of an environment are the global and the local ones. -/
lemma every_iff : env.Every P ↔ env.globals.Every P ∧ ∀ f ∈ env.locals, f.Every P := by
  simp only [Every, frames, List.mem_append, List.mem_singleton]
  constructor
  · exact fun h => ⟨h _ (.inr rfl), fun f hf => h f (.inl hf)⟩
  · rintro ⟨hglobals, hlocals⟩ f (hf | rfl)
    · exact hlocals f hf
    · exact hglobals

/-- What a name stands for has the property. -/
lemma Every.lookup (h : env.Every P) {name : String} {b : Binding}
    (hb : env.lookup name = some b) : P b := by
  obtain ⟨f, hf, hfound⟩ := List.exists_of_findSome?_eq_some hb
  exact (h f hf).get? hfound

/-- A function that is found has the property. -/
theorem Every.functionOf (h : env.Every P) {name : String} {f : Function}
    (hf : env.functionOf name = .ok f) : P (.function f) := by
  unfold Environment.functionOf at hf
  split at hf
  · next hlookup =>
    cases hf
    exact h.lookup hlookup
  · cases hf

/-! ## Binding and unbinding -/

/-- What holds of all bindings still does after such a one is defined. -/
lemma Every.define (h : env.Every P) (name : String) {b : Binding} (hb : P b) :
    (env.define name b).Every P := by
  obtain ⟨hglobals, hlocals⟩ := every_iff.1 h
  unfold Environment.define
  split
  · exact every_iff.2 ⟨hglobals.insert name hb, hlocals⟩
  · next frame outer hframes =>
    rw [hframes] at hlocals
    refine every_iff.2 ⟨hglobals, fun f hf => ?_⟩
    rcases List.mem_cons.1 hf with rfl | hf
    · exact (hlocals frame (by simp)).insert name hb
    · exact hlocals f (by simp [hf])

/-- What holds of all bindings still does after such a one is declared. -/
theorem Every.declare (h : env.Every P) (name : String) {b : Binding} (hb : P b) :
    (env.declare name b).Every P := by
  obtain ⟨hglobals, hlocals⟩ := every_iff.1 h
  have hglobal : (env.bindGlobal name b).Every P :=
    every_iff.2 ⟨hglobals.insert name hb, hlocals⟩
  unfold Environment.declare
  split
  · exact hglobal
  · next frame outer hframes =>
    rw [hframes] at hlocals
    split
    · refine every_iff.2 ⟨hglobals, fun f hf => ?_⟩
      rcases List.mem_cons.1 hf with rfl | hf
      · exact (hlocals frame (by simp)).insert name hb
      · exact hlocals f (by simp [hf])
    · exact hglobal

/-- Unbinding a name in the innermost frame that binds it leaves frames with fewer bindings. -/
private lemma every_eraseInnermost {name : String} {frames : List Frame} :
    ∀ {erased : List Frame}, eraseInnermost name frames = some erased →
      (∀ f ∈ frames, f.Every P) → ∀ f ∈ erased, f.Every P := by
  induction frames with
  | nil =>
    intro erased h
    cases h
  | cons frame outer ih =>
    intro erased h hframes f hf
    have houter : ∀ f ∈ outer, f.Every P := fun f hf => hframes f (by simp [hf])
    unfold eraseInnermost at h
    split at h
    · cases h
      rcases List.mem_cons.1 hf with rfl | hf
      · exact (hframes frame (by simp)).erase name
      · exact houter f hf
    · obtain ⟨others, hothers, rfl⟩ := Option.map_eq_some_iff.1 h
      rcases List.mem_cons.1 hf with rfl | hf
      · exact hframes f (by simp)
      · exact ih hothers houter f hf

/-- What holds of all bindings still does after one is removed. -/
lemma Every.remove (h : env.Every P) (name : String) : (env.remove name).Every P := by
  obtain ⟨hglobals, hlocals⟩ := every_iff.1 h
  unfold Environment.remove
  split
  · next erased herased => exact every_iff.2 ⟨hglobals, every_eraseInnermost herased hlocals⟩
  · exact every_iff.2 ⟨hglobals.erase name, hlocals⟩

/-! ## Calls -/

/-- Starting a call binds numbers only. -/
theorem Every.inside (h : env.Every P) (hnumber : ∀ value, P (.number value))
    (params : List String) (arguments : List Float) : (env.inside params arguments).Every P := by
  have hopened : env.opened.Every P := by
    unfold opened
    split
    · exact h
    · obtain ⟨hglobals, hlocals⟩ := every_iff.1 h
      refine every_iff.2 ⟨hglobals, fun f hf => ?_⟩
      rcases List.mem_cons.1 hf with rfl | hf
      · exact .empty
      · exact hlocals f hf
  have hbound : (env.opened.bindParams params arguments).Every P := by
    unfold bindParams
    generalize params.zip arguments = bound, env.opened = env at hopened
    induction bound generalizing env with
    | nil => exact hopened
    | cons first bound ih => exact ih _ (hopened.define first.1 (hnumber first.2))
  exact hbound

/-- Ending a call binds nothing. -/
theorem Every.leaveCall (h : env.Every P) (f : Function) : (env.leaveCall f).Every P := by
  have hreleased : ∀ names : List String, (names.foldl Environment.remove env).Every P := by
    intro names
    induction names generalizing env with
    | nil => exact h
    | cons name names ih => exact ih (h.remove name)
  obtain ⟨hglobals, hlocals⟩ := every_iff.1 h
  unfold Environment.leaveCall
  split
  · exact hreleased f.params
  · exact every_iff.2 ⟨hglobals, fun f hf => hlocals f (List.mem_of_mem_tail hf)⟩

end Environment

end Abacus
