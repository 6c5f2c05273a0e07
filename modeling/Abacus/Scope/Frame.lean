import Abacus.Node.Basic

/-!
# Bindings and frames

A binding is what a name stands for, a variable or a function.  A frame holds bindings, at most
one for each name.

## Main definitions

* `Abacus.Binding` — what a name stands for.
* `Abacus.Frame` — bindings by name.
* `Abacus.Frame.get?`, `contains`, `insert`, `erase` — look up, bind and unbind a name.

## Main results

* `Abacus.Frame.get?_insert`, `Abacus.Frame.get?_erase` — what the operations do to a look-up.
-/

namespace Abacus

/-- What a name stands for. -/
inductive Binding where
  | number (value : Float)
  | function (f : Function)

/-- A name with what it stands for. -/
structure Frame.Entry where
  name : String
  binding : Binding

/-- Bindings by name. -/
structure Frame where
  entries : List Frame.Entry

namespace Frame

/-- The frame without bindings. -/
def empty : Frame := ⟨[]⟩

/-- What a name stands for. -/
def get? (f : Frame) (name : String) : Option Binding :=
  (f.entries.find? (·.name = name)).map (·.binding)

/-- Whether a name is bound. -/
def contains (f : Frame) (name : String) : Bool := (f.get? name).isSome

/-- Unbinds a name. -/
def erase (f : Frame) (name : String) : Frame := ⟨f.entries.filter (·.name ≠ name)⟩

/-- Binds a name, in place of what it stood for. -/
def insert (f : Frame) (name : String) (b : Binding) : Frame :=
  ⟨⟨name, b⟩ :: (f.erase name).entries⟩

@[simp]
theorem get?_empty (name : String) : empty.get? name = none := rfl

/-- Unbinding a name unbinds it and nothing else. -/
theorem get?_erase (f : Frame) (name other : String) :
    (f.erase name).get? other = if other = name then none else f.get? other := by
  obtain ⟨entries⟩ := f
  induction entries with
  | nil => simp [erase, get?]
  | cons e es ih =>
    simp only [erase, get?] at ih ⊢
    by_cases h : e.name = name <;> by_cases h' : e.name = other <;>
      by_cases h'' : other = name <;> simp_all

/-- Binding a name binds it and leaves other names alone. -/
theorem get?_insert (f : Frame) (name other : String) (b : Binding) :
    (f.insert name b).get? other = if other = name then some b else f.get? other := by
  by_cases h : other = name
  · simp [insert, get?, h]
  · have herase := get?_erase f name other
    simp only [get?, if_neg h] at herase
    simp [insert, get?, Ne.symm h, h, herase]

end Frame

end Abacus
