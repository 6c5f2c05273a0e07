/-!
# Settings

What a host may choose: how parameters are bound during a call, how far nesting, calls and loops
may go, and constants that scripts find bound.

## Main definitions

* `Abacus.Scoping` — where parameters live during a call.
* `Abacus.Limits` — how far evaluation may go.
* `Abacus.Constant`, `Abacus.Settings` — all of a host's choices.
* `Abacus.Settings.initial` — the settings of a host that chooses nothing.
-/

namespace Abacus

/-- Where parameters live during a call. -/
inductive Scoping where
  /-- In the one table of all names.  When the call ends they are removed from it, even if they
  stood for something else before the call. -/
  | shared
  /-- In a frame of their own, which is dropped when the call ends. -/
  | frames
deriving DecidableEq, Repr

namespace Scoping

/-- The spelling of a way of scoping. -/
def text : Scoping → String
  | shared => "shared"
  | frames => "frames"

/-- The way of scoping with exactly this spelling. -/
def ofText? (text : String) : Option Scoping := [shared, frames].find? (·.text = text)

/-- A way of scoping is found by its own spelling. -/
theorem ofText?_text (s : Scoping) : ofText? s.text = some s := by
  cases s <;> rfl

end Scoping

/-- How far evaluation may go.  Without a limit on rounds a loop may go on forever. -/
structure Limits where
  calls : Nat
  nesting : Nat
  rounds : Option Nat
deriving DecidableEq, Repr

/-- The limits of a host that chooses none. -/
def Limits.initial : Limits := ⟨256, 128, none⟩

/-- A name that scripts find bound to a number. -/
structure Constant where
  name : String
  value : Float

/-- All of a host's choices.  Constants are in the order of their names. -/
structure Settings where
  scoping : Scoping
  limits : Limits
  constants : List Constant

namespace Settings

/-- The settings of a host that chooses nothing. -/
def initial : Settings := ⟨.shared, .initial, []⟩

end Settings

namespace Constant

/-- Puts a constant into a list in the order of names, in place of an earlier one of its name. -/
def insert (c : Constant) : List Constant → List Constant
  | [] => [c]
  | d :: ds =>
    if c.name < d.name then c :: d :: ds
    else if c.name = d.name then c :: ds
    else d :: insert c ds

end Constant

end Abacus
