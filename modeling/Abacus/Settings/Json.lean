import Abacus.Json.Library
import Abacus.Settings.Basic

/-!
# Settings as JSON

Settings are given as an object with a member for each choice, or as an array with the choices in
their order.  What is not given keeps its initial value.  Members with other keys are ignored; a
choice that is made twice is refused.

## Main definitions

* `Abacus.Settings.ofMembers?`, `ofItems?`, `ofJson?` — settings from a JSON value.
* `Abacus.Settings.parseWith?`, `parse?` — settings from a JSON text.
* `Abacus.Settings.toJson` — settings as an object.
* `Abacus.Settings.textWith`, `text` — the JSON text of settings.
-/

namespace Abacus

namespace Settings

/-! ## Single choices -/

/-- A way of scoping: its spelling, or an object with its spelling as the only key and null. -/
def scoping? : Json → Option Scoping
  | .string (some text) => Scoping.ofText? text
  | .object [⟨some text, .null⟩] => Scoping.ofText? text
  | _ => none

/-- A limit: a natural number. -/
def limit? : Json → Option Nat
  | .natural n => some n
  | _ => none

/-- A limit that may be absent. -/
def optionalLimit? : Json → Option (Option Nat)
  | .null => some none
  | value => (limit? value).map some

/-- The value of a constant: any number that is not too large for a double. -/
def number? : Json → Option Float
  | .natural n => some (Float.ofNat n)
  | .real x => if x.isFinite then some x else none
  | _ => none

/-- Constants, in the order of their names.  Of two with one name the later one counts. -/
def constantsOf? (constants : List Constant) : List (Json.Member Json) → Option (List Constant)
  | [] => some constants
  | ⟨some name, value⟩ :: members => do
    let x ← number? value
    constantsOf? (Constant.insert ⟨name, x⟩ constants) members
  | ⟨none, _⟩ :: _ => none

/-- Constants: an object with their names as keys. -/
def constants? : Json → Option (List Constant)
  | .object members => constantsOf? [] members
  | _ => none

/-! ## Settings -/

/-- Reads the choice with the given key.  If it is not made, the value is `initial`; it cannot be
made twice. -/
def choice? {α : Type} (members : List (Json.Member Json)) (key : String) (initial : α)
    (read? : Json → Option α) : Option α :=
  match members.filter (·.key = some key) with
  | [] => some initial
  | [m] => read? m.value
  | _ => none

/-- Settings from the members of an object.  Keys have to be texts. -/
def ofMembers? (members : List (Json.Member Json)) : Option Settings := do
  if members.any (·.key.isNone) then none
  let scoping ← choice? members "scoping" initial.scoping scoping?
  let calls ← choice? members "max_call_depth" initial.limits.calls limit?
  let nesting ← choice? members "max_nesting_depth" initial.limits.nesting limit?
  let rounds ← choice? members "max_loop_iterations" initial.limits.rounds optionalLimit?
  let constants ← choice? members "constants" initial.constants constants?
  return ⟨scoping, ⟨calls, nesting, rounds⟩, constants⟩

/-- Reads the first of some items: its value, or `initial` if there are no items. -/
def item? {α : Type} (items : List Json) (initial : α) (read? : Json → Option α) :
    Option (α × List Json) :=
  match items with
  | [] => some (initial, [])
  | item :: items => (read? item).map (·, items)

/-- Settings from the items of an array. -/
def ofItems? (items : List Json) : Option Settings := do
  let (scoping, items) ← item? items initial.scoping scoping?
  let (calls, items) ← item? items initial.limits.calls limit?
  let (nesting, items) ← item? items initial.limits.nesting limit?
  let (rounds, items) ← item? items initial.limits.rounds optionalLimit?
  let (constants, items) ← item? items initial.constants constants?
  if items.isEmpty then some ⟨scoping, ⟨calls, nesting, rounds⟩, constants⟩ else none

/-- Settings from a JSON value. -/
def ofJson? : Json → Option Settings
  | .object members => ofMembers? members
  | .array items => ofItems? items
  | _ => none

/-- Settings from a JSON text, which is read by a library. -/
def parseWith? (library : Json.Library) (text : String) : Option Settings :=
  (library.read? text).bind ofJson?

/-- Settings from a JSON text. -/
def parse? (text : String) : Option Settings := parseWith? Json.library text

/-- Settings as an object with every choice. -/
def toJson (s : Settings) : Json :=
  .object
    [.named "scoping" (.text s.scoping.text),
      .named "max_call_depth" (.natural s.limits.calls),
      .named "max_nesting_depth" (.natural s.limits.nesting),
      .named "max_loop_iterations" (s.limits.rounds.elim .null .natural),
      .named "constants" (.object (s.constants.map fun c => .named c.name (.real c.value)))]

/-- The JSON text of settings, as a library writes it. -/
def textWith (library : Json.Library) (s : Settings) : String := library.write s.toJson

/-- The JSON text of settings, without blanks. -/
def text (s : Settings) : String := s.textWith Json.library

end Settings

end Abacus
