/-!
# JSON values

The tree of a JSON text.  A number is kept as a natural number if it is written as one and fits
into 64 bits, and as a double otherwise.  A string may hold half of a surrogate pair, which stands
for no character; such a string is well formed and has no text.

## Main definitions

* `Abacus.Json` — a JSON value.
* `Abacus.Json.Member` — a key with its value.
* `Abacus.Json.text`, `Abacus.Json.Member.named` — strings and members with a text.
-/

namespace Abacus

/-- A key of an object with its value.  A key has no text if it holds half of a surrogate pair. -/
structure Json.Member (ν : Type) where
  key : Option String
  value : ν

/-- A JSON value. -/
inductive Json where
  | null
  | bool (b : Bool)
  | natural (n : Nat)
  | real (x : Float)
  | string (text : Option String)
  | array (items : List Json)
  | object (members : List (Json.Member Json))

namespace Json

/-- The string with this text. -/
def text (s : String) : Json := string (some s)

/-- The member with this key. -/
def Member.named (key : String) (value : Json) : Member Json := ⟨some key, value⟩

end Json

end Abacus
