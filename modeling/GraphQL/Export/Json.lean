/-!
# JSON values

The values that a document is exported to.  The fields of an object keep their order.
-/

namespace GraphQL

/-- A JSON value whose numbers are natural. -/
inductive Json where
  /-- No value. -/
  | null
  /-- A Boolean. -/
  | bool (b : Bool)
  /-- A number. -/
  | number (n : Nat)
  /-- A text. -/
  | string (s : String)
  /-- Values in order. -/
  | array (items : List Json)
  /-- Values by name. -/
  | object (fields : List (String × Json))
  deriving Repr

namespace Json

/-- A value that may be absent. -/
def optional {α : Type} (encode : α → Json) : Option α → Json
  | some a => encode a
  | none => null

/-- A list of values. -/
def list {α : Type} (encode : α → Json) (items : List α) : Json := array (items.map encode)

/-- An object with a single field, which names the variant that its value is. -/
def variant (name : String) (value : Json) : Json := object [(name, value)]

end Json

end GraphQL
