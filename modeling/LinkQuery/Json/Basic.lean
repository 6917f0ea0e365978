/-!
# JSON values

A JSON value as it is written: numbers keep their text and objects the order of their members,
repeated names included.
-/
namespace LinkQuery

/-- A JSON value. -/
inductive Json where
  | null
  | bool (value : Bool)
  | number (text : String)
  | text (value : String)
  | array (items : List Json)
  | object (members : List (String × Json))
deriving Inhabited

namespace Json

/-- A natural number. -/
def nat (n : Nat) : Json := .number (toString n)

/-- A whole number. -/
def int (n : Int) : Json := .number (toString n)

/-- A value or null. -/
def option {α : Type} (encode : α → Json) : Option α → Json
  | none => .null
  | some a => encode a

/-- A list of values. -/
def list {α : Type} (encode : α → Json) (items : List α) : Json :=
  .array (items.map encode)

/-- A list of texts. -/
def texts (items : List String) : Json :=
  list .text items

/-- A value under the name of its kind. -/
def tagged (kind : String) (value : Json) : Json :=
  .object [(kind, value)]

end Json

end LinkQuery
