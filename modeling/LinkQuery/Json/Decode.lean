import LinkQuery.Json.Basic
import LinkQuery.Text.Whole
/-!
# Taking JSON values apart

Readers of single values and of records. A record is an object, whose known names may not repeat
and whose other names do not matter, or an array that gives the fields in their order.
-/
namespace LinkQuery.Json

/-- A text. -/
def text? : Json → Option String
  | .text value => some value
  | _ => none

/-- A truth value. -/
def bool? : Json → Option Bool
  | .bool value => some value
  | _ => none

/-- A natural number of so many bits, written with digits alone. -/
def nat? (bits : Nat) : Json → Option Nat
  | .number written => (Text.digits? written.toList).filter (· < Text.bitBound bits)
  | _ => none

/-- A signed number of 64 bits, written with digits and a minus sign. -/
def int? : Json → Option Int
  | .number written => Text.signed? 64 written
  | _ => none

/-- The items of an array. -/
def items? : Json → Option (List Json)
  | .array items => some items
  | _ => none

/-- Items that a reader accepts one by one. -/
def list? {α : Type} (decode : Json → Option α) (value : Json) : Option (List α) :=
  value.items?.bind (·.mapM decode)

/-- A list of texts. -/
def texts? (value : Json) : Option (List String) :=
  list? text? value

/-- The members of an object. -/
def members? : Json → Option (List (String × Json))
  | .object members => some members
  | _ => none

/-- The first member of an object with a name. -/
def member? (value : Json) (name : String) : Option Json :=
  value.members?.bind (·.lookup name)

/-- A value or null. -/
def orNull? {α : Type} (decode : Json → Option α) : Json → Option (Option α)
  | .null => some none
  | value => (decode value).map some

/-- No name of the list occurs twice among the members. -/
def noneRepeated (names : List String) (members : List (String × Json)) : Bool :=
  names.all fun name => (members.filter (·.1 == name)).length ≤ 1

/-- The fields of a record, by name. -/
def record? (names : List String) : Json → Option (List (String × Json))
  | .object members => if noneRepeated names members then some members else none
  | .array items => if items.length ≤ names.length then some (names.zip items) else none
  | _ => none

/-- A field that has to be there. -/
def required? {α : Type} (fields : List (String × Json)) (name : String)
    (decode : Json → Option α) : Option α :=
  (fields.lookup name).bind decode

/-- A field with a value to stand for it when it is missing. -/
def withDefault? {α : Type} (fields : List (String × Json)) (name : String) (missing : α)
    (decode : Json → Option α) : Option α :=
  match fields.lookup name with
  | none => some missing
  | some value => decode value

/-- The name of a kind without content: the name as a text, or an object with null under it. -/
def kindName? : Json → Option String
  | .text name => some name
  | .object [(name, .null)] => some name
  | _ => none

end LinkQuery.Json
