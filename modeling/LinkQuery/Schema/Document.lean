import LinkQuery.Json.Decode
import LinkQuery.Json.Reader
import LinkQuery.Schema.Groups
/-!
# Schema documents

The JSON form of a schema. A document is refused when it is not such a form, and when one of its
groups contains itself.
-/
namespace LinkQuery

/-- Why a document is refused. -/
inductive DocumentError where
  | malformed
  | groupCycle (table group : String)
deriving Repr, DecidableEq

/-- The wording of a refusal. -/
def DocumentError.message : DocumentError → String
  | .malformed => "not a valid document"
  | .groupCycle table group => s!"group field '{group}' of table '{table}' contains itself"

namespace FieldType

/-- The name of a field type in a document. -/
def name : FieldType → String
  | .scalar type => type.name
  | .link => "link"
  | .crossLink => "xlink"
  | .group => "group"

/-- The field type with a name; a cross-table link has two. -/
def ofName? (name : String) : Option FieldType :=
  if name == "link" then some .link
  else if name == "xlink" || name == "crosslink" then some .crossLink
  else if name == "group" then some .group
  else (ScalarType.ofName? name).map .scalar

end FieldType

/-- The JSON form of a field kind. -/
def FieldKind.toJson : FieldKind → Json
  | .scalar type => .tagged "Scalar" (.text type.name)
  | .multiValued type => .tagged "MultiValuedScalar" (.text type.name)
  | .link => .text "Link"
  | .crossLink => .text "CrossTableLink"
  | .group => .text "Group"
  | .system => .text "System"
  | .unknown => .text "Unknown"

namespace FieldDef

/-- The fields of the record in order. -/
def fieldNames : List String :=
  ["type", "multi_valued", "target", "inverse", "junction", "nested"]

/-- Reads the declaration of a field. -/
def ofJson? (value : Json) : Option FieldDef := do
  let fields ← value.record? fieldNames
  let type ← Json.required? fields "type" fun v => v.kindName?.bind FieldType.ofName?
  let multiValued ← Json.withDefault? fields "multi_valued" false Json.bool?
  let target ← Json.withDefault? fields "target" none (Json.orNull? Json.text?)
  let inverse ← Json.withDefault? fields "inverse" none (Json.orNull? Json.text?)
  let junction ← Json.withDefault? fields "junction" none (Json.orNull? Json.text?)
  let nested ← Json.withDefault? fields "nested" [] Json.texts?
  return ⟨type, multiValued, target, inverse, junction, nested⟩

/-- A member for a name that is there. -/
def optionalMember (name : String) : Option String → List (String × Json)
  | none => []
  | some value => [(name, .text value)]

/-- The JSON form of a declaration, without what it leaves open. -/
def toJson (field : FieldDef) : Json :=
  .object <| [("type", .text field.type.name), ("multi_valued", .bool field.multiValued)]
    ++ optionalMember "target" field.target
    ++ optionalMember "inverse" field.inverse
    ++ optionalMember "junction" field.junction
    ++ if field.nested.isEmpty then [] else [("nested", .texts field.nested)]

end FieldDef

namespace NameMap

/-- Reads an object as a map, the last of repeated names counting. -/
def ofJson? {α : Type} (decode : Json → Option α) (value : Json) : Option (NameMap α) :=
  value.members?.bind fun members =>
    (members.mapM fun (entry : String × Json) =>
      (decode entry.2).map fun a => (entry.1, a)).map ofList

/-- The map as an object. -/
def toJson {α : Type} (encode : α → Json) (m : NameMap α) : Json :=
  .object (m.entries.map fun (name, value) => (name, encode value))

end NameMap

/-- Reads the fields of a table. -/
def TableDef.ofJson? (value : Json) : Option TableDef := do
  let fields ← value.record? ["fields"]
  return ⟨← Json.withDefault? fields "fields" .empty (NameMap.ofJson? FieldDef.ofJson?)⟩

/-- The JSON form of a table. -/
def TableDef.toJson (table : TableDef) : Json :=
  .object [("fields", table.fields.toJson FieldDef.toJson)]

namespace Schema

/-- Reads a schema without looking for groups that contain themselves. -/
def ofJson? (value : Json) : Option Schema := do
  let fields ← value.record? ["tables"]
  return ⟨← Json.withDefault? fields "tables" .empty (NameMap.ofJson? TableDef.ofJson?)⟩

/-- The JSON form of a schema. -/
def toJson (s : Schema) : Json :=
  .object [("tables", s.tables.toJson TableDef.toJson)]

/-- Reads a schema document. -/
def ofDocument (text : String) : Except DocumentError Schema :=
  match (Json.ofText? text).bind ofJson? with
  | none => .error .malformed
  | some schema =>
    match schema.groupCycle? with
    | some (table, group) => .error (.groupCycle table group)
    | none => .ok schema

end Schema

end LinkQuery
