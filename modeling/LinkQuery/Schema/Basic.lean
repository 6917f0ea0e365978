import LinkQuery.NameMap
/-!
# Schemas

A schema names the tables of an application and the fields of each table. A field holds scalar
values of one type, links to objects of a target table, or groups other fields under one name.
Names that begin with an underscore are reserved for system fields.
-/
namespace LinkQuery

/-- The type of a scalar value. -/
inductive ScalarType where
  | text | integer | float | boolean | timestamp | binary
deriving Repr, DecidableEq

namespace ScalarType

/-- All scalar types. -/
def all : List ScalarType :=
  [.text, .integer, .float, .boolean, .timestamp, .binary]

/-- The name of a scalar type. -/
def name : ScalarType → String
  | .text => "text"
  | .integer => "integer"
  | .float => "float"
  | .boolean => "boolean"
  | .timestamp => "timestamp"
  | .binary => "binary"

/-- The scalar type with a name. -/
def ofName? (name : String) : Option ScalarType :=
  all.find? (·.name == name)

end ScalarType

/-- What a field is declared as. -/
inductive FieldType where
  | scalar (type : ScalarType)
  | link
  | crossLink
  | group
deriving Repr, DecidableEq

/-- What a name means in a table. -/
inductive FieldKind where
  | scalar (type : ScalarType)
  | multiValued (type : ScalarType)
  | link
  | crossLink
  | group
  | system
  | unknown
deriving Repr, DecidableEq

namespace FieldKind

/-- Links and cross-table links lead to other objects. -/
def isLink : FieldKind → Bool
  | .link | .crossLink => true
  | _ => false

/-- The type of the values of a scalar field. -/
def scalarType? : FieldKind → Option ScalarType
  | .scalar type | .multiValued type => some type
  | _ => none

end FieldKind

/-- The declaration of a field. -/
structure FieldDef where
  type : FieldType
  multiValued : Bool
  /-- The table that a link leads to. -/
  target : Option String
  /-- The field of the target table that leads back. -/
  inverse : Option String
  /-- The field that a cross-table link matches. -/
  junction : Option String
  /-- The members of a group. -/
  nested : List String
deriving Repr, DecidableEq

namespace FieldDef

/-- A field of a type and nothing more. -/
def ofType (type : FieldType) : FieldDef :=
  ⟨type, false, none, none, none, []⟩

/-- A field with one scalar value. -/
def scalar (type : ScalarType) : FieldDef :=
  ofType (.scalar type)

/-- A field with several scalar values. -/
def multiValuedScalar (type : ScalarType) : FieldDef :=
  { ofType (.scalar type) with multiValued := true }

/-- A link to a table. -/
def link (target : String) : FieldDef :=
  { ofType .link with target := some target }

/-- A cross-table link that matches a junction field. -/
def crossLink (target junction : String) : FieldDef :=
  { ofType .crossLink with target := some target, junction := some junction }

/-- A group of fields. -/
def group (nested : List String) : FieldDef :=
  { ofType .group with nested := nested }

end FieldDef

/-- The fields of a table. -/
structure TableDef where
  fields : NameMap FieldDef
deriving Repr, Inhabited

/-- The tables of an application. -/
structure Schema where
  tables : NameMap TableDef
deriving Repr, Inhabited

namespace Schema

/-- The schema without tables. -/
def empty : Schema := ⟨.empty⟩

/-- A name reserved for system fields. -/
def isReserved (name : String) : Bool :=
  name.toList.head? == some '_'

/-- A system field that every object has. -/
def isSystemField (name : String) : Bool :=
  name == "_ID"

/-- The schema has a table of this name. -/
def hasTable (s : Schema) (table : String) : Bool :=
  s.tables.contains table

/-- The declaration of a field of a table. -/
def field? (s : Schema) (table name : String) : Option FieldDef :=
  (s.tables.find? table).bind (·.fields.find? name)

/-- What a declared field is. -/
def kindOf (field : FieldDef) : FieldKind :=
  match field.type with
  | .scalar type => if field.multiValued then .multiValued type else .scalar type
  | .link => .link
  | .crossLink => .crossLink
  | .group => .group

/-- What a name means in a table. -/
def fieldKind (s : Schema) (table name : String) : FieldKind :=
  if isReserved name then
    if isSystemField name then .system else .unknown
  else match s.field? table name with
    | none => .unknown
    | some field => kindOf field

/-- The table that a link of a table leads to. -/
def linkTarget? (s : Schema) (table name : String) : Option String :=
  match s.field? table name with
  | none => none
  | some field =>
    match field.type with
    | .link | .crossLink => field.target
    | _ => none

/-- The members of a group of a table in their order, nothing for other fields. -/
def nestedFields (s : Schema) (table group : String) : List String :=
  match s.field? table group with
  | none => []
  | some field => if field.type = .group then field.nested else []

end Schema

end LinkQuery
