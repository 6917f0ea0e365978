import LinkQuery.Literal
/-!
# Stores

A store holds the objects of each table by identity. An object has values and links under the names
of fields; links may name objects that are not stored.
-/
namespace LinkQuery

/-- An object with its values and its links by field. -/
structure StoredObject where
  id : String
  values : NameMap (List Literal)
  links : NameMap (List String)
deriving Repr

namespace StoredObject

/-- The values of a field; the identity is the one value of its system field. -/
def valuesOf (o : StoredObject) (field : String) : List Literal :=
  if Schema.isSystemField field then [.text o.id] else (o.values.find? field).getD []

/-- The identities that a link names. -/
def linkedIds (o : StoredObject) (link : String) : List String :=
  (o.links.find? link).getD []

end StoredObject

/-- The objects of each table by identity. -/
structure Store where
  tables : NameMap (NameMap StoredObject)

namespace Store

/-- The store without objects. -/
def empty : Store := ⟨.empty⟩

/-- The objects of a table in the order of their identities. -/
def objects (s : Store) (table : String) : List StoredObject :=
  ((s.tables.find? table).map (·.values)).getD []

/-- The object of a table with an identity. -/
def find? (s : Store) (table id : String) : Option StoredObject :=
  (s.tables.find? table).bind (·.find? id)

/-- The store with an object, which takes the place of one with the same identity. -/
def insert (s : Store) (table : String) (o : StoredObject) : Store :=
  ⟨s.tables.insert table (((s.tables.find? table).getD .empty).insert o.id o)⟩

/-- The identities of all objects, each once. -/
def ids (s : Store) : List String :=
  (s.tables.values.flatMap (·.names)).eraseDups

end Store

end LinkQuery
