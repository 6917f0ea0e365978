import LinkQuery.FieldSet
import LinkQuery.Query.Document
import LinkQuery.Schema.Document
import LinkQuery.SortOrder
/-!
# Field sets and sort orders as JSON
-/
namespace LinkQuery

mutual

/-- The JSON form of an entry of a field set. -/
def FieldItem.toJson : FieldItem → Json
  | .everything => .text "All"
  | .field name kind limit filter children =>
    .tagged "Field" (.object [
      ("name", .text name),
      ("kind", kind.toJson),
      ("limit", .option .nat limit),
      ("filter", .option Query.toJson filter),
      ("children", .array (FieldItem.toJsons children))])

/-- The JSON forms of several entries. -/
def FieldItem.toJsons : List FieldItem → List Json
  | [] => []
  | item :: rest => item.toJson :: FieldItem.toJsons rest

end

/-- The JSON form of a field set. -/
def FieldSet.toJson (s : FieldSet) : Json :=
  .object [("items", .array (FieldItem.toJsons s.items))]

/-- The JSON form of a direction. -/
def SortDirection.toJson : SortDirection → Json
  | .ascending => .text "Ascending"
  | .descending => .text "Descending"

/-- The JSON form of a sort key. -/
def SortKey.toJson (key : SortKey) : Json :=
  .object [("path", .texts key.path), ("direction", key.direction.toJson)]

/-- The JSON form of a sort order. -/
def SortOrder.toJson (order : SortOrder) : Json :=
  .object [("keys", .list SortKey.toJson order.keys)]

end LinkQuery
