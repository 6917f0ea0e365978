import LinkQuery.Grouping.Basic
import LinkQuery.Query.Document
import LinkQuery.Schema.Document
/-!
# Groupings as JSON
-/
namespace LinkQuery

/-- The JSON form of a step of a path. -/
def GroupItem.toJson (item : GroupItem) : Json :=
  .object [
    ("name", .text item.name),
    ("kind", item.kind.toJson),
    ("filter", .option Query.toJson item.filter),
    ("nested_links", .texts item.nestedLinks)]

/-- The JSON form of given buckets. -/
def Batching.toJson : Batching → Json
  | .boundaries values => .tagged "Boundaries" (.list Literal.toJson values)
  | .sets values => .tagged "Sets" (.list Literal.toJson values)

/-- The JSON form of a selection. -/
def Selection.toJson (selection : Selection) : Json :=
  let kind := match selection.kind with
    | .top => "Top"
    | .bottom => "Bottom"
    | .first => "First"
    | .last => "Last"
  .object [("kind", .text kind), ("count", .nat selection.count)]

/-- The JSON form of a letter case. -/
def CaseFold.toJson : CaseFold → Json
  | .upper => .text "Upper"
  | .lower => .text "Lower"

/-- The JSON form of a truncation. -/
def Truncation.toJson (t : Truncation) : Json :=
  .object [("unit", t.unit.toJson), ("zone", .text t.zone)]

/-- The JSON form of a level. -/
def Grouping.toJson (g : Grouping) : Json :=
  .object [
    ("items", .list GroupItem.toJson g.items),
    ("truncate", .option Truncation.toJson g.truncate),
    ("batch", .option Batching.toJson g.batch),
    ("selection", .option Selection.toJson g.selection),
    ("exclude", .list Literal.toJson g.excluded),
    ("include", .list Literal.toJson g.included),
    ("case_fold", .option CaseFold.toJson g.caseFold),
    ("terms", .bool g.terms),
    ("stop_words", .texts g.stopWords),
    ("filter", .option Query.toJson g.filter)]

/-- The JSON form of a grouping set. -/
def GroupingSet.toJson (set : GroupingSet) : Json :=
  .object [("levels", .list Grouping.toJson set.levels)]

end LinkQuery
