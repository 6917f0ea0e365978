import LinkQuery.Json.Basic
import LinkQuery.Query.Basic
/-!
# Filter trees as JSON

Each node is an object with its kind as the only name, or the kind alone if it holds nothing.
-/
namespace LinkQuery

/-- The JSON form of a quantifier. -/
def Quantifier.toJson (quantifier : Quantifier) : Json :=
  .text <| match quantifier with
    | .any => "Any"
    | .all => "All"
    | .none => "None"
    | .count => "Count"

/-- The JSON form of a comparison operator. -/
def CompareOp.toJson (op : CompareOp) : Json :=
  .text <| match op with
    | .eq => "Eq"
    | .contains => "Contains"
    | .lt => "Lt"
    | .le => "Le"
    | .gt => "Gt"
    | .ge => "Ge"

/-- The JSON form of a path operator. -/
def PathOp.toJson (op : PathOp) : Json :=
  .text <| match op with
    | .equals => "Equals"
    | .differs => "Differs"
    | .intersects => "Intersects"
    | .contains => "Contains"
    | .disjoint => "Disjoint"

/-- The JSON form of a unit of time. -/
def Time.TimeUnit.toJson (unit : Time.TimeUnit) : Json :=
  .text <| match unit with
    | .second => "Second"
    | .minute => "Minute"
    | .hour => "Hour"
    | .day => "Day"
    | .week => "Week"
    | .month => "Month"
    | .quarter => "Quarter"
    | .year => "Year"

/-- The JSON form of a decimal: its text. -/
def Decimal.toJson (d : Decimal) : Json :=
  .text d.text

/-- The JSON form of a timestamp: its text with a `T`. -/
def Time.Timestamp.toJson (t : Time.Timestamp) : Json :=
  .text t.isoText

/-- The JSON form of a literal. -/
def Literal.toJson : Literal → Json
  | .text value => .tagged "Text" (.text value)
  | .number value => .tagged "Number" value.toJson
  | .boolean value => .tagged "Boolean" (.bool value)
  | .timestamp value => .tagged "Timestamp" value.toJson

/-- The JSON form of an interval. -/
def Interval.toJson {α : Type} (encode : α → Json) (r : Interval α) : Json :=
  .object [
    ("min", .option encode r.min),
    ("max", .option encode r.max),
    ("min_inclusive", .bool r.minInclusive),
    ("max_inclusive", .bool r.maxInclusive)]

namespace Query

mutual

/-- The JSON form of a tree. -/
def toJson : Query → Json
  | .everything => .text "All"
  | .nothing => .text "None"
  | .allOf children => .tagged "And" (.array (toJsons children))
  | .anyOf children => .tagged "Or" (.array (toJsons children))
  | .negated inner => .tagged "Not" (toJson inner)
  | .comparison field op value =>
    .tagged "Comparison" (.object [
      ("field", .text field), ("op", op.toJson), ("value", value.toJson)])
  | .interval field range =>
    .tagged "Range" (.object [("field", .text field), ("range", range.toJson Literal.toJson)])
  | .multiValue quantifier inner =>
    .tagged "MultiValue" (.object [("quantifier", quantifier.toJson), ("inner", toJson inner)])
  | .link quantifier name filter inner =>
    .tagged "Link" (.object [
      ("quantifier", quantifier.toJson), ("link", .text name),
      ("filter", toJsonIfAny filter), ("inner", toJsonIfAny inner)])
  | .transitiveLink name depth inner =>
    .tagged "TransitiveLink" (.object [
      ("link", .text name), ("depth", .option .nat depth), ("inner", toJsonIfAny inner)])
  | .linkId quantifier name id =>
    .tagged "LinkId" (.object [
      ("quantifier", quantifier.toJson), ("link", .text name), ("id", .text id)])
  | .objectId id => .tagged "Id" (.object [("id", .text id)])
  | .linkCount name filter op count =>
    .tagged "LinkCount" (.object [
      ("link", .text name), ("filter", toJsonIfAny filter), ("op", op.toJson),
      ("count", .nat count)])
  | .linkCountRange name filter range =>
    .tagged "LinkCountRange" (.object [
      ("link", .text name), ("filter", toJsonIfAny filter), ("range", range.toJson .nat)])
  | .fieldCount field op count =>
    .tagged "FieldCount" (.object [
      ("field", .text field), ("op", op.toJson), ("count", .nat count)])
  | .fieldCountRange field range =>
    .tagged "FieldCountRange" (.object [("field", .text field), ("range", range.toJson .nat)])
  | .pathCountRange path range =>
    .tagged "PathCountRange" (.object [("path", .texts path), ("range", range.toJson .nat)])
  | .pathComparison op left right =>
    .tagged "PathComparison" (.object [
      ("op", op.toJson), ("left", .texts left), ("right", .texts right)])

/-- The JSON forms of several trees. -/
def toJsons : List Query → List Json
  | [] => []
  | child :: rest => toJson child :: toJsons rest

/-- The JSON form of a tree that may be missing. -/
def toJsonIfAny : Option Query → Json
  | none => .null
  | some inner => toJson inner

end

end Query

end LinkQuery
