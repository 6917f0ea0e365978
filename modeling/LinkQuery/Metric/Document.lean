import LinkQuery.Metric.Basic
import LinkQuery.Query.Document
/-!
# Metrics as JSON
-/
namespace LinkQuery

/-- The JSON form of a function. -/
def MetricFunction.toJson (function : MetricFunction) : Json :=
  .text <| match function with
    | .count => "Count"
    | .sum => "Sum"
    | .average => "Average"
    | .min => "Min"
    | .max => "Max"
    | .distinct => "Distinct"
    | .minCount => "MinCount"
    | .maxCount => "MaxCount"
    | .roundUp => "RoundUp"

/-- The JSON form of an operator. -/
def ArithmeticOp.toJson (op : ArithmeticOp) : Json :=
  .text <| match op with
    | .add => "Add"
    | .subtract => "Subtract"
    | .multiply => "Multiply"
    | .divide => "Divide"

/-- The JSON form of a call. -/
def MetricCall.toJson (found : MetricCall) : Json :=
  .object [
    ("function", found.function.toJson),
    ("path", .texts found.path),
    ("filter", .option Query.toJson found.filter),
    ("parameter", .option Decimal.toJson found.parameter)]

/-- The JSON form of an operand of a difference. -/
def TimeOperand.toJson : TimeOperand → Json
  | .timestamp value => .tagged "Timestamp" value.toJson
  | .field path => .tagged "Field" (.texts path)

/-- The JSON form of a metric. -/
def MetricExpr.toJson : MetricExpr → Json
  | .call found => .tagged "Call" found.toJson
  | .number value => .tagged "Number" value.toJson
  | .dateDifference unit start finish =>
    .tagged "DateDiff" (.object [
      ("unit", unit.toJson), ("from", start.toJson), ("to", finish.toJson)])
  | .binary op left right =>
    .tagged "Binary" (.object [
      ("op", op.toJson), ("left", toJson left), ("right", toJson right)])

/-- The JSON form of a parameter. -/
def Parameter.toJson (p : Parameter) : Json :=
  .object [("name", .text p.name), ("value", .text p.value)]

end LinkQuery
