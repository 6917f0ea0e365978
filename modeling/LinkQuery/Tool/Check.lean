import LinkQuery.Compiler
import LinkQuery.Grouping.Document
import LinkQuery.Metric.Document
import LinkQuery.Tool.Listing
import LinkQuery.Tool.Manual
/-!
# Checking an expression

An expression of some kind is compiled against a schema document, and the result is given as JSON.
It can also be checked against its grammar alone, without a schema.
-/
namespace LinkQuery

/-- Why the tool cannot do what it is asked. -/
inductive ToolError where
  | query (why : QueryError)
  | document (why : DocumentError)
  | unreadable (reason : String)
  | noSchema
  | unknownKind (name : String)
  | unknownTopic (name : String)
deriving Repr, DecidableEq

/-- The wording of an error. -/
def ToolError.message : ToolError → String
  | .query why => why.message
  | .document why => "Invalid JSON: " ++ why.message
  | .unreadable reason => "IO error: " ++ reason
  | .noSchema => "No schema provided. Use --schema or pipe a JSON schema to stdin."
  | .unknownKind name =>
    s!"Unknown expression kind: '{name}'\nExpected one of: " ++
      ", ".intercalate (ExpressionKind.all.map (·.name))
  | .unknownTopic name =>
    s!"Unknown topic: '{name}'\nRun 'tabula docs' to see available topics."

/-- The page of the manual for a topic. -/
def Manual.topicText (name : String) : Except ToolError String :=
  match Manual.topic? name with
  | some topic => .ok topic.text
  | none => .error (.unknownTopic name)

/-- The kind of expression with a name, in any letter case, with hyphens or underscores. -/
def ExpressionKind.ofName (name : String) : Except ToolError ExpressionKind :=
  match all.find? fun kind => kind.name == Manual.normalName name with
  | some kind => .ok kind
  | none => .error (.unknownKind name)

/-- An expression with what it is checked against. -/
structure CheckRequest where
  kind : ExpressionKind
  expression : String
  table : String
  /-- The schema document. -/
  schema : Option String
  timeZone : Option String
  /-- Only the grammar is checked. -/
  grammarOnly : Bool
deriving Repr

namespace CheckRequest

/-- The settings of a check at some present. -/
def settings (r : CheckRequest) (now : Time.Timestamp) : Settings :=
  let standard := Settings.standard now
  { standard with timeZone := r.timeZone.getD standard.timeZone }

/-- What a compiler makes of the expression, as JSON. -/
def compile (r : CheckRequest) (c : Compiler) : Except QueryError Json :=
  match r.kind with
  | .filter => (c.filter r.table r.expression).map (.option Query.toJson)
  | .aggregationGroup => (c.groupings r.table r.expression).map (.list GroupingSet.toJson)
  | .aggregationMetric => (c.metrics r.table r.expression).map (.list MetricExpr.toJson)
  | .statisticMetric => (c.statistic r.table r.expression).map (.option MetricCall.toJson)
  | .statisticParams => (c.parameters r.expression).map (.list Parameter.toJson)
  | .fieldSet => (c.fieldSet r.table r.expression).map (.option FieldSet.toJson)
  | .sortOrder => (c.sortOrder r.table r.expression).map (.option SortOrder.toJson)

/-- The schema of the request. -/
def readSchema (r : CheckRequest) : Except ToolError Schema :=
  match r.schema with
  | none => .error .noSchema
  | some text => (Schema.ofDocument text).mapError .document

/-- The result of the check, nothing if only the grammar is checked. -/
def run (r : CheckRequest) (now : Time.Timestamp) : Except ToolError (Option Json) := do
  if r.grammarOnly then
    let _ ← (TokenLog.ofText (r.settings now) r.kind r.expression).mapError .query
    return none
  else
    let schema ← r.readSchema
    let output ← (r.compile ⟨schema, r.settings now⟩).mapError .query
    return some output

end CheckRequest

end LinkQuery
