import LinkQuery.FieldSet
import LinkQuery.Grouping.Build
import LinkQuery.Metric.Build
import LinkQuery.Query.Promotion
import LinkQuery.SortOrder
import LinkQuery.TokenLog
/-!
# Compiling expressions

An expression becomes a log of tokens, the log becomes a structure that is read against the schema,
and the filters in that structure are settled. Blank expressions are empty.

- `Compiler.filter`, `Compiler.groupings`, `Compiler.metrics`, `Compiler.statistic`,
  `Compiler.parameters`, `Compiler.fieldSet`, `Compiler.sortOrder`: one for each kind.
-/
namespace LinkQuery

/-- A schema with the settings to compile expressions against it. -/
structure Compiler where
  schema : Schema
  settings : Settings

namespace Compiler

/-- The log of an expression. -/
def log (c : Compiler) (kind : ExpressionKind) (input : String) : Except QueryError (List Token) :=
  TokenLog.ofText c.settings kind input

/-- The schema with the clock of the settings, whose zone has to exist. -/
def scope (c : Compiler) : Except QueryError Filter.Scope := do
  return ⟨c.schema, ← Clock.ofSettings c.settings⟩

/-! ## Structures of a log -/

/-- The filter of a log before it is settled. -/
def buildFilter (c : Compiler) (table : String) (tokens : List Token) :
    Except QueryError (Option Query) := do
  Filter.build (← c.scope) table tokens

/-- The grouping sets of a log before their filters are settled. -/
def buildGroupings (c : Compiler) (base : Option Query) (table : String) (tokens : List Token) :
    Except QueryError (List GroupingSet) := do
  Grouping.build (← c.scope) base table tokens

/-- The metrics of a log before their filters are settled. -/
def buildMetrics (c : Compiler) (table : String) (tokens : List Token) :
    Except QueryError (List MetricExpr) := do
  Metric.build (← c.scope) table tokens

/-- The statistic of a log before its filter is settled. -/
def buildStatistic (c : Compiler) (table : String) (tokens : List Token) :
    Except QueryError (Option MetricCall) := do
  Metric.buildStatistic (← c.scope) table tokens

/-- The field set of a log. -/
def buildFieldSet (c : Compiler) (table : String) (tokens : List Token) :
    Except QueryError (Option FieldSet) := do
  FieldSet.build (← c.scope) table tokens

/-! ## Settling filters -/

/-- The filter settled, if there is one. -/
def settleIfAny (c : Compiler) (table : String) :
    Option Query → Except QueryError (Option Query)
  | none => .ok none
  | some q => some <$> q.settle c.schema table

/-- The level with its filter settled. -/
def settleLevel (c : Compiler) (table : String) (g : Grouping) : Except QueryError Grouping := do
  return { g with filter := ← c.settleIfAny table g.filter }

/-- The set with the filters of its levels settled. -/
def settleSet (c : Compiler) (table : String) (set : GroupingSet) :
    Except QueryError GroupingSet := do
  return ⟨← set.levels.mapM (c.settleLevel table)⟩

/-- The call with its filter settled. -/
def settleCall (c : Compiler) (table : String) (found : MetricCall) :
    Except QueryError MetricCall := do
  return { found with filter := ← c.settleIfAny table found.filter }

/-- The metric with the filters of its calls settled. -/
def settleMetric (c : Compiler) (table : String) : MetricExpr → Except QueryError MetricExpr
  | .call found => .call <$> c.settleCall table found
  | .binary op left right => do
    let left ← settleMetric c table left
    return .binary op left (← settleMetric c table right)
  | other => .ok other

/-! ## Expressions -/

/-- The filter tree of an expression. -/
def filter (c : Compiler) (table input : String) : Except QueryError (Option Query) := do
  let tokens ← c.log .filter input
  c.settleIfAny table (← c.buildFilter table tokens)

/-- The grouping sets of an expression under a base filter. -/
def groupingsUnder (c : Compiler) (base : Option Query) (table input : String) :
    Except QueryError (List GroupingSet) := do
  let tokens ← c.log .aggregationGroup input
  let sets ← c.buildGroupings base table tokens
  sets.mapM (c.settleSet table)

/-- The grouping sets of an expression. -/
def groupings (c : Compiler) (table input : String) : Except QueryError (List GroupingSet) :=
  c.groupingsUnder none table input

/-- The grouping sets of an expression with a filter, which is compiled first. -/
def groupingsWithFilter (c : Compiler) (table input filterText : String) :
    Except QueryError (List GroupingSet) := do
  c.groupingsUnder (← c.filter table filterText) table input

/-- The metrics of an expression. -/
def metrics (c : Compiler) (table input : String) : Except QueryError (List MetricExpr) := do
  let tokens ← c.log .aggregationMetric input
  let found ← c.buildMetrics table tokens
  found.mapM (c.settleMetric table)

/-- The statistic of an expression. -/
def statistic (c : Compiler) (table input : String) : Except QueryError (Option MetricCall) := do
  let tokens ← c.log .statisticMetric input
  (← c.buildStatistic table tokens).mapM (c.settleCall table)

/-- The parameters of an expression. -/
def parameters (c : Compiler) (input : String) : Except QueryError (List Parameter) := do
  Metric.buildParameters (← c.log .statisticParams input)

/-- The field set of an expression. -/
def fieldSet (c : Compiler) (table input : String) : Except QueryError (Option FieldSet) := do
  c.buildFieldSet table (← c.log .fieldSet input)

/-- The sort order of an expression. -/
def sortOrder (c : Compiler) (table input : String) : Except QueryError (Option SortOrder) := do
  SortOrder.build c.schema table (← c.log .sortOrder input)

end Compiler

end LinkQuery
