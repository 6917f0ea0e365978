import LinkQuery.Language.ListRules
import LinkQuery.Rule.Matching
/-!
# Kinds of expressions

The seven kinds of expressions with their names and the rules that their texts have to match.
-/
namespace LinkQuery

namespace Language

/-- The rule of each part of the language. -/
def Part.body : Part → PartRule
  | .filter => Language.filter
  | .segment => Language.segment
  | .step => Language.step
  | .groupItem => Language.groupItem
  | .metric => Language.metric
  | .fieldList => Language.fieldList
  | .fieldItem => Language.fieldItem

end Language

/-- What an expression is written for. -/
inductive ExpressionKind where
  | filter
  | aggregationGroup
  | aggregationMetric
  | statisticMetric
  | statisticParams
  | fieldSet
  | sortOrder
deriving Repr, DecidableEq

namespace ExpressionKind

/-- All kinds. -/
def all : List ExpressionKind :=
  [.filter, .aggregationGroup, .aggregationMetric, .statisticMetric, .statisticParams, .fieldSet,
   .sortOrder]

/-- The name of a kind. -/
def name : ExpressionKind → String
  | .filter => "filter"
  | .aggregationGroup => "aggregation-group"
  | .aggregationMetric => "aggregation-metric"
  | .statisticMetric => "statistic-metric"
  | .statisticParams => "statistic-params"
  | .fieldSet => "field-set"
  | .sortOrder => "sort-order"

/-- What an expression of a kind is called when it is missing. -/
def description : ExpressionKind → String
  | .filter => "a filter expression"
  | .aggregationGroup => "a grouping list"
  | .aggregationMetric => "a metric list"
  | .statisticMetric => "a metric function call"
  | .statisticParams => "a parameter list"
  | .fieldSet => "a field set"
  | .sortOrder => "a sort order"

/-- The rule that the texts of a kind have to match. -/
def rule : ExpressionKind → Language.PartRule
  | .filter => .nonterminal .filter
  | .aggregationGroup => Language.groupings
  | .aggregationMetric => Language.metrics
  | .statisticMetric => Language.metricCall
  | .statisticParams => Language.parameters
  | .fieldSet => .nonterminal .fieldList
  | .sortOrder => Language.sortKeys

end ExpressionKind

end LinkQuery
