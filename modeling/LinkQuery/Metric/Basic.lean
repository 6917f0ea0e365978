import LinkQuery.Query.Basic
/-!
# Metrics

A metric is arithmetic over calls of functions on paths, numbers and differences between instants.
-/
namespace LinkQuery

open Time (TimeUnit Timestamp)

/-- A function over the values at the end of a path. -/
inductive MetricFunction where
  | count | sum | average | min | max | distinct | minCount | maxCount | roundUp
deriving Repr, DecidableEq

namespace MetricFunction

/-- The keyword of a function. -/
def keyword : MetricFunction → String
  | .count => "COUNT"
  | .sum => "SUM"
  | .average => "AVERAGE"
  | .min => "MIN"
  | .max => "MAX"
  | .distinct => "DISTINCT"
  | .minCount => "MINCOUNT"
  | .maxCount => "MAXCOUNT"
  | .roundUp => "ROUNDUP"

/-- The function of a keyword. -/
def ofKeyword? (word : String) : Option MetricFunction :=
  [.count, .sum, .average, .min, .max, .distinct, .minCount, .maxCount, .roundUp].find?
    (·.keyword == word)

/-- The function needs values that are numbers or timestamps. -/
def needsOrder : MetricFunction → Bool
  | .sum | .average | .min | .max | .roundUp => true
  | _ => false

end MetricFunction

/-- An operator of arithmetic. -/
inductive ArithmeticOp where
  | add | subtract | multiply | divide
deriving Repr, DecidableEq

namespace ArithmeticOp

/-- The symbol of an operator. -/
def symbol : ArithmeticOp → String
  | .add => "+"
  | .subtract => "-"
  | .multiply => "*"
  | .divide => "/"

/-- The operator of a symbol. -/
def ofSymbol? (text : String) : Option ArithmeticOp :=
  [.add, .subtract, .multiply, .divide].find? (·.symbol == text)

/-- How closely an operator binds. -/
def rank : ArithmeticOp → Nat
  | .add | .subtract => 1
  | .multiply | .divide => 2

end ArithmeticOp

/-- The call of a function. -/
structure MetricCall where
  function : MetricFunction
  /-- The path to the values; empty for the objects themselves. -/
  path : List String
  /-- The filters along the path, as a filter of the table that the path starts in. -/
  filter : Option Query
  parameter : Option Decimal

/-- An instant, or a field that holds instants. -/
inductive TimeOperand where
  | timestamp (value : Timestamp)
  | field (path : List String)

/-- A metric. -/
inductive MetricExpr where
  | call (c : MetricCall)
  | number (value : Decimal)
  /-- The whole units from one instant to another. -/
  | dateDifference (unit : TimeUnit) (start finish : TimeOperand)
  | binary (op : ArithmeticOp) (left right : MetricExpr)

/-- A named parameter of a statistic. -/
structure Parameter where
  name : String
  value : String
deriving Repr, DecidableEq

end LinkQuery
