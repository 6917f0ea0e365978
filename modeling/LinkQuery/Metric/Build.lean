import LinkQuery.Decimal.Reader
import LinkQuery.Filter.Build
import LinkQuery.Metric.Basic
/-!
# Metrics from a log

Metrics are read with a stack of operands and of operators. Filters along the path of a call are
carried back to the table that the path starts in. The difference between two given instants is a
number at once.

- `Metric.build`, `Metric.buildStatistic`, `Metric.buildParameters`: what a log holds.
-/
namespace LinkQuery.Metric

open ElementReader LinkQuery.Filter

/-- Reads a decimal. -/
def decimalOf (text : String) : Except QueryError Decimal :=
  match Decimal.ofText? text with
  | some value => .ok value
  | none => invalid (.numberText text)

/-! ## Calls -/

/-- The filters along segments, each behind the links that lead to the table it is built for. -/
def carriedFilters (scope : Scope) (links : List String) :
    List ResolvedSegment → Except QueryError (List (Option Query))
  | [] => .ok []
  | s :: rest => do
    let here ← if s.segment.filters.isEmpty then pure []
      else match s.role.target? with
        | some target => do
          let filter ← buildAll scope target s.segment.filters
          pure [Query.throughLinks (links ++ [s.name]) filter]
        | none => do
          let filter ← buildAll scope s.table s.segment.filters
          pure [Query.throughLinks links filter]
    return here ++ (← carriedFilters scope (links ++ [s.name]) rest)

/-- Values of these types have an order that functions of metrics can use. -/
def isOrdered : Option ScalarType → Bool
  | some .integer | some .float | some .timestamp => true
  | _ => false

/-- The names along the path of a call, and the filters on it. -/
def callPath (scope : Scope) (table : String) (function : MetricFunction) (keyword : String)
    (path : Path) : Except QueryError (List String × Option Query) := do
  path.requirePlain .metric
  let resolved ← scope.schema.resolve table path
  if function.needsOrder && !isOrdered resolved.leaf.role.scalarType? then
    invalid (.orderedLeaf keyword path.dotted)
  let filters ← carriedFilters scope [] resolved.segments
  return (resolved.names, Query.andAll filters)

/-- Reads what a function is called on: a star or a path. -/
def callTarget (scope : Scope) (table : String) (function : MetricFunction) (keyword : String) :
    ElementReader (List String × Option Query) := do
  if ← symbolIf "*" then
    if function ≠ .count then refuse (.starOnly keyword)
    return ([], none)
  else lift (callPath scope table function keyword (← nextPath))

/-- Only rounding takes a parameter, and it needs one. -/
def checkParameter (function : MetricFunction) (keyword : String) (parameter : Option Decimal) :
    Except QueryError Unit :=
  if function = .roundUp then
    if parameter.isNone then invalid .roundUpStep else .ok ()
  else if parameter.isSome then invalid (.singlePath keyword)
  else .ok ()

/-- Reads a call behind its keyword. -/
def call (scope : Scope) (table keyword : String) : ElementReader MetricCall := do
  match MetricFunction.ofKeyword? keyword with
  | none => fail (.unknownFunction keyword)
  | some function =>
    symbol "("
    let (names, filter) ← callTarget scope table function keyword
    let parameter ← if ← symbolIf "," then some <$> lift (decimalOf (← nextToken).value) else pure none
    symbol ")"
    lift (checkParameter function keyword parameter)
    return ⟨function, names, filter, parameter⟩

/-! ## Differences between instants -/

/-- The field of instants at the end of a path. -/
def timeField (scope : Scope) (table : String) (path : Path) : Except QueryError TimeOperand := do
  path.requirePlain .dateDifference
  if path.isRestricted then invalid .whereInDateDiff
  let resolved ← scope.schema.resolve table path
  if resolved.leaf.role.scalarType? ≠ some .timestamp then invalid (.dateDiffLeaf path.dotted)
  return .field resolved.names

/-- Reads an instant or a field. -/
def timeOperand (scope : Scope) (table : String) : ElementReader TimeOperand := do
  match ← peek? with
  | none => fail .dateDiffEnd
  | some (.path p) =>
    skip
    lift (timeField scope table p)
  | some (.token t) =>
    skip
    if t.isKeyword "NOW" then return .timestamp (← Value.now scope.clock)
    else if t.kind = .quoted then
      match Time.Timestamp.ofText? t.value with
      | some instant => return .timestamp instant
      | none => refuse (.timestampText t.value)
    else fail (.dateDiffArgument t)

/-- The difference between two operands, a number if both are given. -/
def difference (unit : Time.TimeUnit) : TimeOperand → TimeOperand → MetricExpr
  | .timestamp start, .timestamp finish =>
    .number (.ofInt (Time.Timestamp.unitsBetween unit start finish))
  | start, finish => .dateDifference unit start finish

/-- Reads a difference behind its keyword. -/
def dateDifference (scope : Scope) (table : String) : ElementReader MetricExpr := do
  symbol "("
  let unit ← lift (Value.unitOf (← nextToken))
  symbol ","
  let start ← timeOperand scope table
  symbol ","
  let finish ← timeOperand scope table
  symbol ")"
  return difference unit start finish

/-! ## Arithmetic -/

/-- The operands and operators of a metric. -/
abbrev Stacks := OperatorStacks ArithmeticOp MetricExpr

/-- Applies an operator to the operands on top of the stack. -/
def apply (op : ArithmeticOp) : List MetricExpr → Except QueryError (List MetricExpr)
  | right :: left :: rest => .ok (.binary op left right :: rest)
  | _ => internal .metricOperator

/-- Reads a symbol of a metric; a comma or a parenthesis that opened outside ends the metric. -/
def symbolStep (s : Stacks) (text : String) : ElementReader (Progress Stacks) := do
  if text == "(" then
    skip
    return .more s.opened
  else if text == ")" then
    if s.outer.isEmpty then return .done s
    skip
    return .more (← lift (s.closed apply .metricParentheses))
  else if text == "," then return .done s
  else match ArithmeticOp.ofSymbol? text with
    | none => fail (.metricSymbol text)
    | some op =>
      skip
      return .more (← lift (s.connected apply ArithmeticOp.rank op))

/-- Reads an operand or a symbol of a metric; anything but a token ends the metric. -/
def step (scope : Scope) (table : String) (s : Stacks) : ElementReader (Progress Stacks) := do
  match ← peekToken? with
  | none => return .done s
  | some t =>
    match t.kind with
    | .symbol => symbolStep s t.value
    | .number =>
      skip
      return .more (s.push (.number (← lift (decimalOf t.value))))
    | .keyword =>
      skip
      if t.value == "DATEDIFF" then return .more (s.push (← dateDifference scope table))
      else return .more (s.push (.call (← call scope table t.value)))
    | _ => fail (.metricToken t)

/-- Reads a metric. -/
def expression (scope : Scope) (table : String) : ElementReader MetricExpr := do
  let s ← loop (step scope table) .empty
  match ← lift (s.finish apply .metricParentheses) with
  | [only] => return only
  | _ => fail .metricOperands

/-! ## Logs -/

/-- The metrics of a log. -/
def build (scope : Scope) (table : String) (tokens : List Token) :
    Except QueryError (List MetricExpr) :=
  run (untilEnd (fun metrics => do
    let metric ← expression scope table
    separator .metricSeparator
    return metrics ++ [metric]) []) .list tokens

/-- Reads the call of a statistic, which has to be all there is. -/
def statistic (scope : Scope) (table : String) : ElementReader MetricCall := do
  let keyword ← nextToken
  let found ← call scope table keyword.value
  if !(← atEnd) then fail .trailingStatistic
  return found

/-- The call of a statistic in a log; an empty log has none. -/
def buildStatistic (scope : Scope) (table : String) (tokens : List Token) :
    Except QueryError (Option MetricCall) :=
  if tokens.isEmpty then .ok none else some <$> run (statistic scope table) .list tokens

/-- Reads a named parameter, whose name is not among those before it. -/
def parameter (earlier : List Parameter) : ElementReader (List Parameter) := do
  let name := (← nextToken).value
  symbol "="
  let value := (← nextToken).value
  if earlier.any (·.name == name) then refuse (.repeatedParameter name)
  separator .parameterSeparator
  return earlier ++ [⟨name, value⟩]

/-- The parameters of a log. -/
def buildParameters (tokens : List Token) : Except QueryError (List Parameter) :=
  run (untilEnd parameter []) .list tokens

end LinkQuery.Metric
