import LinkQuery.Query.Operators
import LinkQuery.Schema.Basic
import LinkQuery.Time.Unit
import LinkQuery.Token
/-!
# Errors of compiling

An expression is refused because its text does not match the grammar, because it asks for
something that the schema or the language does not allow, or because a token log has a shape that
no grammar produces. Each cause is a constructor; `QueryError.message` is the wording.
-/
namespace LinkQuery

open Time (TimeUnit)

/-- What was found missing where matching stopped. -/
inductive Mismatch where
  /-- Something else had to follow. -/
  | expected (what : String)
  /-- The expression was over before the input. -/
  | leftover
deriving Repr, DecidableEq

/-- Why an expression is invalid. -/
inductive InvalidCause where
  | tooLong (length limit : Nat)
  | tooDeep (limit : Nat)
  | unknownZone (text : String)
  -- paths
  | transitiveDepth (text : String)
  | repeatedCondition (link : String)
  | fieldLimit (text field : String)
  | quantifierInPath (use path : String)
  | transitiveInPath (link use : String)
  -- names and traversal
  | unknownField (field table : String)
  | unknownSystemField (field : String)
  | linkWithoutTarget (link : String)
  | emptyGroup (group : String)
  | transitiveTarget (link table : String)
  | notTransitive (field : String)
  | notFollowable (field : String)
  | notALink (field : String)
  | groupWithoutLinks (group : String)
  -- values
  | offsetOutOfRange (amount : Int) (unit : TimeUnit)
  | offsetNotWhole (text : String)
  | periodCount (text : String)
  | emptyPeriod (keyword : String)
  | periodTakesNoCount (keyword : String)
  | nullComparison
  | literalType (text : String) (type : ScalarType) (field : String)
  | timestampText (text : String)
  | numberText (text : String)
  -- filters
  | countNotWhole (text : String)
  | countNotNumber (text : String)
  | countRangeOperator
  | containsOnCount
  | containsOnId
  | countOnGroup (field : String)
  | groupLeadsNowhere (field : String)
  | conditionNotLast (link : String)
  | rangeOnLink (link : String)
  | operatorOnLink (op : CompareOp) (link : String)
  | transitiveCondition (link : String)
  | operatorOnTransitive (op : CompareOp) (link : String)
  | countOnTransitive (link : String)
  | quantifierOnTransitive (quantifier : Quantifier) (link : String)
  | whereOnField (field : String)
  | rangeOperator (op : CompareOp) (field : String)
  | countQuantifier (field : String)
  | whereInDistinctCount (path : String)
  | distinctCountPath (path : String)
  | whereInPathOperator (op : PathOp) (path : String)
  -- groupings
  | selectionCount (keyword text : String)
  | zeroSelection (keyword : String)
  | repeatedSelection
  | repeatedBatch (field : String)
  | batchOn (keyword what field : String)
  | batchWithoutValues (keyword field : String)
  | batchOrder (field : String)
  | setsRepeat (field : String)
  | takesNoArguments (keyword : String)
  | leafType (what : String) (type : ScalarType) (field : String)
  -- metrics
  | starOnly (keyword : String)
  | roundUpStep
  | singlePath (keyword : String)
  | orderedLeaf (keyword path : String)
  | whereInDateDiff
  | dateDiffLeaf (path : String)
  | repeatedParameter (name : String)
  -- field sets and sort orders
  | limitOnField (field : String)
  | subFieldsOf (field : String)
  | whereInSort (path : String)
  | sortLeaf (path : String)
deriving Repr, DecidableEq

/-- The wording of a cause. -/
def InvalidCause.message : InvalidCause → String
  | .tooLong length limit => s!"Expression is {length} characters long, the limit is {limit}"
  | .tooDeep limit => s!"Expression nests deeper than {limit} levels"
  | .unknownZone text => s!"Unknown time zone '{text}'"
  | .transitiveDepth text => s!"Invalid transitive depth '{text}'"
  | .repeatedCondition link => s!"Link '{link}' has more than one quantified condition"
  | .fieldLimit text field => s!"Invalid limit '{text}' on field '{field}'"
  | .quantifierInPath use path => s!"Quantifiers are not allowed in {use} path '{path}'"
  | .transitiveInPath link use => s!"Transitive link '{link}' is not allowed in {use} path"
  | .unknownField field table => s!"Unknown field '{field}' in table '{table}'"
  | .unknownSystemField field => s!"Unknown system field '{field}'"
  | .linkWithoutTarget link => s!"Link '{link}' has no target table"
  | .emptyGroup group => s!"Group field '{group}' is empty"
  | .transitiveTarget link table =>
    s!"Transitive link '{link}' must point back to table '{table}'"
  | .notTransitive field => s!"Field '{field}' is not a link and cannot be transitive"
  | .notFollowable field =>
    s!"Field '{field}' is not a link and cannot be followed by further path segments"
  | .notALink field => s!"Field '{field}' is not a link"
  | .groupWithoutLinks group => s!"Group field '{group}' has no links"
  | .offsetOutOfRange amount unit => s!"Time offset of {amount} {unit.keyword} is out of range"
  | .offsetNotWhole text => s!"Time offset '{text}' must be a whole number"
  | .periodCount text => s!"Period count '{text}' must be a positive integer"
  | .emptyPeriod keyword => s!"{keyword}(0) is an empty period"
  | .periodTakesNoCount keyword => s!"{keyword} does not take a count"
  | .nullComparison => "NULL can only be tested with '=' or IS [NOT] NULL"
  | .literalType text type field =>
    s!"Value '{text}' is not a valid {type.name} for field '{field}'"
  | .timestampText text => s!"'{text}' is not a valid timestamp"
  | .numberText text => s!"Invalid number '{text}'"
  | .countNotWhole text => s!"Count '{text}' must be a non-negative integer"
  | .countNotNumber text => s!"Count must be compared with a number, not '{text}'"
  | .countRangeOperator => "A count range must be compared with '='"
  | .containsOnCount => "Operator ':' cannot be applied to a count"
  | .containsOnId => "Operator ':' cannot be applied to _ID"
  | .countOnGroup field => s!"COUNT cannot be applied to group field '{field}'"
  | .groupLeadsNowhere field => s!"Group field '{field}' has no links to follow"
  | .conditionNotLast link => s!"The condition on link '{link}' must end the term"
  | .rangeOnLink link => s!"A range cannot be compared with link field '{link}'"
  | .operatorOnLink op link => s!"Operator '{op.symbol}' cannot be applied to link field '{link}'"
  | .transitiveCondition link => s!"Transitive link '{link}' only supports ANY conditions"
  | .operatorOnTransitive op link =>
    s!"Operator '{op.symbol}' cannot be applied to transitive link '{link}'"
  | .countOnTransitive link => s!"COUNT cannot be applied to transitive link '{link}'"
  | .quantifierOnTransitive quantifier link =>
    s!"Quantifier {quantifier.keyword} cannot be applied to transitive link '{link}'"
  | .whereOnField field => s!"WHERE can only follow a link, not field '{field}'"
  | .rangeOperator op field =>
    s!"A range must be compared with '=', not '{op.symbol}' (field '{field}')"
  | .countQuantifier field => s!"COUNT cannot quantify the values of field '{field}'"
  | .whereInDistinctCount path => s!"WHERE is not supported inside DCOUNT({path})"
  | .distinctCountPath path => s!"DCOUNT({path}) needs a path through at least one link"
  | .whereInPathOperator op path => s!"WHERE is not supported inside {op.keyword}({path})"
  | .selectionCount keyword text => s!"{keyword} count '{text}' must be a positive integer"
  | .zeroSelection keyword => s!"{keyword} count must be at least 1"
  | .repeatedSelection => "A grouping can only have one TOP/BOTTOM/FIRST/LAST"
  | .repeatedBatch field => s!"Field '{field}' can only have one BATCH or SETS"
  | .batchOn keyword what field => s!"{keyword} cannot be applied to {what} '{field}'"
  | .batchWithoutValues keyword field => s!"{keyword} on '{field}' needs at least one value"
  | .batchOrder field => s!"BATCH values for '{field}' must be strictly ascending"
  | .setsRepeat field => s!"SETS values for '{field}' must not repeat"
  | .takesNoArguments keyword => s!"{keyword} takes no arguments"
  | .leafType what type field => s!"{what} needs a {type.name} field, '{field}' is not one"
  | .starOnly keyword => s!"{keyword}(*) is not supported, only COUNT(*)"
  | .roundUpStep => "ROUNDUP needs a rounding step, e.g. ROUNDUP(Amount, 10)"
  | .singlePath keyword => s!"{keyword} takes a single path"
  | .orderedLeaf keyword path =>
    s!"{keyword} needs a numeric or timestamp field, '{path}' is not one"
  | .whereInDateDiff => "WHERE is not allowed in a DATEDIFF field"
  | .dateDiffLeaf path => s!"DATEDIFF needs a timestamp field, '{path}' is not one"
  | .repeatedParameter name => s!"Parameter '{name}' is given more than once"
  | .limitOnField field =>
    s!"A limit or WHERE can only be applied to a link, not field '{field}'"
  | .subFieldsOf field => s!"Field '{field}' is not a link and cannot have sub-fields"
  | .whereInSort path => s!"WHERE is not allowed in sort path '{path}'"
  | .sortLeaf path => s!"Cannot sort by '{path}', it does not end on a single-valued field"

/-- How a token log fails to be one that a grammar produces. -/
inductive InternalCause where
  -- paths and elements
  | isWithoutNull
  | keywordInPath (word : String)
  | loneQuantifier (word : String)
  | tokenInPath (token : Token)
  | unterminatedPath
  | beforeSegment (token : Token)
  | unterminatedBlock
  | emptyPath
  | tokenInFieldSet (token : Token)
  | unterminatedChildren
  -- reading elements
  | pathForToken (path : String)
  | endOfTokens
  | tokenForPath (token : Token)
  | endForPath
  | otherSymbol (symbol : String) (token : Token)
  | noProgress
  -- values
  | rangeWithoutTo
  | rangeClose (text : String)
  | valueToken (token : Token)
  | boundToken (token : Token)
  | unknownUnit (text : String)
  -- filters
  | unbalancedClose
  | unbalancedOpen
  | noOperand
  | operandsLeft (count : Nat)
  | unexpectedKeyword (word : String)
  | unexpectedToken (token : Token)
  | noComparison (token : Token)
  | notWithoutOperand
  | connectiveOperands (connective : Connective)
  | nestedGroup (group : String)
  -- groupings
  | groupingSeparator
  | noGroupingItem
  | groupingKeyword (word : String)
  | groupingModifier (word : String)
  | groupingWithoutItems
  | periodWithoutStart
  -- metrics
  | metricSeparator
  | trailingStatistic
  | metricSymbol (text : String)
  | metricToken (token : Token)
  | metricParentheses
  | metricOperands
  | metricOperator
  | unknownFunction (word : String)
  | dateDiffArgument (token : Token)
  | dateDiffEnd
  -- parameters and sort keys
  | parameterSeparator
  | sortSeparator
deriving Repr, DecidableEq

/-- The name of a connective in a message. -/
def Connective.shown : Connective → String
  | .and => "And"
  | .or => "Or"

/-- The wording of a cause. -/
def InternalCause.message : InternalCause → String
  | .isWithoutNull => "IS without NULL in token log"
  | .keywordInPath word => s!"unexpected keyword '{word}' in path"
  | .loneQuantifier word => s!"quantifier '{word}' without a path or condition"
  | .tokenInPath token => s!"unexpected token '{token.shown}' in path"
  | .unterminatedPath => "unterminated path in token log"
  | .beforeSegment token => s!"'{token.shown}' before any path segment"
  | .unterminatedBlock => "unterminated WHERE block in token log"
  | .emptyPath => "empty path in token log"
  | .tokenInFieldSet token => s!"unexpected token '{token.shown}' in field set"
  | .unterminatedChildren => "unterminated child list in field set"
  | .pathForToken path => s!"expected a token, found path '{path}'"
  | .endOfTokens => "unexpected end of token stream"
  | .tokenForPath token => s!"expected a path, found '{token.shown}'"
  | .endForPath => "expected a path at end of token stream"
  | .otherSymbol symbol token => s!"expected '{symbol}', found '{token.shown}'"
  | .noProgress => "no token was read"
  | .rangeWithoutTo => "range without TO"
  | .rangeClose text => s!"unexpected range close '{text}'"
  | .valueToken token => s!"unexpected value token '{token.shown}'"
  | .boundToken token => s!"unexpected range bound '{token.shown}'"
  | .unknownUnit text => s!"unknown time unit '{text}'"
  | .unbalancedClose => "unbalanced ')'"
  | .unbalancedOpen => "unbalanced '('"
  | .noOperand => "empty operand stack"
  | .operandsLeft count => s!"{count} operands left on the stack"
  | .unexpectedKeyword word => s!"unexpected keyword '{word}'"
  | .unexpectedToken token =>
    s!"unexpected token '{token.shown}' at position {token.position + 1}"
  | .noComparison token => s!"expected a comparison, found '{token.shown}'"
  | .notWithoutOperand => "NOT without operand"
  | .connectiveOperands connective => s!"{connective.shown} needs two operands"
  | .nestedGroup group => s!"group '{group}' inside a group"
  | .groupingSeparator => "expected ',' between grouping sets"
  | .noGroupingItem => "expected a grouping item"
  | .groupingKeyword word => s!"unexpected grouping keyword '{word}'"
  | .groupingModifier word => s!"unknown grouping modifier '{word}'"
  | .groupingWithoutItems => "grouping without items"
  | .periodWithoutStart => "period without a start"
  | .metricSeparator => "expected ',' between metrics"
  | .trailingStatistic => "trailing tokens after statistic metric"
  | .metricSymbol text => s!"unexpected symbol '{text}' in metric"
  | .metricToken token => s!"unexpected token '{token.shown}' in metric"
  | .metricParentheses => "unbalanced parentheses in metric"
  | .metricOperands => "metric operand stack out of balance"
  | .metricOperator => "metric operator without two operands"
  | .unknownFunction word => s!"unknown metric function '{word}'"
  | .dateDiffArgument token => s!"unexpected DATEDIFF argument '{token.shown}'"
  | .dateDiffEnd => "DATEDIFF without arguments"
  | .parameterSeparator => "expected ',' between parameters"
  | .sortSeparator => "expected ',' between sort keys"

/-- Why an expression is refused. -/
inductive QueryError where
  /-- The text does not match: the reason, the character index, and the input from there on. -/
  | mismatch (reason : Mismatch) (index : Nat) (remaining : List Char)
  | invalid (cause : InvalidCause)
  | internal (cause : InternalCause)
  /-- A timestamp left the years that timestamps are kept in, in a step that does not check. -/
  | overflow
deriving Repr, DecidableEq

/-- The wording of a mismatch. -/
def Mismatch.message : Mismatch → String
  | .expected what => "expected " ++ what
  | .leftover => "unexpected input"

namespace QueryError

/-- A mismatch at a character of the input. -/
def mismatchAt (input : List Char) (index : Nat) (reason : Mismatch) : QueryError :=
  .mismatch reason index (input.drop index)

/-- The character that a mismatch stands at. -/
def found (remaining : List Char) : String :=
  match remaining with
  | [] => "<end of input>"
  | c :: _ => String.singleton c

/-- The full text of an error; characters count from 1. -/
def message : QueryError → String
  | .mismatch reason index remaining =>
    s!"Syntax error at character '{found remaining}', position {index + 1}: {reason.message} " ++
      s!"(remaining: '{String.ofList remaining}')"
  | .invalid cause => "Invalid query: " ++ cause.message
  | .internal cause => "Internal query builder error: " ++ cause.message
  | .overflow => "Timestamp arithmetic overflowed"

end QueryError

/-- Refuses an expression as invalid. -/
def invalid {α : Type} (cause : InvalidCause) : Except QueryError α :=
  .error (.invalid cause)

/-- Refuses a token log that no grammar produces. -/
def internal {α : Type} (cause : InternalCause) : Except QueryError α :=
  .error (.internal cause)

end LinkQuery
