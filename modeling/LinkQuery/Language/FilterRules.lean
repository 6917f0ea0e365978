import LinkQuery.Language.PathRules
import LinkQuery.Language.TimeRules
/-!
# Rules for filters

A filter is a list of alternatives, each a list of terms that all have to hold. A term is a path
with a test, a count, a comparison of two paths, or a filter in parentheses.
-/
namespace LinkQuery.Language

open Rule

/-- A comparison operator. -/
def compareOp : PartRule :=
  .longest [symbol "=", symbol ":", symbol "<", symbol "<=", symbol ">", symbol ">="]

/-- A bound of a range. -/
def bound : PartRule :=
  .choice [symbol "*", relativeTime, .quoted, .number, .word]

/-- A range between two bounds. -/
def range : PartRule :=
  .sequence [
    .choice [symbol "[", symbol "\x7b"],
    .required bound "a range bound",
    .required (.keyword "TO") "TO",
    .required bound "a range bound",
    .required (.choice [symbol "]", symbol "\x7d"]) "']' or '\x7d'"]

/-- A value to compare with. -/
def value : PartRule :=
  .choice [.keyword "NULL", range, relativeTime, .quoted, .number, .word]

/-- The test behind a path. -/
def clauseTail : PartRule :=
  .choice [
    .sequence [
      .keyword "IS",
      .optional (.keyword "NOT"),
      .required (.keyword "NULL") "NULL"],
    .sequence [compareOp, .required value "a value"]]

/-- A count along a path, compared with a number or a range. -/
def countTerm (word : String) : PartRule :=
  .sequence [
    .keyword word,
    symbol "(",
    .required path "a path",
    .required (symbol ")") "')'",
    .required compareOp "a comparison operator",
    .required (.choice [range, .number]) "a count or a range"]

/-- A comparison of two paths. -/
def pathComparison : PartRule :=
  .sequence [
    keywords pathOperatorWords,
    symbol "(",
    .required path "a path",
    .required (symbol ",") "','",
    .required path "a path",
    .required (symbol ")") "')'"]

/-- A term without negation. -/
def primary : PartRule :=
  .choice [
    .sequence [
      symbol "(",
      .required (.nonterminal .filter) "a filter expression",
      .required (symbol ")") "')'"],
    symbol "*",
    pathComparison,
    countTerm "DCOUNT",
    countTerm "COUNT",
    .sequence [path, .optional clauseTail]]

/-- A term with any number of negations in front. -/
def unary : PartRule :=
  .choice [
    .sequence [
      .keyword "NOT",
      .many (.keyword "NOT"),
      .required primary "an expression after NOT"],
    primary]

/-- A filter. -/
def filter : PartRule :=
  .list
    (.list unary (.choice [.keyword "AND", .action .impliedAnd]))
    (.choice [.keyword "OR", symbol ","])

end LinkQuery.Language
