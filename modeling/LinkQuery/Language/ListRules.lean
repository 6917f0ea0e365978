import LinkQuery.Language.FilterRules
/-!
# Rules for groupings, metrics, field sets and sort orders

The expressions that are lists of items behind commas.
-/
namespace LinkQuery.Language

open Rule

/-! ## Groupings -/

/-- A modifier behind a grouping path, with its values. -/
def modifier : PartRule :=
  .sequence [
    hidden ".",
    keywords modifierWords,
    symbol "(",
    .optional (.list (.choice [relativeTime, .quoted, .number, .word]) (symbol ",")),
    .required (symbol ")") "')'"]

/-- A selection around a grouping item. -/
def selection : PartRule :=
  .sequence [
    keywords selectionWords,
    symbol "(",
    .required .number "a selection count",
    .required (symbol ",") "','",
    .required (.nonterminal .groupItem) "a grouping item",
    .required (symbol ")") "')'"]

/-- A grouping by units of time. -/
def truncation : PartRule :=
  .sequence [
    .keyword "TRUNCATE",
    symbol "(",
    .required modifiablePath "a path",
    .required (symbol ",") "','",
    .required timeUnit "a time unit",
    .optional (.sequence [symbol ",", .required zoneName "a time zone"]),
    .required (symbol ")") "')'"]

/-- A grouping by the terms of a text, with words to leave out. -/
def terms : PartRule :=
  .sequence [
    .keyword "TERMS",
    symbol "(",
    .required modifiablePath "a path",
    .optional (.sequence [
      symbol ",",
      .required (symbol "(") "'('",
      .many (.choice [.word, .quoted]),
      .required (symbol ")") "')'"]),
    .required (symbol ")") "')'"]

/-- An item of a grouping. -/
def groupItem : PartRule :=
  .choice [selection, truncation, terms, .sequence [modifiablePath, .many modifier]]

/-- A list of grouping sets and bare items. -/
def groupings : PartRule :=
  .list
    (.choice [
      .sequence [
        .keyword "GROUP",
        symbol "(",
        .required (.list (.nonterminal .groupItem) (symbol ",")) "a grouping item",
        .required (symbol ")") "')'"],
      .nonterminal .groupItem])
    (symbol ",")

/-! ## Metrics -/

/-- The call of a metric function. -/
def metricCall : PartRule :=
  .sequence [
    keywords metricWords,
    symbol "(",
    .required (.choice [symbol "*", modifiablePath]) "a path or '*'",
    .optional (.sequence [symbol ",", .required .number "a number"]),
    .required (symbol ")") "')'"]

/-- An instant to measure from or to. -/
def timeArgument : PartRule :=
  .choice [now, .quoted, modifiablePath]

/-- The difference between two instants. -/
def dateDifference : PartRule :=
  .sequence [
    .keyword "DATEDIFF",
    symbol "(",
    .required timeUnit "a time unit",
    .required (symbol ",") "','",
    .required timeArgument "a timestamp",
    .required (symbol ",") "','",
    .required timeArgument "a timestamp",
    .required (symbol ")") "')'"]

/-- An operand of metric arithmetic. -/
def metricFactor : PartRule :=
  .choice [
    .sequence [
      symbol "(",
      .required (.nonterminal .metric) "a metric expression",
      .required (symbol ")") "')'"],
    dateDifference,
    metricCall,
    .number]

/-- Factors that are multiplied and divided. -/
def metricTerm : PartRule :=
  .list metricFactor (.choice [symbol "*", symbol "/"])

/-- Terms that are added and subtracted. -/
def metric : PartRule :=
  .list metricTerm (.choice [symbol "+", symbol "-"])

/-- A list of metrics. -/
def metrics : PartRule :=
  .list (.nonterminal .metric) (symbol ",")

/-- A list of named parameters. -/
def parameters : PartRule :=
  .list
    (.sequence [
      .word,
      symbol "=",
      .required (.choice [.quoted, .number, .word]) "a parameter value"])
    (symbol ",")

/-! ## Field sets and sort orders -/

/-- Fields behind commas. -/
def fieldList : PartRule :=
  .list (.nonterminal .fieldItem) (symbol ",")

/-- A field with its limit, its filters and its sub-fields. -/
def fieldItem : PartRule :=
  .choice [
    symbol "*",
    .sequence [
      .word,
      .optional (.sequence [
        hidden "[",
        .required .number "a limit",
        .required (hidden "]") "']'"]),
      .many (.sequence [hidden ".", whereBlock]),
      .optional (.choice [
        .sequence [
          hidden "(",
          .action .childrenStart,
          .required (.nonterminal .fieldList) "a field list",
          .required (hidden ")") "')'",
          .action .childrenEnd],
        .sequence [
          hidden ".",
          .action .childrenStart,
          .required (.nonterminal .fieldItem) "a field",
          .action .childrenEnd]])]]

/-- Paths to sort by. -/
def sortKeys : PartRule :=
  .list
    (.sequence [path, .optional (keywords ["ASC", "DESC"])])
    (symbol ",")

end LinkQuery.Language
