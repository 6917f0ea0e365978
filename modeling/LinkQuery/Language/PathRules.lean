import LinkQuery.Language.Words
import LinkQuery.Rule.Basic
/-!
# Rules for paths

A path is a segment and further steps behind points. A segment is a name, perhaps followed
transitively and restricted by filters, or a quantifier around a path of its own.
-/
namespace LinkQuery.Language

open Rule

/-- The parts of the language that contain themselves. -/
inductive Part where
  | filter | segment | step | groupItem | metric | fieldList | fieldItem
deriving Repr, DecidableEq

/-- The name of a part. -/
def Part.name : Part → String
  | .filter => "filter"
  | .segment => "segment"
  | .step => "step"
  | .groupItem => "group-item"
  | .metric => "metric"
  | .fieldList => "field-list"
  | .fieldItem => "field-item"

/-- A rule of the language. -/
abbrev PartRule := Rule Part

/-- A path between its markers. -/
def path : PartRule :=
  .sequence [
    .action .pathStart,
    .nonterminal .segment,
    .many (.sequence [hidden ".", .required (.nonterminal .step) "a path step"]),
    .action .pathEnd]

/-- A path that ends in front of a modifier. -/
def modifiablePath : PartRule :=
  .sequence [
    .action .pathStart,
    .nonterminal .segment,
    .many (.sequence [
      without (.sequence [hidden ".", keywords modifierWords, hidden "("]),
      hidden ".",
      .required (.nonterminal .step) "a path step"]),
    .action .pathEnd]

/-- A quantifier that holds for every link inside its parentheses. -/
def quantifiedPath : PartRule :=
  .sequence [
    keywords quantifierWords,
    hidden "(",
    .action .quantStart,
    .nonterminal .segment,
    .many (.sequence [hidden ".", .nonterminal .step]),
    hidden ")",
    .action .quantEnd]

/-- A quantified condition on a link. -/
def conditionBlock : PartRule :=
  .sequence [
    keywords quantifierWords,
    hidden "(",
    .action .whereStart,
    .nonterminal .filter,
    .action .whereEnd,
    .required (hidden ")") "')'"]

/-- A filter on the objects behind a link. -/
def whereBlock : PartRule :=
  .sequence [
    .silent (.keyword "WHERE"),
    .required (hidden "(") "'('",
    .action .whereStart,
    .required (.nonterminal .filter) "a filter expression",
    .action .whereEnd,
    .required (hidden ")") "')'"]

/-- The mark of a link that is followed repeatedly, with an optional limit. -/
def transitiveMark : PartRule :=
  .sequence [
    hidden "^",
    .action .transitive,
    .optional (.sequence [
      hidden "(",
      .required .number "a depth limit",
      .required (hidden ")") "')'"])]

/-- A name with what may follow it. -/
def namedSegment : PartRule :=
  .sequence [.word, .optional transitiveMark, .many whereBlock]

/-- The first segment of a path. -/
def segment : PartRule :=
  .choice [quantifiedPath, namedSegment]

/-- What may follow a quantified path in the middle of a path. -/
def quantifiedPathEnd : PartRule :=
  .choice [hidden ".", hidden "=", hidden ":", hidden "<", hidden ">", .keyword "IS"]

/-- A later step of a path. -/
def step : PartRule :=
  .choice [
    whereBlock,
    .sequence [quantifiedPath, ahead quantifiedPathEnd],
    conditionBlock,
    namedSegment]

end LinkQuery.Language
