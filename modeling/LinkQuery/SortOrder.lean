import LinkQuery.ElementReader
import LinkQuery.Path.Resolution
/-!
# Sort orders

A sort order lists paths to single values, each with a direction.
-/
namespace LinkQuery

/-- The direction of a sort key. -/
inductive SortDirection where
  | ascending | descending
deriving Repr, DecidableEq

/-- A path to sort by. -/
structure SortKey where
  path : List String
  direction : SortDirection
deriving Repr, DecidableEq

/-- The keys to sort by, the first of them first. -/
structure SortOrder where
  keys : List SortKey
deriving Repr, DecidableEq

namespace SortOrder

open ElementReader

/-- A field with exactly one value for each object. -/
def isSingleValued : FieldRole → Bool
  | .scalar _ | .system => true
  | _ => false

/-- The names along a path to sort by. -/
def keyPath (schema : Schema) (table : String) (path : Path) : Except QueryError (List String) := do
  path.requirePlain .sort
  if path.isRestricted then invalid (.whereInSort path.dotted)
  let resolved ← schema.resolve table path
  if !isSingleValued resolved.leaf.role then invalid (.sortLeaf path.dotted)
  return resolved.names

/-- Reads a direction; ascending is the one where none is given. -/
def direction : ElementReader SortDirection := do
  if ← keywordIf "DESC" then return .descending
  let _ ← keywordIf "ASC"
  return .ascending

/-- Reads a key and the comma behind it. -/
def key (schema : Schema) (table : String) (earlier : List SortKey) :
    ElementReader (List SortKey) := do
  let names ← lift (keyPath schema table (← nextPath))
  let found := ⟨names, ← direction⟩
  separator .sortSeparator
  return earlier ++ [found]

/-- The sort order of a log; an empty log has none. -/
def build (schema : Schema) (table : String) (tokens : List Token) :
    Except QueryError (Option SortOrder) :=
  if tokens.isEmpty then .ok none
  else do
    let keys ← run (untilEnd (key schema table) []) .list tokens
    return some ⟨keys⟩

end SortOrder

end LinkQuery
