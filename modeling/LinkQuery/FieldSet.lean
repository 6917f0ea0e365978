import LinkQuery.FieldNode
import LinkQuery.Filter.Build
/-!
# Field sets

A field set names the fields to fetch: all scalar fields, or single fields, where links may have a
limit, a filter and fields of the objects behind them.

- `FieldSet.build`: the field set of a log.
-/
namespace LinkQuery

/-- An entry of a field set. -/
inductive FieldItem where
  /-- Every scalar field of the table. -/
  | everything
  /-- A field; `limit` and `filter` say which of the objects behind a link are wanted. -/
  | field (name : String) (kind : FieldKind) (limit : Option Nat) (filter : Option Query)
      (children : List FieldItem)
deriving Inhabited

namespace FieldItem

/-- The name of an entry. -/
def name : FieldItem → String
  | .everything => "*"
  | .field name _ _ _ _ => name

/-- The entries below an entry. -/
def children : FieldItem → List FieldItem
  | .everything => []
  | .field _ _ _ _ children => children

end FieldItem

/-- The entries of a field set. -/
structure FieldSet where
  items : List FieldItem

namespace FieldSet

open LinkQuery.Filter (Scope buildAll)

/-- The first entry with a name. -/
def find? (s : FieldSet) (name : String) : Option FieldItem :=
  s.items.find? (·.name == name)

/-- The table that the fields below a field belong to. -/
def childTable? (table : String) : FieldRole → Option String
  | .link target => some target
  | .crossLink target => some target
  | .group _ => some table
  | _ => none

/-- Only links can have a limit or filters. -/
def checkField (role : FieldRole) (name : String) (limit : Option Nat)
    (filters : List (List Token)) : Except QueryError Unit :=
  if !role.kind.isLink && (limit.isSome || !filters.isEmpty) then invalid (.limitOnField name)
  else .ok ()

/-- The filter of a link. -/
def linkFilter (scope : Scope) (role : FieldRole) (filters : List (List Token)) :
    Except QueryError (Option Query) :=
  match role.linkTarget? with
  | some target => buildAll scope target filters
  | none => .ok none

mutual

/-- The entry of a node. -/
def item (scope : Scope) (table : String) : FieldNode → Except QueryError FieldItem
  | .node name _ limit filters children => do
    if name == "*" then return .everything
    let role ← scope.schema.role table name
    checkField role name limit filters
    let below ← itemsBelow scope (childTable? table role) name children
    let filter ← linkFilter scope role filters
    return .field name role.kind limit filter below

/-- The entries below a field, which has to lead to a table to have some. -/
def itemsBelow (scope : Scope) (table : Option String) (parent : String) :
    List FieldNode → Except QueryError (List FieldItem)
  | [] => .ok []
  | node :: rest =>
    match table with
    | none => invalid (.subFieldsOf parent)
    | some table => do
      let first ← item scope table node
      return first :: (← itemsBelow scope (some table) parent rest)

end

/-- The field set of a log; an empty log has none. -/
def build (scope : Scope) (table : String) (tokens : List Token) :
    Except QueryError (Option FieldSet) :=
  if tokens.isEmpty then .ok none
  else do
    let nodes ← FieldNode.ofTokens tokens
    let items ← nodes.mapM (item scope table)
    return some ⟨items⟩

end FieldSet

end LinkQuery
