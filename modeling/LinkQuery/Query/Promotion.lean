import LinkQuery.Query.Basic
import LinkQuery.QueryError
import LinkQuery.Schema.Groups
/-!
# Promotion of identity tests

Comparisons of a link or of the identity of an object with a value become identity tests. On the
way every traversal is checked to lead from its table to another.

- `Query.promote`: the tree with its identity tests promoted.
- `Query.checkSystemFields`: no name is reserved without being a system field.
-/
namespace LinkQuery.Query

/-- The table that a link, or the first link of a group, leads to. -/
def traversalTarget? (schema : Schema) (table name : String) : Option String :=
  match schema.fieldKind table name with
  | .link | .crossLink => schema.linkTarget? table name
  | .group => (schema.firstLink? table name).map (·.2)
  | _ => none

/-- The table that a traversal leads to, which has to be there. -/
def traversalTarget (schema : Schema) (table name : String) : Except QueryError String :=
  match traversalTarget? schema table name with
  | some target => .ok target
  | none =>
    if schema.fieldKind table name = .unknown then invalid (.unknownField name table)
    else invalid (.notALink name)

/-- Refuses operators other than equality between a link and a value. -/
def requireEquality (op : CompareOp) (field : String) : Except QueryError Unit :=
  if op = .eq then .ok () else invalid (.operatorOnLink op field)

/-- The test that one of the links of a group leads to an object. -/
def groupIdentity (schema : Schema) (table group id : String) : Except QueryError Query :=
  match schema.groupLinks table group with
  | [] => invalid (.groupWithoutLinks group)
  | links => .ok (or (links.map fun link => .linkId .any link id))

/-- A comparison with the identity of the object. -/
def objectIdentity (field : String) (op : CompareOp) (value : Literal) : Except QueryError Query :=
  match op with
  | .eq => .ok (.objectId value.asText)
  | .contains => invalid .containsOnId
  | op => .ok (.comparison field op value)

/-- A comparison, as an identity test if it is one. -/
def promoteComparison (schema : Schema) (table field : String) (op : CompareOp)
    (value : Literal) : Except QueryError Query :=
  if Schema.isSystemField field then objectIdentity field op value
  else match schema.fieldKind table field with
    | .link | .crossLink => do
      requireEquality op field
      return .linkId .any field value.asText
    | .group => do
      requireEquality op field
      groupIdentity schema table field value.asText
    | _ => .ok (.comparison field op value)

mutual

/-- The tree with its identity tests promoted, as a filter of a table. -/
def promote (schema : Schema) (table : String) : Query → Except QueryError Query
  | .allOf children => do return and (← promoteAll schema table children)
  | .anyOf children => do return or (← promoteAll schema table children)
  | .negated inner => do return not (← promote schema table inner)
  | .multiValue quantifier inner => do
    return .multiValue quantifier (← promote schema table inner)
  | .comparison field op value => promoteComparison schema table field op value
  | .link quantifier name filter inner => do
    let target ← traversalTarget schema table name
    return .link quantifier name (← promoteIfAny schema target filter)
      (← promoteIfAny schema target inner)
  | .transitiveLink name depth inner => do
    let target ← traversalTarget schema table name
    return .transitiveLink name depth (← promoteIfAny schema target inner)
  | .linkId quantifier name id => do
    let _ ← traversalTarget schema table name
    return .linkId quantifier name id
  | .linkCount name filter op count => do
    let target ← traversalTarget schema table name
    return .linkCount name (← promoteIfAny schema target filter) op count
  | .linkCountRange name filter range => do
    let target ← traversalTarget schema table name
    return .linkCountRange name (← promoteIfAny schema target filter) range
  | other => .ok other

/-- Several trees with their identity tests promoted. -/
def promoteAll (schema : Schema) (table : String) : List Query → Except QueryError (List Query)
  | [] => .ok []
  | child :: rest => do
    let child ← promote schema table child
    return child :: (← promoteAll schema table rest)

/-- A tree that may be missing with its identity tests promoted. -/
def promoteIfAny (schema : Schema) (table : String) :
    Option Query → Except QueryError (Option Query)
  | none => .ok none
  | some inner => some <$> promote schema table inner

end

/-- The names that a node itself uses. -/
def ownNames : Query → List String
  | .comparison field _ _ => [field]
  | .interval field _ => [field]
  | .fieldCount field _ _ => [field]
  | .fieldCountRange field _ => [field]
  | .link _ name _ _ => [name]
  | .transitiveLink name _ _ => [name]
  | .linkId _ name _ => [name]
  | .linkCount name _ _ _ => [name]
  | .linkCountRange name _ _ => [name]
  | .pathCountRange path _ => path
  | .pathComparison _ left right => left ++ right
  | _ => []

/-- A reserved name that is no system field. -/
def isUnknownSystemField (name : String) : Bool :=
  Schema.isReserved name && !Schema.isSystemField name

/-- Refuses a tree with a reserved name that is no system field. -/
def checkSystemFields (q : Query) : Except QueryError Unit :=
  match (q.nodes.flatMap ownNames).find? isUnknownSystemField with
  | some name => invalid (.unknownSystemField name)
  | none => .ok ()

/-- The tree with its identity tests promoted and its names checked, as a filter of a table. -/
def settle (schema : Schema) (table : String) (q : Query) : Except QueryError Query := do
  let promoted ← promote schema table q
  checkSystemFields promoted
  return promoted

end LinkQuery.Query
