import LinkQuery.Filter.Tail
import LinkQuery.Path.Resolution
import LinkQuery.Query.Basic
/-!
# Terms of a filter

A term is a path with a tail. Its segments are read against the schema: links become traversals, a
group becomes one branch for each member, and scalar fields end in a test. Filters and conditions
on the way are filters of their own on the table that the path has reached.

- `termQuery`: the tree of a path with a tail.
- `distinctCount`, `pathComparison`: the trees of calls.
-/
namespace LinkQuery.Filter

/-- The schema and the clock that a filter is built with. -/
structure Scope where
  schema : Schema
  clock : Clock

/-- Builds the tree of a filter inside a filter, against a table. -/
abbrev Nested := String → List Token → Except QueryError Query

/-- What stands behind a segment: how to build it against a table, and its quantifiers. -/
structure Onward where
  build : String → Tail → Except QueryError Query
  /-- A segment behind this one stands inside `ALL` or `NONE`. -/
  isUniversal : Bool

/-- All of the filters of a segment, built against a table. -/
def allFilters (nested : Nested) (table : String) (filters : List (List Token)) :
    Except QueryError (Option Query) := do
  let parts ← filters.mapM (nested table)
  return Query.andAll (parts.map some)

/-! ## Links -/

/-- The quantifier of a traversal; none is `ANY`, and so is a count. -/
def traversalQuantifier : Option Quantifier → Quantifier
  | some .all => .all
  | some .none => .none
  | _ => .any

/-- The tree of a link that ends its path. -/
def linkEnd (quantifier : Quantifier) (link : String) (filter : Option Query) :
    Tail → Except QueryError Query
  | .bare => .ok (.link quantifier link none filter)
  | .present => .ok (.link quantifier link filter none)
  | .missing => .ok (Query.not (.link .any link filter none))
  | .compare .eq (.raw value) =>
    .ok <| match filter with
      | some filter => .link quantifier link (some filter) (some (.objectId value.asText))
      | none => .linkId quantifier link value.asText
  | .compare .eq (.interval _) => invalid (.rangeOnLink link)
  | .compare op _ => invalid (.operatorOnLink op link)
  | .count (.exactly count) => .ok (.linkCount link filter .eq count)
  | .count (.within range) => .ok (.linkCountRange link filter range)

/--
What a traversal has to find behind a link. Below the last `ALL` or `NONE` a missing value means
that nothing is there.
-/
def behindLink (segment : Segment) (target : String) (onward : Onward) (tail : Tail) :
    Except QueryError Query :=
  if tail = .missing && segment.isUniversal && !onward.isUniversal then
    (onward.build target .present).map Query.not
  else onward.build target tail

/-- The tree of a link. -/
def linkQuery (nested : Nested) (segment : Segment) (target : String) (onward : Option Onward)
    (tail : Tail) : Except QueryError Query := do
  let quantifier := traversalQuantifier segment.quantifier
  let filter ← allFilters nested target segment.filters
  match segment.condition, onward with
  | some condition, onward =>
    if onward.isSome || tail != .bare then invalid (.conditionNotLast segment.name)
    let inner ← nested target condition.tokens
    return .link condition.quantifier segment.name filter (some inner)
  | none, some onward =>
    let inner ← behindLink segment target onward tail
    return .link quantifier segment.name filter (some inner)
  | none, none => linkEnd quantifier segment.name filter tail

/-! ## Links followed repeatedly -/

/-- The quantified condition of a link that is followed repeatedly. -/
def repeatedCondition (nested : Nested) (segment : Segment) (target : String) (isLast : Bool)
    (tail : Tail) : Except QueryError (Option Query) :=
  match segment.condition with
  | none => .ok none
  | some condition => do
    if condition.quantifier ≠ .any then invalid (.transitiveCondition segment.name)
    if !isLast || tail != .bare then invalid (.conditionNotLast segment.name)
    return some (← nested target condition.tokens)

/-- What the objects at the end of a path have to satisfy. -/
def repeatedEnd (link : String) : Tail → Except QueryError (Option Query)
  | .bare | .present | .missing => .ok none
  | .compare .eq (.raw value) => .ok (some (.objectId value.asText))
  | .compare op _ => invalid (.operatorOnTransitive op link)
  | .count _ => invalid (.countOnTransitive link)

/-- The tree of a traversal inside a quantifier. -/
def quantifiedRepeat (link : String) (quantifier : Option Quantifier) (traversal : Query) :
    Except QueryError Query :=
  match quantifier with
  | none | some .any => .ok traversal
  | some .none => .ok (Query.not traversal)
  | some other => invalid (.quantifierOnTransitive other link)

/-- The tree of a link that is followed repeatedly. -/
def repeatedLinkQuery (nested : Nested) (segment : Segment) (target : String)
    (onward : Option Onward) (tail : Tail) : Except QueryError Query := do
  let filter ← allFilters nested target segment.filters
  let condition ← repeatedCondition nested segment target onward.isNone tail
  let continuation ← match onward with
    | some onward => some <$> onward.build target tail
    | none => repeatedEnd segment.name tail
  let traversal := Query.transitiveLink segment.name segment.depth
    (Query.andAll [filter, condition, continuation])
  quantifiedRepeat segment.name segment.quantifier
    (if onward.isNone && tail = .missing then Query.not traversal else traversal)

/-! ## Fields with values -/

/-- The literal for a value of a field; system fields hold texts. -/
def literalOf (type : Option ScalarType) (field : String) (value : RawValue) :
    Except QueryError Literal :=
  match type with
  | some type => Literal.convert value type field
  | none => .ok (.text value.asText)

/-- The field has a value; system fields always have one. -/
def hasValue (type : Option ScalarType) (field : String) : Query :=
  if type.isSome then .fieldCountRange field .atLeastOne else .everything

/-- The test of a field by a tail. -/
def leafTest (type : Option ScalarType) (field : String) : Tail → Except QueryError Query
  | .bare | .present => .ok (hasValue type field)
  | .missing => .ok (Query.not (hasValue type field))
  | .compare op (.raw value) => do
    return .comparison field op (← literalOf type field value)
  | .compare .eq (.interval range) => do
    return .interval field (← range.mapM (literalOf type field))
  | .compare op (.interval _) => invalid (.rangeOperator op field)
  | .count (.exactly count) => .ok (.fieldCount field .eq count)
  | .count (.within range) => .ok (.fieldCountRange field range)

/-- The test of the values of a field inside a quantifier. -/
def quantifiedTest (field : String) (quantifier : Option Quantifier) (test : Query) :
    Except QueryError Query :=
  match quantifier with
  | none => .ok (.multiValue .any test)
  | some .count => invalid (.countQuantifier field)
  | some quantifier => .ok (.multiValue quantifier test)

/-- The tree of a field with values, `several` if it may hold more than one. -/
def leafQuery (type : Option ScalarType) (several : Bool) (segment : Segment) (tail : Tail) :
    Except QueryError Query := do
  if segment.isRestricted then invalid (.whereOnField segment.name)
  let test ← leafTest type segment.name tail
  if tail.isComparison && (several || segment.quantifier.isSome) then
    quantifiedTest segment.name segment.quantifier test
  else return test

/-! ## Segments -/

/-- The tree of a link, followed once or repeatedly. -/
def anyLinkQuery (nested : Nested) (segment : Segment) (target : String) (onward : Option Onward)
    (tail : Tail) : Except QueryError Query :=
  if segment.transitive then repeatedLinkQuery nested segment target onward tail
  else linkQuery nested segment target onward tail

/-- The tree of a segment that is no group. -/
def fieldQuery (nested : Nested) (role : FieldRole) (segment : Segment) (onward : Option Onward)
    (tail : Tail) : Except QueryError Query :=
  match role with
  | .scalar type => leafQuery (some type) false segment tail
  | .multiValued type => leafQuery (some type) true segment tail
  | .link target => anyLinkQuery nested segment target onward tail
  | .crossLink target => anyLinkQuery nested segment target onward tail
  | .group _ => internal (.nestedGroup segment.name)
  | .system => leafQuery none false segment tail

/-- The tree of a member of a group, which stands in its place. -/
def memberQuery (scope : Scope) (nested : Nested) (table : String) (segment : Segment)
    (onward : Option Onward) (tail : Tail) (member : String) : Except QueryError Query := do
  let segment := { segment with name := member }
  let role ← scope.schema.resolveSegment table segment onward.isSome
  fieldQuery nested role segment onward tail

/-- The fields that stand for a group: all of them at the end of a path, else the links. -/
def standIns (schema : Schema) (table group : String) (isLast : Bool) : List String :=
  if isLast then schema.groupMembers table group else schema.groupLinks table group

/-- The tree of a group: inside `ALL` and `NONE` every branch has to hold, else one. -/
def groupQuery (scope : Scope) (nested : Nested) (table : String) (segment : Segment)
    (onward : Option Onward) (tail : Tail) : Except QueryError Query := do
  if onward.isNone && tail.isCount then invalid (.countOnGroup segment.name)
  let members := standIns scope.schema table segment.name onward.isNone
  if members.isEmpty then invalid (.groupLeadsNowhere segment.name)
  let branches ← members.mapM (memberQuery scope nested table segment onward tail)
  return if segment.isUniversal then Query.and branches else Query.or branches

/-- The tree of a segment of a path. -/
def segmentQuery (scope : Scope) (nested : Nested) (table : String) (segment : Segment)
    (onward : Option Onward) (tail : Tail) : Except QueryError Query := do
  match ← scope.schema.resolveSegment table segment onward.isSome with
  | .group _ => groupQuery scope nested table segment onward tail
  | role => fieldQuery nested role segment onward tail

/-- The tree of a segment and the segments behind it, from a table on. -/
def chainQuery (scope : Scope) (nested : Nested) (table : String) (segment : Segment) :
    List Segment → Tail → Except QueryError Query
  | [], tail => segmentQuery scope nested table segment none tail
  | next :: rest, tail =>
    segmentQuery scope nested table segment
      (some ⟨fun target tail => chainQuery scope nested target next rest tail,
        (next :: rest).any Segment.isUniversal⟩) tail

/-- The tree of a path with a tail. Without `ALL` or `NONE`, missing is the opposite of present. -/
def termQuery (scope : Scope) (nested : Nested) (table : String) (path : Path) (tail : Tail) :
    Except QueryError Query :=
  if tail = .missing && !path.segments.any Segment.isUniversal then
    (chainQuery scope nested table path.first path.rest .present).map Query.not
  else chainQuery scope nested table path.first path.rest tail

/-! ## Calls -/

/-- The tree of a count of distinct values at the end of a path. -/
def distinctCount (schema : Schema) (table : String) (path : Path) (count : CountTest) :
    Except QueryError Query := do
  let resolved ← schema.resolve table path
  if path.isRestricted then invalid (.whereInDistinctCount path.dotted)
  if !resolved.segments.any (·.role.kind.isLink) then invalid (.distinctCountPath path.dotted)
  return .pathCountRange resolved.names count.range

/-- The names along a path that is compared with another. -/
def comparedPath (schema : Schema) (table : String) (op : PathOp) (path : Path) :
    Except QueryError (List String) := do
  if path.isRestricted then invalid (.whereInPathOperator op path.dotted)
  return (← schema.resolve table path).names

/-- The tree of a comparison of two paths. -/
def pathComparison (schema : Schema) (table : String) (op : PathOp) (left right : Path) :
    Except QueryError Query := do
  return .pathComparison op (← comparedPath schema table op left)
    (← comparedPath schema table op right)

end LinkQuery.Filter
