import LinkQuery.Path.Basic
import LinkQuery.QueryError
import LinkQuery.Schema.Groups
/-!
# Resolving paths

What the segments of a path name in a schema. A path starts in a table and moves to the target of
each link; a group moves to the target of its first link.

- `Schema.resolveSegment`: the role of one segment, or why it cannot stand where it does.
- `Schema.resolve`: the roles along a path.
-/
namespace LinkQuery

/-- What a segment names in its table. -/
inductive FieldRole where
  | scalar (type : ScalarType)
  | multiValued (type : ScalarType)
  | link (target : String)
  | crossLink (target : String)
  /-- A group with members, and the target of its first link if it has one. -/
  | group (target : Option String)
  | system
deriving Repr, DecidableEq

namespace FieldRole

/-- The kind of field of a role. -/
def kind : FieldRole → FieldKind
  | .scalar type => .scalar type
  | .multiValued type => .multiValued type
  | .link _ => .link
  | .crossLink _ => .crossLink
  | .group _ => .group
  | .system => .system

/-- The table that a segment leads to. -/
def target? : FieldRole → Option String
  | .link target => some target
  | .crossLink target => some target
  | .group target => target
  | _ => none

/-- The type of the values of a scalar field. -/
def scalarType? (role : FieldRole) : Option ScalarType :=
  role.kind.scalarType?

/-- The target of a link; groups are no links. -/
def linkTarget? : FieldRole → Option String
  | .link target => some target
  | .crossLink target => some target
  | _ => none

end FieldRole

/-- A segment with its table and its role in it. -/
structure ResolvedSegment where
  segment : Segment
  table : String
  role : FieldRole
deriving Repr

namespace ResolvedSegment

/-- The name of the segment. -/
def name (s : ResolvedSegment) : String :=
  s.segment.name

end ResolvedSegment

/-- A path with the roles of its segments, the last one apart. -/
structure ResolvedPath where
  through : List ResolvedSegment
  leaf : ResolvedSegment
deriving Repr

namespace ResolvedPath

/-- The segments in order. -/
def segments (p : ResolvedPath) : List ResolvedSegment :=
  p.through ++ [p.leaf]

/-- The names along the path. -/
def names (p : ResolvedPath) : List String :=
  p.segments.map (·.name)

end ResolvedPath

namespace Schema

/-- The target of a link that has one. -/
def requiredTarget (s : Schema) (table name : String) : Except QueryError String :=
  match s.linkTarget? table name with
  | some target => .ok target
  | none => invalid (.linkWithoutTarget name)

/-- The role of a name in a table. -/
def role (s : Schema) (table name : String) : Except QueryError FieldRole :=
  match s.fieldKind table name with
  | .scalar type => .ok (.scalar type)
  | .multiValued type => .ok (.multiValued type)
  | .link => (s.requiredTarget table name).map .link
  | .crossLink => (s.requiredTarget table name).map .crossLink
  | .group =>
    if (s.nestedFields table name).isEmpty then invalid (.emptyGroup name)
    else .ok (.group ((s.firstLink? table name).map (·.2)))
  | .system => .ok .system
  | .unknown =>
    if isReserved name then invalid (.unknownSystemField name)
    else invalid (.unknownField name table)

/-- Only a link that leads back to its own table can be followed repeatedly. -/
def checkRepeated (table name : String) (role : FieldRole) : Except QueryError Unit :=
  match role.linkTarget? with
  | none => invalid (.notTransitive name)
  | some target => if target = table then .ok () else invalid (.transitiveTarget name table)

/-- The role of a segment; `followed` holds if further segments come behind it. -/
def resolveSegment (s : Schema) (table : String) (segment : Segment) (followed : Bool) :
    Except QueryError FieldRole := do
  let role ← s.role table segment.name
  if segment.transitive then checkRepeated table segment.name role
  if followed && role.target?.isNone then invalid (.notFollowable segment.name)
  return role

/-- The roles of a segment and of those behind it, from a table on. -/
def resolveFrom (s : Schema) (table : String) (segment : Segment) :
    List Segment → Except QueryError ResolvedPath
  | [] => do
    let role ← s.resolveSegment table segment false
    return ⟨[], ⟨segment, table, role⟩⟩
  | next :: rest => do
    let role ← s.resolveSegment table segment true
    let behind ← s.resolveFrom (role.target?.getD table) next rest
    return ⟨⟨segment, table, role⟩ :: behind.through, behind.leaf⟩

/-- The roles along a path that starts in a table. -/
def resolve (s : Schema) (table : String) (path : Path) : Except QueryError ResolvedPath :=
  s.resolveFrom table path.first path.rest

end Schema

namespace Path

/-- What a path is used for where quantifiers and repeated links make no sense. -/
inductive Use where
  | grouping | metric | dateDifference | sort
deriving Repr, DecidableEq

/-- The name of a use in messages. -/
def Use.name : Use → String
  | .grouping => "grouping"
  | .metric => "metric"
  | .dateDifference => "DATEDIFF"
  | .sort => "sort"

/-- Refuses a path with quantifiers or links that are followed repeatedly. -/
def requirePlain (path : Path) (use : Use) : Except QueryError Unit :=
  path.segments.forM fun segment => do
    if segment.isQuantified then invalid (.quantifierInPath use.name path.dotted)
    if segment.transitive then invalid (.transitiveInPath segment.name use.name)

end Path

end LinkQuery
