import LinkQuery.Query.Operators
import LinkQuery.Token
/-!
# Paths

A path names fields one after another, each in the table that the one before it leads to. A segment
of a path may carry a quantifier, the mark of a link that is followed repeatedly, filters on the
objects it leads to, and a quantified condition on them. Filters and conditions are kept as logs.
-/
namespace LinkQuery

/-- A quantified filter as the last step of a path, as a log. -/
structure Condition where
  quantifier : Quantifier
  tokens : List Token
deriving Repr, DecidableEq

/-- A segment of a path. -/
structure Segment where
  name : String
  position : Nat
  /-- The quantifier that encloses the segment. -/
  quantifier : Option Quantifier
  /-- The link is followed any number of times. -/
  transitive : Bool
  /-- The most steps along a link that is followed repeatedly. -/
  depth : Option Nat
  filters : List (List Token)
  condition : Option Condition
deriving Repr, DecidableEq

namespace Segment

/-- A name and nothing more. -/
def named (name : String) (position : Nat) : Segment :=
  ⟨name, position, none, false, none, [], none⟩

/-- The segment inside a quantifier; one that stands closer to it counts. -/
def quantifiedBy (s : Segment) (quantifier : Quantifier) : Segment :=
  { s with quantifier := s.quantifier.or (some quantifier) }

/-- The segment followed repeatedly, with a limit if one is given. -/
def repeated (s : Segment) (depth : Option Nat) : Segment :=
  { s with transitive := true, depth := depth.or s.depth }

/-- The segment with one more filter. -/
def filteredBy (s : Segment) (filter : List Token) : Segment :=
  { s with filters := s.filters ++ [filter] }

/-- The segment restricts the objects it leads to. -/
def isRestricted (s : Segment) : Bool :=
  !s.filters.isEmpty || s.condition.isSome

/-- The segment carries a quantifier of its own or in its condition. -/
def isQuantified (s : Segment) : Bool :=
  s.quantifier.isSome || s.condition.isSome

/-- The segment stands inside `ALL` or `NONE`. -/
def isUniversal (s : Segment) : Bool :=
  s.quantifier.any Quantifier.isUniversal

end Segment

/-- A path of one or more segments. -/
structure Path where
  first : Segment
  rest : List Segment
deriving Repr, DecidableEq

namespace Path

/-- The segments in order. -/
def segments (p : Path) : List Segment :=
  p.first :: p.rest

/-- The path of a list of segments, if there are any. -/
def ofSegments? : List Segment → Option Path
  | [] => none
  | first :: rest => some ⟨first, rest⟩

/-- The names along the path. -/
def names (p : Path) : List String :=
  p.segments.map (·.name)

/-- The names with points between them. -/
def dotted (p : Path) : String :=
  ".".intercalate p.names

/-- Some segment restricts the objects it leads to. -/
def isRestricted (p : Path) : Bool :=
  p.segments.any Segment.isRestricted

end Path

end LinkQuery
