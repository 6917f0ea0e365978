import LinkQuery.Query.Basic
/-!
# Groupings

A grouping sorts the objects of a table into buckets by the values at the end of a path. Grouping
sets are lists of such levels, the outermost first.
-/
namespace LinkQuery

open Time (TimeUnit)

/-- A step of the path of a grouping. -/
structure GroupItem where
  name : String
  kind : FieldKind
  /-- The objects behind the step have to pass this filter of their table. -/
  filter : Option Query
  /-- The links that a group stands for. -/
  nestedLinks : List String

/-- Buckets that are given with the grouping. -/
inductive Batching where
  /-- Buckets between strictly ascending boundaries. -/
  | boundaries (values : List Literal)
  /-- One bucket for each of these values. -/
  | sets (values : List Literal)

/-- Which of the buckets are kept. -/
inductive SelectionKind where
  | top | bottom | first | last
deriving Repr, DecidableEq

namespace SelectionKind

/-- The keyword of a selection. -/
def keyword : SelectionKind → String
  | .top => "TOP"
  | .bottom => "BOTTOM"
  | .first => "FIRST"
  | .last => "LAST"

/-- The selection of a keyword. -/
def ofKeyword? (word : String) : Option SelectionKind :=
  [.top, .bottom, .first, .last].find? (·.keyword == word)

end SelectionKind

/-- A number of buckets that are kept. -/
structure Selection where
  kind : SelectionKind
  count : Nat
deriving Repr, DecidableEq

/-- The letter case that texts are compared in. -/
inductive CaseFold where
  | upper | lower
deriving Repr, DecidableEq

/-- Buckets of one unit of time each, on the clock of a zone. -/
structure Truncation where
  unit : TimeUnit
  zone : String
deriving Repr, DecidableEq

/-- A level: a path with the way its values are sorted into buckets. -/
structure Grouping where
  /-- The steps in front of the last one. -/
  through : List GroupItem
  /-- The last step, whose values make the buckets. -/
  leaf : GroupItem
  truncate : Option Truncation
  batch : Option Batching
  selection : Option Selection
  excluded : List Literal
  included : List Literal
  caseFold : Option CaseFold
  /-- Buckets are made of the words of a text. -/
  terms : Bool
  stopWords : List String
  /-- The objects that can reach a bucket. -/
  filter : Option Query

namespace Grouping

/-- A path without further options. -/
def ofItems (through : List GroupItem) (leaf : GroupItem) (filter : Option Query) : Grouping :=
  ⟨through, leaf, none, none, none, [], [], none, false, [], filter⟩

/-- The steps of the path in order. -/
def items (g : Grouping) : List GroupItem :=
  g.through ++ [g.leaf]

/-- The names along the path. -/
def path (g : Grouping) : List String :=
  g.items.map (·.name)

end Grouping

/-- The levels of a grouping, the outermost first. -/
structure GroupingSet where
  levels : List Grouping

/-! ## The filter of a grouping -/

/-- A traversal of a link to the objects that pass the filter of a step. -/
def GroupItem.traversal (item : GroupItem) (inner : Option Query) (link : String) : Query :=
  .link .any link item.filter inner

/-- The traversals along steps, each group opened to its links; nothing if no step is a link. -/
def chainFilter : List GroupItem → Option Query
  | [] => none
  | item :: rest =>
    match item.kind with
    | .group => some (Query.or (item.nestedLinks.map (item.traversal (chainFilter rest))))
    | .link => some (item.traversal (chainFilter rest) item.name)
    | .crossLink => some (item.traversal (chainFilter rest) item.name)
    | _ => chainFilter rest

/-- The filter of a grouping: the base filter together with that of its steps. -/
def groupingFilter (base : Option Query) (items : List GroupItem) : Option Query :=
  match base, chainFilter items with
  | some base, some derived => some (base.distributeAnd derived)
  | some base, none => some base
  | none, derived => derived

end LinkQuery
