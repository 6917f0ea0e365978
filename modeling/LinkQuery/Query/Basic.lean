import LinkQuery.Literal
import LinkQuery.Query.Interval
/-!
# Filter trees

A filter is a tree of tests on one object: comparisons with its values, conditions on the objects
behind its links, and their combinations. A link carries a filter, which restricts the objects that
count, and an inner condition, which the quantifier ranges over; without an inner condition it
tests that such objects exist.

- `Query.and`, `Query.or`, `Query.not`: combinations without needless nesting.
- `Query.nodes`: the nodes of a tree, parents before children.
- `Query.same`: equality of trees, numbers compared by value.
-/
namespace LinkQuery

/-- A filter tree. -/
inductive Query where
  | everything
  | nothing
  | allOf (children : List Query)
  | anyOf (children : List Query)
  | negated (inner : Query)
  | comparison (field : String) (op : CompareOp) (value : Literal)
  | interval (field : String) (range : Interval Literal)
  /-- A quantified test of the values of a field. -/
  | multiValue (quantifier : Quantifier) (inner : Query)
  | link (quantifier : Quantifier) (link : String) (filter inner : Option Query)
  /-- Repeated steps along a link, at most `depth` of them when it is given. -/
  | transitiveLink (link : String) (depth : Option Nat) (inner : Option Query)
  /-- The object behind a link is the one with this identity. -/
  | linkId (quantifier : Quantifier) (link id : String)
  /-- The object is the one with this identity. -/
  | objectId (id : String)
  | linkCount (link : String) (filter : Option Query) (op : CompareOp) (count : Nat)
  | linkCountRange (link : String) (filter : Option Query) (range : Interval Nat)
  | fieldCount (field : String) (op : CompareOp) (count : Nat)
  | fieldCountRange (field : String) (range : Interval Nat)
  /-- The number of distinct values at the end of a path. -/
  | pathCountRange (path : List String) (range : Interval Nat)
  | pathComparison (op : PathOp) (left right : List String)
deriving Inhabited

namespace Query

/-! ## Combinations -/

/-- The conditions of a conjunction of trees: nested ones flattened, trivial ones left out. -/
def conjuncts : List Query → List Query
  | [] => []
  | .allOf nested :: rest => nested ++ conjuncts rest
  | .everything :: rest => conjuncts rest
  | other :: rest => other :: conjuncts rest

/-- The conditions of a disjunction of trees: nested ones flattened, trivial ones left out. -/
def disjuncts : List Query → List Query
  | [] => []
  | .anyOf nested :: rest => nested ++ disjuncts rest
  | .nothing :: rest => disjuncts rest
  | other :: rest => other :: disjuncts rest

/-- All of the trees. -/
def and (children : List Query) : Query :=
  match conjuncts children with
  | [] => .everything
  | [only] => only
  | several => .allOf several

/-- At least one of the trees. -/
def or (children : List Query) : Query :=
  match disjuncts children with
  | [] => .nothing
  | [only] => only
  | several => .anyOf several

/-- The opposite of a tree. -/
def not : Query → Query
  | .everything => .nothing
  | .nothing => .everything
  | .negated inner => inner
  | other => .negated other

/-- A quantified condition on the objects behind a link. -/
def ofLink (quantifier : Quantifier) (name : String) (inner : Option Query) : Query :=
  .link quantifier name none inner

/-- All of the parts that are there; nothing when none is. -/
def andAll (parts : List (Option Query)) : Option Query :=
  match parts.filterMap id with
  | [] => none
  | present => some (and present)

/-- The condition behind a chain of links, the outermost link first. -/
def throughLinks (links : List String) (inner : Option Query) : Option Query :=
  links.foldr (fun name inner => some (ofLink .any name inner)) inner

/-- The base together with a tree, inside each branch if the tree is a disjunction. -/
def distributeAnd (base : Query) : Query → Query
  | .anyOf branches => or (branches.map fun branch => and [base, branch])
  | other => and [base, other]

/-! ## Nodes -/

/-- The tree is a traversal of a link. -/
def isLink : Query → Bool
  | .link .. | .transitiveLink .. => true
  | _ => false

/-- The tree is a conjunction or a disjunction. -/
def isCompound : Query → Bool
  | .allOf _ | .anyOf _ => true
  | _ => false

mutual

/-- The nodes of a tree, parents before children. -/
def nodes : Query → List Query
  | .allOf children => .allOf children :: nodesOfAll children
  | .anyOf children => .anyOf children :: nodesOfAll children
  | .negated inner => .negated inner :: nodes inner
  | .multiValue quantifier inner => .multiValue quantifier inner :: nodes inner
  | .link quantifier name filter inner =>
    .link quantifier name filter inner :: (nodesIfAny filter ++ nodesIfAny inner)
  | .transitiveLink name depth inner => .transitiveLink name depth inner :: nodesIfAny inner
  | .linkCount name filter op count => .linkCount name filter op count :: nodesIfAny filter
  | .linkCountRange name filter range => .linkCountRange name filter range :: nodesIfAny filter
  | leaf => [leaf]

/-- The nodes of several trees in order. -/
def nodesOfAll : List Query → List Query
  | [] => []
  | child :: rest => nodes child ++ nodesOfAll rest

/-- The nodes of a tree that may be missing. -/
def nodesIfAny : Option Query → List Query
  | none => []
  | some inner => nodes inner

end

/-! ## Equality -/

mutual

/-- Both trees have the same shape and equal contents. -/
def same : Query → Query → Bool
  | .everything, .everything => true
  | .nothing, .nothing => true
  | .allOf a, .allOf b => sameAll a b
  | .anyOf a, .anyOf b => sameAll a b
  | .negated a, .negated b => same a b
  | .comparison f o v, .comparison f' o' v' => f == f' && o == o' && v == v'
  | .interval f r, .interval f' r' => f == f' && r.same (· == ·) r'
  | .multiValue q a, .multiValue q' b => q == q' && same a b
  | .link q n f i, .link q' n' f' i' => q == q' && n == n' && sameIfAny f f' && sameIfAny i i'
  | .transitiveLink n d i, .transitiveLink n' d' i' => n == n' && d == d' && sameIfAny i i'
  | .linkId q n i, .linkId q' n' i' => q == q' && n == n' && i == i'
  | .objectId i, .objectId i' => i == i'
  | .linkCount n f o c, .linkCount n' f' o' c' =>
    n == n' && sameIfAny f f' && o == o' && c == c'
  | .linkCountRange n f r, .linkCountRange n' f' r' => n == n' && sameIfAny f f' && r == r'
  | .fieldCount f o c, .fieldCount f' o' c' => f == f' && o == o' && c == c'
  | .fieldCountRange f r, .fieldCountRange f' r' => f == f' && r == r'
  | .pathCountRange p r, .pathCountRange p' r' => p == p' && r == r'
  | .pathComparison o l r, .pathComparison o' l' r' => o == o' && l == l' && r == r'
  | _, _ => false

/-- Both lists hold the same trees in the same order. -/
def sameAll : List Query → List Query → Bool
  | [], [] => true
  | a :: as, b :: bs => same a b && sameAll as bs
  | _, _ => false

/-- Both trees are missing, or both are there and the same. -/
def sameIfAny : Option Query → Option Query → Bool
  | none, none => true
  | some a, some b => same a b
  | _, _ => false

end

instance : BEq Query := ⟨same⟩

end Query

end LinkQuery
