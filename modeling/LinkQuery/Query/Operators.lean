/-!
# Operators of filters

The quantifiers, comparison operators and path operators of the filter language, with the words
and symbols that write them.
-/
namespace LinkQuery

/-- How many of the objects behind a link, or of the values of a field, have to qualify. -/
inductive Quantifier where
  | any | all | none | count
deriving Repr, DecidableEq

namespace Quantifier

/-- The keyword of a quantifier. -/
def keyword : Quantifier → String
  | .any => "ANY"
  | .all => "ALL"
  | .none => "NONE"
  | .count => "COUNT"

/-- The quantifier of a keyword. -/
def ofKeyword? (word : String) : Option Quantifier :=
  [.any, .all, .none, .count].find? (·.keyword == word)

/-- The quantifiers that restrict every object behind a link. -/
def isUniversal : Quantifier → Bool
  | .all | .none => true
  | _ => false

end Quantifier

/-- A comparison of a value with another. -/
inductive CompareOp where
  | eq | contains | lt | le | gt | ge
deriving Repr, DecidableEq

namespace CompareOp

/-- The symbol of an operator. -/
def symbol : CompareOp → String
  | .eq => "="
  | .contains => ":"
  | .lt => "<"
  | .le => "<="
  | .gt => ">"
  | .ge => ">="

/-- The operator of a symbol. -/
def ofSymbol? (text : String) : Option CompareOp :=
  [.eq, .contains, .lt, .le, .gt, .ge].find? (·.symbol == text)

end CompareOp

/-- A comparison of the sets of values at the ends of two paths. -/
inductive PathOp where
  | equals | differs | intersects | contains | disjoint
deriving Repr, DecidableEq

namespace PathOp

/-- All path operators. -/
def all : List PathOp :=
  [.equals, .differs, .intersects, .contains, .disjoint]

/-- The keyword of a path operator. -/
def keyword : PathOp → String
  | .equals => "EQUALS"
  | .differs => "DIFFERS"
  | .intersects => "INTERSECTS"
  | .contains => "CONTAINS"
  | .disjoint => "DISJOINT"

/-- The path operator of a keyword. -/
def ofKeyword? (word : String) : Option PathOp :=
  all.find? (·.keyword == word)

end PathOp

/-- The connectives between the terms of a filter. -/
inductive Connective where
  | and | or
deriving Repr, DecidableEq

/-- The connective of a keyword. -/
def Connective.ofKeyword? (word : String) : Option Connective :=
  if word == "AND" then some .and else if word == "OR" then some .or else none

end LinkQuery
