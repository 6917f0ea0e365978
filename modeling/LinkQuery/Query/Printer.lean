import LinkQuery.Query.Basic
/-!
# Filter trees as text

The canonical filter text of a tree. A compound inside a compound is put in parentheses, a negated
tree always.
-/
namespace LinkQuery.Query

/-- The tree as an operand of a connective: in parentheses when it is a compound. -/
def grouped (q : Query) (text : String) : String :=
  if q.isCompound then "(" ++ text ++ ")" else text

/-- A path with points between its names. -/
def pathText (names : List String) : String :=
  ".".intercalate names

mutual

/-- The filter text of a tree. -/
def text : Query → String
  | .everything => "*"
  | .nothing => "NOT *"
  | .allOf children => " AND ".intercalate (operandTexts children)
  | .anyOf children => " OR ".intercalate (operandTexts children)
  | .negated inner => "NOT (" ++ text inner ++ ")"
  | .comparison field op value => field ++ " " ++ op.symbol ++ " " ++ value.shown
  | .interval field range => field ++ " = " ++ range.text Literal.shown
  | .multiValue quantifier (.comparison field op value) =>
    quantifier.keyword ++ "(" ++ field ++ ") " ++ op.symbol ++ " " ++ value.shown
  | .multiValue quantifier (.interval field range) =>
    quantifier.keyword ++ "(" ++ field ++ ") = " ++ range.text Literal.shown
  | .multiValue quantifier inner => quantifier.keyword ++ "(" ++ text inner ++ ")"
  | .link quantifier name filter inner =>
    name ++ whereText filter ++ conditionText quantifier inner
  | .transitiveLink name depth inner =>
    name ++ "^" ++ (match depth with
      | none => ""
      | some n => "(" ++ toString n ++ ")") ++ conditionText .any inner
  | .linkId .any name id => name ++ " = " ++ Text.quote id
  | .linkId quantifier name id =>
    quantifier.keyword ++ "(" ++ name ++ ") = " ++ Text.quote id
  | .objectId id => "_ID = " ++ Text.quote id
  | .linkCount name filter op count =>
    "COUNT(" ++ name ++ whereText filter ++ ") " ++ op.symbol ++ " " ++ toString count
  | .linkCountRange name filter range =>
    "COUNT(" ++ name ++ whereText filter ++ ") = " ++ range.countText
  | .fieldCount field op count =>
    "COUNT(" ++ field ++ ") " ++ op.symbol ++ " " ++ toString count
  | .fieldCountRange field range => "COUNT(" ++ field ++ ") = " ++ range.countText
  | .pathCountRange path range => "DCOUNT(" ++ pathText path ++ ") = " ++ range.countText
  | .pathComparison op left right =>
    op.keyword ++ "(" ++ pathText left ++ ", " ++ pathText right ++ ")"

/-- The texts of the operands of a connective. -/
def operandTexts : List Query → List String
  | [] => []
  | child :: rest => grouped child (text child) :: operandTexts rest

/-- The filter of a link, if it has one. -/
def whereText : Option Query → String
  | none => ""
  | some filter => ".WHERE(" ++ text filter ++ ")"

/-- The condition of a link, and the test for existence without one. -/
def conditionText (quantifier : Quantifier) : Option Query → String
  | none => " IS NOT NULL"
  | some inner => "." ++ quantifier.keyword ++ "(" ++ text inner ++ ")"

end

end LinkQuery.Query
