import LinkQuery.Query.Printer
import LinkQuery.Store.Reach
import LinkQuery.Text.Lowercase
/-!
# Evaluating filter trees

What a filter tree means for an object of a store.

- `View.holds`: whether an object satisfies a tree.
- `View.select`: the objects of a table that satisfy a tree.
-/
namespace LinkQuery

/-- The wording of an error. -/
def EvalError.message : EvalError → String
  | .unknownObject table id => s!"Unknown object '{id}' in table '{table}'"
  | .notALink table field => s!"Field '{field}' is not a link in table '{table}'"
  | .quantifiedTree inner => s!"Cannot evaluate a quantified '{inner.text}'"
  | .containsOnCount => "Cannot evaluate ':' on a count"

namespace Quantifier

/-- So many hits of a total satisfy the quantifier. -/
def holds (quantifier : Quantifier) (hits total : Nat) : Bool :=
  match quantifier with
  | .any | .count => 0 < hits
  | .all => hits == total
  | .none => hits == 0

/-- The quantifier of a link without a condition: only `NONE` asks for there to be nothing. -/
def existence (quantifier : Quantifier) : Quantifier :=
  if quantifier = .none then .none else .any

end Quantifier

/-- One text occurs in another. -/
def Text.occursIn (part : List Char) : List Char → Bool
  | [] => part.isEmpty
  | c :: rest => part.isPrefixOf (c :: rest) || occursIn part rest

namespace CompareOp

/-- A stored value contains another: as text in any letter case, else as the same value. -/
def containsValue (value expected : Literal) : Bool :=
  match value, expected with
  | .text whole, .text part =>
    Text.occursIn (Text.lowercase part).toList (Text.lowercase whole).toList
  | value, expected => value == expected

/-- A stored value compares with another as the operator says. -/
def holds (op : CompareOp) (value expected : Literal) : Bool :=
  match op with
  | .eq => value == expected
  | .contains => containsValue value expected
  | .lt => value.order expected == .lt
  | .le => value.order expected != .gt
  | .gt => value.order expected == .gt
  | .ge => value.order expected != .lt

/-- A count compares with another as the operator says. -/
def holdsForCount (op : CompareOp) (count expected : Nat) : Except EvalError Bool :=
  match op with
  | .eq => .ok (count == expected)
  | .lt => .ok (count < expected)
  | .le => .ok (count ≤ expected)
  | .gt => .ok (count > expected)
  | .ge => .ok (count ≥ expected)
  | .contains => .error .containsOnCount

end CompareOp

namespace PathOp

/-- Two lists of values compare as the operator says. -/
def holds (op : PathOp) (left right : List Literal) : Bool :=
  let shared := left.countP right.contains
  match op with
  | .equals => shared == left.length && shared == right.length
  | .differs => !(shared == left.length && shared == right.length)
  | .intersects => 0 < shared
  | .contains => shared == right.length
  | .disjoint => shared == 0

end PathOp

namespace View

/-- The test of a single value that a tree is, with its field, if it is one. -/
def valueTest? : Query → Option (String × (Literal → Bool))
  | .comparison field op expected => some (field, (op.holds · expected))
  | .interval field range => some (field, range.contains Literal.order)
  | _ => none

/-- The object has a value that passes a test. -/
def hasValue (o : StoredObject) (field : String) (test : Literal → Bool) : Bool :=
  (o.valuesOf field).any test

/-- The values of an object that pass a test are as many as the quantifier asks for. -/
def quantified (quantifier : Quantifier) (o : StoredObject) (inner : Query) :
    Except EvalError Bool :=
  match valueTest? inner with
  | none => .error (.quantifiedTree inner)
  | some (field, test) =>
    let values := o.valuesOf field
    .ok (quantifier.holds (values.countP test) values.length)

/-- The objects that pass a test, which is made of each of them. -/
def passing (test : Located → Except EvalError Bool) : List Located → Except EvalError (List Located)
  | [] => .ok []
  | o :: rest => do
    let passes ← test o
    let others ← passing test rest
    return if passes then o :: others else others

mutual

/-- An object satisfies a tree. -/
def holds (v : View) : Query → Located → Except EvalError Bool
  | .everything, _ => .ok true
  | .nothing, _ => .ok false
  | .allOf children, o => holdsAll v children o
  | .anyOf children, o => holdsAny v children o
  | .negated inner, o => do return !(← holds v inner o)
  | .comparison field op expected, o => .ok (hasValue o.object field (op.holds · expected))
  | .interval field range, o => .ok (hasValue o.object field (range.contains Literal.order))
  | .multiValue quantifier inner, o => quantified quantifier o.object inner
  | .link quantifier name filter inner, o => do
    let targets ← passing (holdsIfAny v filter) (← v.linked o name)
    let hits ← passing (holdsIfAny v inner) targets
    let quantifier := if inner.isSome then quantifier else quantifier.existence
    return quantifier.holds hits.length targets.length
  | .transitiveLink name depth inner, o => do
    let hits ← passing (holdsIfAny v inner) (← v.reached o name depth)
    return !hits.isEmpty
  | .linkId quantifier name id, o => do
    let targets ← v.linked o name
    return quantifier.holds (targets.countP (·.object.id == id)) targets.length
  | .objectId id, o => .ok (o.object.id == id)
  | .linkCount name filter op count, o => do
    let targets ← passing (holdsIfAny v filter) (← v.linked o name)
    op.holdsForCount targets.length count
  | .linkCountRange name filter range, o => do
    let targets ← passing (holdsIfAny v filter) (← v.linked o name)
    return range.hasCount targets.length
  | .fieldCount field op count, o => op.holdsForCount (o.object.valuesOf field).length count
  | .fieldCountRange field range, o => .ok (range.hasCount (o.object.valuesOf field).length)
  | .pathCountRange path range, o => do
    return range.hasCount (← v.pathValues [o] path).length
  | .pathComparison op left right, o => do
    let left ← v.pathValues [o] left
    return op.holds left (← v.pathValues [o] right)

/-- An object satisfies all trees; those behind the first that fails are not looked at. -/
def holdsAll (v : View) : List Query → Located → Except EvalError Bool
  | [], _ => .ok true
  | child :: rest, o => do
    if ← holds v child o then holdsAll v rest o else return false

/-- An object satisfies some tree; those behind the first that holds are not looked at. -/
def holdsAny (v : View) : List Query → Located → Except EvalError Bool
  | [], _ => .ok false
  | child :: rest, o => do
    if ← holds v child o then return true else holdsAny v rest o

/-- An object satisfies a tree that may be missing. -/
def holdsIfAny (v : View) : Option Query → Located → Except EvalError Bool
  | none, _ => .ok true
  | some inner, o => holds v inner o

end

/-- The identities of the objects of a table that satisfy a tree, in order. -/
def select (v : View) (table : String) (q : Query) : Except EvalError (List String) := do
  let found ← passing (v.holds q) ((v.store.objects table).map (⟨table, ·⟩))
  return found.map (·.object.id)

/-- The object of a table with an identity satisfies a tree. -/
def matches? (v : View) (table id : String) (q : Query) : Except EvalError Bool :=
  match v.store.find? table id with
  | none => .error (.unknownObject table id)
  | some o => v.holds q ⟨table, o⟩

end View

end LinkQuery
