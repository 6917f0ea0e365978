import LinkQuery.QueryError
/-!
# Operator stacks

Operands and operators of an expression with precedence and parentheses, the latest first. An
operator is applied to the operands on top of the stack; how is up to the kind of expression.

- `OperatorStacks.connected`: an operator lets those apply first that bind at least as closely.
- `OperatorStacks.closed`: a parenthesis closes when all operators inside it have been applied.
-/
namespace LinkQuery

/-- The operands and operators so far, the latest first. -/
structure OperatorStacks (ω α : Type) where
  operands : List α
  /-- The operators behind the innermost open parenthesis. -/
  operators : List ω
  /-- The operators in front of each open parenthesis, the innermost first. -/
  outer : List (List ω)

namespace OperatorStacks

variable {ω α : Type}

/-- The stacks in front of an expression. -/
def empty : OperatorStacks ω α := ⟨[], [], []⟩

/-- The operands and operators left when the leading operators that satisfy a test are applied. -/
def applyWhile (apply : ω → List α → Except QueryError (List α)) (test : ω → Bool)
    (operands : List α) : List ω → Except QueryError (List α × List ω)
  | [] => .ok (operands, [])
  | op :: rest =>
    if test op then
      match apply op operands with
      | .error why => .error why
      | .ok operands => applyWhile apply test operands rest
    else .ok (operands, op :: rest)

/-- Applies the latest operators as long as they satisfy a test. -/
def reduce (apply : ω → List α → Except QueryError (List α)) (test : ω → Bool)
    (s : OperatorStacks ω α) : Except QueryError (OperatorStacks ω α) := do
  let (operands, operators) ← applyWhile apply test s.operands s.operators
  return ⟨operands, operators, s.outer⟩

/-- The stacks with one more operand. -/
def push (s : OperatorStacks ω α) (operand : α) : OperatorStacks ω α :=
  { s with operands := operand :: s.operands }

/-- The stacks with one more operator, nothing applied before it. -/
def waiting (s : OperatorStacks ω α) (op : ω) : OperatorStacks ω α :=
  { s with operators := op :: s.operators }

/-- The stacks behind an operator, those that bind at least as closely applied. -/
def connected (apply : ω → List α → Except QueryError (List α)) (rank : ω → Nat)
    (s : OperatorStacks ω α) (op : ω) : Except QueryError (OperatorStacks ω α) := do
  let s ← s.reduce apply (rank op ≤ rank ·)
  return s.waiting op

/-- The stacks behind an opening parenthesis. -/
def opened (s : OperatorStacks ω α) : OperatorStacks ω α :=
  ⟨s.operands, [], s.operators :: s.outer⟩

/-- The stacks behind a closing parenthesis. -/
def closed (apply : ω → List α → Except QueryError (List α)) (unopened : InternalCause)
    (s : OperatorStacks ω α) : Except QueryError (OperatorStacks ω α) := do
  let s ← s.reduce apply fun _ => true
  match s.outer with
  | [] => internal unopened
  | operators :: outer => return ⟨s.operands, operators, outer⟩

/-- The operands behind a whole expression. -/
def finish (apply : ω → List α → Except QueryError (List α)) (unclosed : InternalCause)
    (s : OperatorStacks ω α) : Except QueryError (List α) := do
  let s ← s.reduce apply fun _ => true
  if s.outer.isEmpty then return s.operands else internal unclosed

end OperatorStacks

end LinkQuery
