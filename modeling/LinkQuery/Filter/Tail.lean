import LinkQuery.Value
/-!
# What follows a path in a filter

A path ends its term, or is tested for null, or is compared with a value. A count along a path is
compared with a number or an interval of numbers.
-/
namespace LinkQuery.Filter

open ElementReader

/-- The counts that a count is compared with. -/
inductive CountTest where
  | exactly (count : Nat)
  | within (range : Interval Nat)
deriving Repr, DecidableEq

/-- The counts as an interval. -/
def CountTest.range : CountTest → Interval Nat
  | .exactly count => ⟨some count, some count, true, true⟩
  | .within range => range

/-- What a term says of what its path leads to. -/
inductive Tail where
  /-- Nothing: something is there. -/
  | bare
  | present
  | missing
  | compare (op : CompareOp) (value : Value)
  | count (test : CountTest)
deriving Repr, DecidableEq

namespace Tail

/-- The tail compares values. -/
def isComparison : Tail → Bool
  | .compare .. => true
  | _ => false

/-- The tail tests a count. -/
def isCount : Tail → Bool
  | .count _ => true
  | _ => false

/-- The comparison operator that a token is. -/
def operator? (t : Token) : Option CompareOp :=
  if t.kind = .symbol then CompareOp.ofSymbol? t.value else none

/-- Reads what follows a path. -/
def read (clock : Clock) : ElementReader Tail := do
  if (← tokenIf? (·.isMarker .isNull)).isSome then return .missing
  if (← tokenIf? (·.isMarker .isNotNull)).isSome then return .present
  match (← peekToken?).bind operator? with
  | none => return .bare
  | some op =>
    skip
    return .compare op (← Value.read clock)

end Tail

namespace CountTest

/-- Reads a count of 64 bits. -/
def number (text : String) : Except QueryError Nat :=
  match Text.unsigned? 64 text with
  | some count => .ok count
  | none => invalid (.countNotWhole text)

/-- The counts for an operator and a value. -/
def ofValue (op : CompareOp) : Value → Except QueryError CountTest
  | .raw (.number written) => do
    let count ← number written
    if op = .eq then return .exactly count
    match Interval.ofComparison? op count with
    | some range => return .within range
    | none => invalid .containsOnCount
  | .interval range =>
    if op = .eq then (range.mapM fun bound => number bound.asText).map .within
    else invalid .countRangeOperator
  | .raw other => invalid (.countNotNumber other.asText)

/-- Reads an operator and what a count is compared with. -/
def read (clock : Clock) : ElementReader CountTest := do
  let t ← nextToken
  match CompareOp.ofSymbol? t.value with
  | none => fail (.noComparison t)
  | some op => lift (ofValue op (← Value.read clock))

end CountTest

end LinkQuery.Filter
