import LinkQuery.Query.Operators
/-!
# Intervals

An interval between two bounds, each of them open or given and then part of the interval or not.
-/
namespace LinkQuery

/-- An interval; a bound that is not given does not restrict it. -/
structure Interval (α : Type) where
  min : Option α
  max : Option α
  minInclusive : Bool
  maxInclusive : Bool
deriving Repr, DecidableEq

namespace Interval

variable {α β : Type}

/-- The value is not below the interval. -/
def reachesMin (order : α → α → Ordering) (r : Interval α) (value : α) : Bool :=
  match r.min with
  | none => true
  | some min => if r.minInclusive then order value min != .lt else order value min == .gt

/-- The value is not above the interval. -/
def withinMax (order : α → α → Ordering) (r : Interval α) (value : α) : Bool :=
  match r.max with
  | none => true
  | some max => if r.maxInclusive then order value max != .gt else order value max == .lt

/-- The value lies in the interval. -/
def contains (order : α → α → Ordering) (r : Interval α) (value : α) : Bool :=
  r.reachesMin order value && r.withinMax order value

/-- Both intervals have the same bounds, compared by `eq`. -/
def same (eq : α → α → Bool) (a b : Interval α) : Bool :=
  let sameBound : Option α → Option α → Bool
    | none, none => true
    | some x, some y => eq x y
    | _, _ => false
  sameBound a.min b.min && sameBound a.max b.max && a.minInclusive == b.minInclusive
    && a.maxInclusive == b.maxInclusive

/-- The interval with its bounds converted, the lower one first. -/
def mapM {ε : Type} (convert : α → Except ε β) (r : Interval α) : Except ε (Interval β) := do
  let min ← r.min.mapM convert
  let max ← r.max.mapM convert
  return ⟨min, max, r.minInclusive, r.maxInclusive⟩

/-- A bound as text; a star stands for an open one. -/
def boundText (shown : α → String) : Option α → String
  | none => "*"
  | some bound => shown bound

/-- The interval as filter text: brackets include a bound, braces exclude it. -/
def text (shown : α → String) (r : Interval α) : String :=
  (if r.minInclusive then "[" else "\x7b") ++ boundText shown r.min ++ " TO "
    ++ boundText shown r.max ++ (if r.maxInclusive then "]" else "\x7d")

/-- The counts that compare with `n` as the operator says; nothing contains a count. -/
def ofComparison? (op : CompareOp) (n : Nat) : Option (Interval Nat) :=
  match op with
  | .eq => some ⟨some n, some n, true, true⟩
  | .gt => some ⟨some n, none, false, false⟩
  | .ge => some ⟨some n, none, true, false⟩
  | .lt => some ⟨none, some n, false, false⟩
  | .le => some ⟨none, some n, false, true⟩
  | .contains => none

/-- The counts from one upwards. -/
def atLeastOne : Interval Nat :=
  ⟨some 0, none, false, false⟩

/-- The count lies in the interval. -/
def hasCount (r : Interval Nat) (n : Nat) : Bool :=
  r.contains compare n

/-- The count interval as filter text. -/
def countText (r : Interval Nat) : String :=
  r.text toString

end Interval

end LinkQuery
