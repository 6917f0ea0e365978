import LinkQuery.Text.Whole
/-!
# Decimal numbers

A decimal is a whole coefficient over a power of ten. The scale, the number of decimal places, is
kept as written and shows in the text; comparison looks at the value only.

- `beq_iff`: two decimals are equal exactly when their values are.
-/
namespace LinkQuery

/-- The number `coefficient / 10 ^ scale`. -/
structure Decimal where
  coefficient : Int
  scale : Nat
deriving Repr, DecidableEq

namespace Decimal

/-- Coefficients stay below this bound in magnitude. -/
def coefficientBound : Nat := Text.bitBound 96

/-- The largest number of decimal places. -/
def maxScale : Nat := 28

/-- A whole number. -/
def ofInt (n : Int) : Decimal := ⟨n, 0⟩

/-- The order of the values. -/
def order (a b : Decimal) : Ordering :=
  compare (a.coefficient * Text.powerOfTen b.scale) (b.coefficient * Text.powerOfTen a.scale)

instance : BEq Decimal where
  beq a b := a.coefficient * Text.powerOfTen b.scale == b.coefficient * Text.powerOfTen a.scale

theorem beq_iff {a b : Decimal} : (a == b) = true ↔
    a.coefficient * Text.powerOfTen b.scale = b.coefficient * Text.powerOfTen a.scale := by
  simp [BEq.beq]

/-- The value is a whole number. -/
def isWhole (d : Decimal) : Bool :=
  d.coefficient.natAbs % Text.powerOfTen d.scale == 0

/-- The value without its decimal places. -/
def truncate (d : Decimal) : Decimal :=
  ⟨d.coefficient.tdiv (Text.powerOfTen d.scale), 0⟩

/-- The digits of the magnitude with the point `scale` places from the right. -/
def magnitudeText (d : Decimal) : String :=
  let digits := Text.padded (d.scale + 1) d.coefficient.natAbs
  if d.scale = 0 then digits
  else
    let whole := digits.length - d.scale
    String.ofList (digits.toList.take whole) ++ "." ++ String.ofList (digits.toList.drop whole)

/-- The number as text, every decimal place written. -/
def text (d : Decimal) : String :=
  if d.coefficient < 0 then "-" ++ d.magnitudeText else d.magnitudeText

end Decimal

end LinkQuery
