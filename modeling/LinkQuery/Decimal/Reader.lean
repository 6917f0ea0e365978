import LinkQuery.Decimal.Basic
/-!
# Reading decimals

The accepted texts: an optional sign, digits with at most one point among them and underscores
anywhere behind the first digit, and optionally an exponent behind `e` or `E`. Whole digits have to
fit the coefficient. Decimal places that do not fit are dropped and the first of them rounds the
rest, a five upwards.
-/
namespace LinkQuery.Decimal

/-- A digit or an underscore, which is all that may follow the last place that fits. -/
def isDropped (c : Char) : Bool :=
  c.isDigit || c == '_'

/--
Rounds at `c`, the first character that does not fit. When the rounded coefficient does not fit
either, one more place is given up.
-/
def roundAt (coefficient scale : Nat) (c : Char) (rest : List Char) : Option (Nat × Nat) :=
  if !isDropped c || !rest.all isDropped then none
  else
    let rounded := if c.isDigit && Text.digitValue c ≥ 5 then coefficient + 1 else coefficient
    if rounded < coefficientBound then some (rounded, scale)
    else if scale = 0 then none
    else some ((rounded + 4) / 10, scale - 1)

/-- Reads digits behind the sign; `point` and `digits` tell whether one was read before. -/
def scan (point digits : Bool) (coefficient scale : Nat) : List Char → Option (Nat × Nat)
  | [] => if digits then some (coefficient, scale) else none
  | c :: rest =>
    if point && scale ≥ maxScale then roundAt coefficient scale c rest
    else if c.isDigit then
      let next := coefficient * 10 + Text.digitValue c
      if next < coefficientBound then
        scan point true next (if point then scale + 1 else scale) rest
      else if point then roundAt coefficient scale c rest
      else none
    else if c == '.' && !point then scan true digits coefficient scale rest
    else if c == '_' && digits then scan point digits coefficient scale rest
    else none

/-- Reads a decimal without an exponent. -/
def plain? (cs : List Char) : Option Decimal :=
  let read := fun (sign : Int) cs =>
    (scan false false 0 0 cs).map fun (coefficient, scale) => ⟨sign * coefficient, scale⟩
  match cs with
  | '-' :: cs => read (-1) cs
  | '+' :: cs => read 1 cs
  | cs => read 1 cs

/-- Drops `places` decimal places of a coefficient, a half away from zero. -/
def roundPlaces (coefficient : Int) (places : Nat) : Int :=
  let magnitude := (coefficient.natAbs + Text.powerOfTen places / 2) / Text.powerOfTen places
  if coefficient < 0 then -(magnitude : Int) else magnitude

/-- The decimal divided by `10 ^ exponent`. Places beyond the largest scale are rounded away. -/
def lower (d : Decimal) (exponent : Nat) : Option Decimal :=
  if exponent > maxScale then none
  else if d.scale + exponent > maxScale then
    some ⟨roundPlaces d.coefficient (d.scale + exponent - maxScale), maxScale⟩
  else some ⟨d.coefficient, d.scale + exponent⟩

/-- The decimal times `10 ^ exponent`, without decimal places once the point has moved past them. -/
def raise (d : Decimal) (exponent : Nat) : Option Decimal :=
  if exponent ≤ d.scale then some ⟨d.coefficient, d.scale - exponent⟩
  else if exponent > maxScale then none
  else
    let coefficient := d.coefficient * Text.powerOfTen (exponent - d.scale)
    if coefficient.natAbs < coefficientBound then some ⟨coefficient, 0⟩ else none

/-- Reads an exponent and moves the point of the base by it. -/
def withExponent (base : Decimal) (exponent : List Char) : Option Decimal :=
  match exponent with
  | '-' :: cs => (Text.unsigned? 32 (String.ofList cs)).bind base.lower
  | cs => (Text.unsigned? 32 (String.ofList cs)).bind base.raise

/-- The mark of an exponent. -/
def isExponentMark (c : Char) : Bool :=
  c == 'e' || c == 'E'

/-- Reads a decimal, with an exponent when it cannot be read without one. -/
def ofText? (text : String) : Option Decimal :=
  let cs := text.toList
  match plain? cs with
  | some d => some d
  | none =>
    match cs.dropWhile (!isExponentMark ·) with
    | [] => none
    | _ :: exponent => (plain? (cs.takeWhile (!isExponentMark ·))).bind (withExponent · exponent)

end LinkQuery.Decimal
