/-!
# Whole numbers as text

Readers of bounded whole numbers: ASCII digits with an optional sign, no blanks. An unsigned number
may carry a plus sign only.
-/
namespace LinkQuery.Text

/-- The value of a digit. -/
def digitValue (c : Char) : Nat :=
  c.toNat - '0'.toNat

/-- The number that the digits write in base ten. -/
def digitsValue (cs : List Char) : Nat :=
  cs.foldl (fun n c => n * 10 + digitValue c) 0

/-- Reads one or more ASCII digits and nothing else. -/
def digits? (cs : List Char) : Option Nat :=
  if !cs.isEmpty && cs.all Char.isDigit then some (digitsValue cs) else none

/-- The numbers that are written with so many bits are below this one. -/
def bitBound (bits : Nat) : Nat := Nat.pow 2 bits

/-- A one with so many zeros behind it. -/
def powerOfTen (zeros : Nat) : Nat := Nat.pow 10 zeros

/-- Reads an unsigned number of so many bits. -/
def unsigned? (bits : Nat) (text : String) : Option Nat :=
  let read := fun cs => (digits? cs).filter (· < bitBound bits)
  match text.toList with
  | '+' :: cs => read cs
  | cs => read cs

/-- Reads a signed number that fits into `bits` bits. -/
def signed? (bits : Nat) (text : String) : Option Int :=
  let read := fun (sign : Int) cs =>
    ((digits? cs).map fun n => sign * (n : Int)).filter fun n =>
      -(bitBound (bits - 1) : Int) ≤ n && n < (bitBound (bits - 1) : Int)
  match text.toList with
  | '+' :: cs => read 1 cs
  | '-' :: cs => read (-1) cs
  | cs => read 1 cs

/-- The number in base ten with at least `width` digits, zeros in front. -/
def padded (width n : Nat) : String :=
  let digits := Nat.toDigits 10 n
  String.ofList (List.replicate (width - digits.length) '0' ++ digits)

end LinkQuery.Text
