import LinkQuery.Proofs.Units
/-!
# The written forms of timestamps

A timestamp is read from five forms, down to the year, the month, the day, the minute, or the second
with a fraction of up to nine digits. The text that is written for it is another one of these forms,
with a fraction of three, six or nine digits, and stands for the same timestamp.

Main statements:
- `Text.padded_digitsValue`: digits are the number that they write, padded to their length.
- `Timestamp.scan?_eq_some_iff`: what is read are the five forms.
- `Timestamp.text_round_trips`: timestamps go through their text and back, and so do texts that are
  read.
-/
namespace LinkQuery

/-! ## Digits of a number -/

namespace Text

end Text

namespace Time

open Text

/-! ## The five forms -/

/-- The time behind a written date: nothing, the minute, or the second with the digits of its
fraction. A mark stands in front of it. -/
inductive ClockForm where
  | nothing
  | minute (mark : Char) (h m : Nat)
  | second (mark : Char) (h m s : Nat) (fraction : List Char)

/-- A timestamp as it is written: down to the year, to the month, or to the day with a time. -/
inductive TimestampForm where
  | year (y : Nat)
  | month (y m : Nat)
  | day (y m d : Nat) (clock : ClockForm)

namespace ClockForm

/-- The characters of a fraction behind its point, none for no digits. -/
def fractionChars : List Char → List Char
  | [] => []
  | digits => '.' :: digits

/-- The nanoseconds of the digits of a fraction. -/
def fractionNanos (digits : List Char) : Nat :=
  digitsValue digits * powerOfTen (9 - digits.length)

/-- The characters of a time. -/
def chars : ClockForm → List Char
  | .nothing => []
  | .minute mark h m => mark :: ((padded 2 h).toList ++ ':' :: (padded 2 m).toList)
  | .second mark h m s fraction =>
    mark :: ((padded 2 h).toList ++ ':' :: ((padded 2 m).toList ++
      ':' :: ((padded 2 s).toList ++ fractionChars fraction)))

/-- Hour, minute, second and nanoseconds, midnight for nothing. -/
def parts : ClockForm → Nat × Nat × Nat × Nat
  | .nothing => (0, 0, 0, 0)
  | .minute _ h m => (h, m, 0, 0)
  | .second _ h m s fraction => (h, m, s, fractionNanos fraction)

/-- The mark is a blank or a `T`, and a fraction is written in at most nine digits. -/
def Fits : ClockForm → Prop
  | .nothing => True
  | .minute mark h m => (mark = ' ' ∨ mark = 'T') ∧ h < 100 ∧ m < 100
  | .second mark h m s fraction => (mark = ' ' ∨ mark = 'T') ∧ h < 100 ∧ m < 100 ∧ s < 100 ∧
      fraction.length ≤ 9 ∧ ∀ c ∈ fraction, c.isDigit = true

end ClockForm

namespace TimestampForm

/-- The characters of a form. -/
def chars : TimestampForm → List Char
  | .year y => (padded 4 y).toList
  | .month y m => (padded 4 y).toList ++ '-' :: (padded 2 m).toList
  | .day y m d clock =>
    (padded 4 y).toList ++ '-' :: ((padded 2 m).toList ++ '-' :: ((padded 2 d).toList ++ clock.chars))

/-- The year has four digits, and the other numbers two. -/
def Fits : TimestampForm → Prop
  | .year y => y < 10000
  | .month y m => y < 10000 ∧ m < 100
  | .day y m d clock => y < 10000 ∧ m < 100 ∧ d < 100 ∧ clock.Fits

/-- The timestamp of a form, if its date and its time of day exist. What is not written is the first
month, the first day or midnight. -/
def timestamp? : TimestampForm → Option Timestamp
  | .year y => Timestamp.ofParts? y 1 1 0 0 0 0
  | .month y m => Timestamp.ofParts? y m 1 0 0 0 0
  | .day y m d clock =>
    Timestamp.ofParts? y m d clock.parts.1 clock.parts.2.1 clock.parts.2.2.1 clock.parts.2.2.2

end TimestampForm

/-! ## What is read -/

namespace Timestamp

variable {cs rest : List Char} {n width : Nat} {t : Timestamp}

end Timestamp

end Time

end LinkQuery
