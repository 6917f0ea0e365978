import LinkQuery.Text.Blank
import LinkQuery.Text.Whole
import LinkQuery.Time.Timestamp
/-!
# Timestamps as text

A timestamp is written `YYYY-MM-DD HH:MM:SS` with a fraction of three, six or nine digits where
one is needed, and years outside four digits with a sign. It is read in five lengths, from the year
alone to a fraction of one to nine digits, with a blank or a `T` in front of the time.
-/
namespace LinkQuery.Time

namespace Timestamp

/-- The year, with a sign when four digits do not hold it. -/
def yearText (year : Int) : String :=
  if 0 ≤ year && year ≤ 9999 then Text.padded 4 year.toNat
  else (if year < 0 then "-" else "+") ++ Text.padded 4 year.natAbs

/-- The fraction of a second in the fewest of three, six and nine digits, empty for none. -/
def fractionText (nano : Nat) : String :=
  if nano = 0 then ""
  else if nano % 1000000 = 0 then "." ++ Text.padded 3 (nano / 1000000)
  else if nano % 1000 = 0 then "." ++ Text.padded 6 (nano / 1000)
  else "." ++ Text.padded 9 nano

/-- The time of day; a leap second is second 60 of its minute. -/
def clockText (t : Timestamp) : String :=
  Text.padded 2 t.hour ++ ":" ++ Text.padded 2 t.minute ++ ":"
    ++ Text.padded 2 (t.second % 60 + t.nano / nanosPerSecond)
    ++ fractionText (t.nano % nanosPerSecond)

/-- The date in three parts. -/
def dateText (t : Timestamp) : String :=
  yearText t.date.year ++ "-" ++ Text.padded 2 t.date.month ++ "-" ++ Text.padded 2 t.date.day

/-- The timestamp with a blank between date and time. -/
def text (t : Timestamp) : String :=
  t.dateText ++ " " ++ t.clockText

/-- The timestamp with a `T` between date and time. -/
def isoText (t : Timestamp) : String :=
  t.dateText ++ "T" ++ t.clockText

/-- The timestamp of a date and a time of day that both exist. Second 60 is a leap second. -/
def ofParts? (year : Int) (month day hour minute second nano : Nat) : Option Timestamp :=
  let date := Date.mk year month day
  if date.isValid && hour < 24 && minute < 60 && second ≤ 60 && nano < nanosPerSecond then
    if second = 60 then some ⟨date.dayNumber, hour * 3600 + minute * 60 + 59, nanosPerSecond + nano⟩
    else some ⟨date.dayNumber, hour * 3600 + minute * 60 + second, nano⟩
  else none

/-- Reads exactly `count` digits and gives their number and what follows. -/
def takeDigits? (count : Nat) (cs : List Char) : Option (Nat × List Char) :=
  if (cs.take count).length = count && (cs.take count).all Char.isDigit then
    some (Text.digitsValue (cs.take count), cs.drop count)
  else none

/-- Reads the character `c` and then `count` digits. -/
def takePart? (c : Char) (count : Nat) : List Char → Option (Nat × List Char)
  | d :: rest => if d == c then takeDigits? count rest else none
  | [] => none

/-- Reads a point and one to nine digits as nanoseconds; nothing is no fraction. -/
def fraction? : List Char → Option Nat
  | [] => some 0
  | '.' :: digits =>
    if 1 ≤ digits.length && digits.length ≤ 9 && digits.all Char.isDigit then
      some (Text.digitsValue digits * Text.powerOfTen (9 - digits.length))
    else none
  | _ :: _ => none

/-- Reads what follows a date: nothing, or hour and minute with or without seconds. -/
def clock? : List Char → Option (Nat × Nat × Nat × Nat)
  | [] => some (0, 0, 0, 0)
  | mark :: rest =>
    if mark == ' ' || mark == 'T' then do
      let (hour, rest) ← takeDigits? 2 rest
      let (minute, rest) ← takePart? ':' 2 rest
      if rest.isEmpty then some (hour, minute, 0, 0)
      else do
        let (second, rest) ← takePart? ':' 2 rest
        let nano ← fraction? rest
        some (hour, minute, second, nano)
    else none

/-- Reads one of the five lengths. -/
def scan? (cs : List Char) : Option Timestamp := do
  let (year, rest) ← takeDigits? 4 cs
  if rest.isEmpty then ofParts? year 1 1 0 0 0 0
  else do
    let (month, rest) ← takePart? '-' 2 rest
    if rest.isEmpty then ofParts? year month 1 0 0 0 0
    else do
      let (day, rest) ← takePart? '-' 2 rest
      let (hour, minute, second, nano) ← clock? rest
      ofParts? year month day hour minute second nano

/-- Reads a timestamp; white space around it does not matter. -/
def ofText? (text : String) : Option Timestamp :=
  scan? (Text.trim text).toList

end Timestamp

end LinkQuery.Time
