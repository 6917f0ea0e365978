import LinkQuery.Time.TimestampText
/-!
# Instants as text

An instant is written in UTC as `YYYY-MM-DDTHH:MM:SSZ`. It is read with an offset from UTC, and
with white space allowed between its parts.
-/
namespace LinkQuery.Time

namespace Timestamp

/-- Reads one to `width` digits behind white space. -/
def someDigits? (width : Nat) (cs : List Char) : Option (Nat × List Char) :=
  let cs := Text.dropBlanks cs
  let digits := (cs.take width).takeWhile Char.isDigit
  if digits.isEmpty then none else some (Text.digitsValue digits, cs.drop digits.length)

/-- Reads a year: up to four digits, or any number of them behind a sign. -/
def year? (cs : List Char) : Option (Int × List Char) :=
  match Text.dropBlanks cs with
  | '-' :: rest =>
    if (rest.takeWhile Char.isDigit).isEmpty then none
    else some (-(Text.digitsValue (rest.takeWhile Char.isDigit) : Int), rest.dropWhile Char.isDigit)
  | '+' :: rest =>
    if (rest.takeWhile Char.isDigit).isEmpty then none
    else some ((Text.digitsValue (rest.takeWhile Char.isDigit) : Int), rest.dropWhile Char.isDigit)
  | rest => (someDigits? 4 rest).map fun (n, rest) => ((n : Int), rest)

/-- Reads one character behind white space. -/
def mark? (c : Char) (cs : List Char) : Option (List Char) :=
  match Text.dropBlanks cs with
  | d :: rest => if d == c then some rest else none
  | [] => none

/-- Reads a fraction of any length as nanoseconds, digits behind the ninth being dropped. -/
def looseFraction? : List Char → Option (Nat × List Char)
  | '.' :: rest =>
    let digits := rest.takeWhile Char.isDigit
    if digits.isEmpty then none
    else
      let kept := digits.take 9
      some (Text.digitsValue kept * Text.powerOfTen (9 - kept.length), rest.dropWhile Char.isDigit)
  | rest => some (0, rest)

/-- Reads the minutes of an offset: two digits below sixty. -/
def offsetMinutes? (cs : List Char) : Option (Nat × List Char) := do
  let (minutes, rest) ← takeDigits? 2 (cs.dropWhile fun c => c == ':' || Text.isBlank c)
  if minutes < 60 then some (minutes, rest) else none

/-- Reads an offset from UTC in seconds. -/
def instantOffset? (cs : List Char) : Option (Int × List Char) :=
  let signed := fun (sign : Int) cs => do
    let (hours, rest) ← takeDigits? 2 cs
    let (minutes, rest) ← offsetMinutes? rest
    if hours < 24 then some (sign * (hours * 3600 + minutes * 60 : Nat), rest) else none
  if ((cs.take 3).map Char.toUpper) == ['U', 'T', 'C'] then some (0, cs.drop 3)
  else match cs with
    | 'Z' :: rest => some (0, rest)
    | 'z' :: rest => some (0, rest)
    | '+' :: rest => signed 1 rest
    | '-' :: rest => signed (-1) rest
    | '−' :: rest => signed (-1) rest
    | _ => none

/-- Reads the mark between date and time. -/
def timeMark? : List Char → Option (List Char)
  | c :: rest => if c == 'T' || c == 't' || c == ' ' then some rest else none
  | [] => none

/-- Reads an instant and gives it in UTC. -/
def ofInstantText? (text : String) : Option Timestamp := do
  let (year, rest) ← year? text.toList
  let rest ← mark? '-' rest
  let (month, rest) ← someDigits? 2 rest
  let rest ← mark? '-' rest
  let (day, rest) ← someDigits? 2 rest
  let rest ← timeMark? rest
  let (hour, rest) ← someDigits? 2 rest
  let rest ← mark? ':' rest
  let (minute, rest) ← someDigits? 2 rest
  let rest ← mark? ':' rest
  let (second, rest) ← someDigits? 2 rest
  let (nano, rest) ← looseFraction? rest
  let (offset, rest) ← instantOffset? (Text.dropBlanks rest)
  let localTime ← ofParts? year month day hour minute second nano
  let instant := localTime.moveSeconds (-offset)
  if (Text.dropBlanks rest).isEmpty && instant.inRange then some instant else none

/-- The instant in UTC. -/
def instantText (t : Timestamp) : String :=
  t.isoText ++ "Z"

/-- Reads a timestamp in the form that `isoText` writes, with any fraction. -/
def ofIsoText? (text : String) : Option Timestamp :=
  ofInstantText? (text ++ "Z")

end Timestamp

end LinkQuery.Time
