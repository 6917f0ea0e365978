import LinkQuery.Text.Blank
import LinkQuery.Text.Numeric
import LinkQuery.Text.Whole
import LinkQuery.Time.Timestamp
import LinkQuery.Time.ZoneTable
/-!
# Time zones

A zone is a fixed distance from UTC, written like `UTC+02:00`, or one of the named zones of a
database. Local time that occurs twice is taken at its first occurrence; local time that a gap skips
is read with the offset that holds when a clock on UTC shows it.
-/
namespace LinkQuery.Time

/-- What a database knows of its zones, with times in seconds since day 0. -/
class ZoneRules (N : Type) where
  /-- The seconds east of UTC at an instant. -/
  offsetAt : N → Int → Int
  /-- The offset of the first instant that shows a local time, if one does. -/
  offsetOfLocal? : N → Int → Option Int

/-- A fixed number of seconds east of UTC, or a zone of a database. -/
inductive Zone (N : Type := NamedZone) where
  | fixed (offset : Int)
  | named (zone : N)
deriving Repr, DecidableEq

namespace Zone

/-- UTC itself. -/
def utc {N : Type} : Zone N := .fixed 0

/-- The seconds since day 0 of a reading. -/
def readingSeconds (t : Timestamp) : Int :=
  t.day * secondsPerDay + t.second

/-- The offset of the first instant that shows the local time, if one does. -/
def offsetOfLocal? (zone : NamedZone) (reading : Int) : Option Int :=
  zone.offsets.find? fun offset => zone.offsetAt (reading - offset) == offset

instance : ZoneRules NamedZone := ⟨NamedZone.offsetAt, offsetOfLocal?⟩

section Conversions

variable {N : Type} [ZoneRules N]

/-- The local time of an instant. -/
def toLocal (z : Zone N) (instant : Timestamp) : Timestamp :=
  match z with
  | .fixed offset => instant.moveSeconds offset
  | .named zone => instant.moveSeconds (ZoneRules.offsetAt zone (readingSeconds instant))

/-- The first instant that shows the local time, if it is one that timestamps are kept for. -/
def shownAt? (zone : N) (localTime : Timestamp) : Option Timestamp :=
  ((ZoneRules.offsetOfLocal? zone (readingSeconds localTime)).map fun offset =>
    localTime.moveSeconds (-offset)).filter Timestamp.inRange

/-- The instant of a local time. -/
def toUtc (z : Zone N) (localTime : Timestamp) : Timestamp :=
  match z with
  | .fixed offset => localTime.addSeconds (-offset)
  | .named zone => (shownAt? zone localTime).getD
    (localTime.addSeconds (-ZoneRules.offsetAt zone (readingSeconds localTime)))

end Conversions

/-! ## Names of zones -/

/-- A name of UTC. -/
def isUtcName (text : String) : Bool :=
  text.toUpper == "UTC" || text.toUpper == "GMT" || text == "Z"

/-- The text without a leading `GMT` or `UTC`, in any letter case. -/
def dropUtcName (cs : List Char) : List Char :=
  let head := (cs.take 3).map Char.toUpper
  if head == ['G', 'M', 'T'] || head == ['U', 'T', 'C'] then cs.drop 3 else cs

/-- The digits of hours and minutes behind the sign. -/
def splitOffset? : List Char → Option (List Char × List Char)
  | [a] => some ([a], [])
  | [a, b] => some ([a, b], [])
  | [a, ':', c, d] => some ([a], [c, d])
  | [a, b, c] => some ([a], [b, c])
  | [a, b, c, d] => some ([a, b], [c, d])
  | [a, b, ':', c, d] => some ([a, b], [c, d])
  | _ => none

/-- The number that ASCII digits write, and 0 when digits of other scripts are among them. -/
def asciiValue (digits : List Char) : Nat :=
  (Text.digits? digits).getD 0

/-- Reads what follows the sign of an offset as seconds. -/
def offsetSeconds? (cs : List Char) : Option Nat := do
  let (hours, minutes) ← splitOffset? cs
  if hours.all Text.isAnyDigit && minutes.all Text.isAnyDigit
      && asciiValue hours ≤ 14 && asciiValue minutes < 60 then
    some (asciiValue hours * 3600 + asciiValue minutes * 60)
  else none

/-- Reads an offset such as `UTC+02:00`, `GMT-5` or `+0530`. -/
def offset? (text : String) : Option Int :=
  match Text.dropBlanks (dropUtcName text.toList) with
  | '+' :: cs => (offsetSeconds? cs).map fun n => (n : Int)
  | '-' :: cs => (offsetSeconds? cs).map fun n => -(n : Int)
  | _ => none

/-- The named zone with exactly this name. -/
def named? (name : String) : Option NamedZone :=
  namedZones.find? fun zone => zone.name == name

/-- Reads a zone, with the names of a database; white space around it does not matter. -/
def ofTextIn {N : Type} (database : String → Option N) (text : String) : Option (Zone N) :=
  let name := Text.trim text
  if isUtcName name then some utc
  else match offset? name with
    | some offset => some (.fixed offset)
    | none => (database name).map .named

/-- Reads a zone with the names of `namedZones`. -/
def ofText? (text : String) : Option Zone :=
  ofTextIn named? text

end Zone

end LinkQuery.Time
