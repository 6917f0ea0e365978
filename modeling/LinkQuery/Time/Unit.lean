import LinkQuery.Time.Timestamp
/-!
# Calendar units

Seconds to years: the start of the unit that holds a timestamp, moving a timestamp by a number of
units, and the number of whole units between two timestamps.
-/
namespace LinkQuery.Time

/-- A unit of time. -/
inductive TimeUnit where
  | second | minute | hour | day | week | month | quarter | year
deriving Repr, DecidableEq

namespace TimeUnit

/-- All units. -/
def all : List TimeUnit :=
  [.second, .minute, .hour, .day, .week, .month, .quarter, .year]

/-- The keyword of a unit. -/
def keyword : TimeUnit → String
  | .second => "SECOND"
  | .minute => "MINUTE"
  | .hour => "HOUR"
  | .day => "DAY"
  | .week => "WEEK"
  | .month => "MONTH"
  | .quarter => "QUARTER"
  | .year => "YEAR"

/-- The unit of a keyword in the singular or with one `S` behind it. -/
def ofKeyword? (word : String) : Option TimeUnit :=
  all.find? fun unit => word == unit.keyword || word == unit.keyword ++ "S"

end TimeUnit

/-- How far a unit reaches: a number of seconds or a number of months. -/
inductive Extent where
  | seconds (count : Nat)
  | months (count : Nat)

/-- The extent of a unit. -/
def TimeUnit.extent : TimeUnit → Extent
  | .second => .seconds 1
  | .minute => .seconds 60
  | .hour => .seconds 3600
  | .day => .seconds 86400
  | .week => .seconds 604800
  | .month => .months 1
  | .quarter => .months 3
  | .year => .months 12

namespace Timestamp

/-- The start of the unit that holds the timestamp. Weeks start on Monday. -/
def truncate (t : Timestamp) (unit : TimeUnit) : Timestamp :=
  match unit with
  | .second => ⟨t.day, t.second, 0⟩
  | .minute => ⟨t.day, t.second / 60 * 60, 0⟩
  | .hour => ⟨t.day, t.second / 3600 * 3600, 0⟩
  | .day => ⟨t.day, 0, 0⟩
  | .week => ⟨t.day - daysSinceMonday t.day, 0, 0⟩
  | .month => ofDate ⟨t.date.year, t.date.month, 1⟩
  | .quarter => ofDate ⟨t.date.year, (t.date.month - 1) / 3 * 3 + 1, 1⟩
  | .year => ofDate ⟨t.date.year, 1, 1⟩

/-- The timestamp some months later at the same time of day. -/
def addMonths (t : Timestamp) (count : Int) : Timestamp :=
  { t with day := (t.date.addMonths count).dayNumber }

/-- The timestamp moved by units; nothing when that leaves the years timestamps are kept in. -/
def shift (t : Timestamp) (amount : Int) (unit : TimeUnit) : Option Timestamp :=
  let moved := match unit.extent with
    | .seconds count => t.addSeconds (amount * count)
    | .months count => t.addMonths (amount * count)
  if moved.inRange then some moved else none

/-- The whole months from `start` to `finish`; an incomplete last month does not count. -/
def wholeMonths (start finish : Timestamp) : Int :=
  let months := (finish.date.year - start.date.year) * 12
    + ((finish.date.month : Int) - start.date.month)
  match start.shift months .month with
  | none => months
  | some reached =>
    if 0 < months && reached.order finish == .gt then months - 1
    else if months < 0 && reached.order finish == .lt then months + 1
    else months

/-- The whole units from `start` to `finish`, counted toward zero. -/
def unitsBetween (unit : TimeUnit) (start finish : Timestamp) : Int :=
  match unit.extent with
  | .seconds count => (elapsedSeconds start finish).tdiv count
  | .months count => (wholeMonths start finish).tdiv count

end Timestamp

end LinkQuery.Time
