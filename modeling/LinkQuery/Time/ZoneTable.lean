import LinkQuery.Time.Calendar
/-!
# Named time zones

The zones known by name: their distance from UTC and, where they have it, the rule for daylight
time. A rule names the Sunday and the time of day at which daylight time begins and ends.
-/
namespace LinkQuery.Time

/-- Which Sunday of a month. -/
inductive Sunday where
  | nth (n : Nat)
  | last
deriving Repr, DecidableEq

/-- The clock that the time of day of a changeover is read from. -/
inductive ChangeClock where
  | utc
  | wall
deriving Repr, DecidableEq

/-- A moment of each year at which the clocks change. -/
structure Changeover where
  month : Nat
  sunday : Sunday
  second : Nat
deriving Repr, DecidableEq

/-- Daylight time: its seconds ahead of standard time, and when it begins and ends. -/
structure Daylight where
  ahead : Int
  clock : ChangeClock
  start : Changeover
  finish : Changeover
deriving Repr, DecidableEq

/-- A zone known by name, `standard` seconds east of UTC outside daylight time. -/
structure NamedZone where
  name : String
  standard : Int
  daylight : Option Daylight
deriving Repr, DecidableEq

/-- Daylight time of Europe: the last Sundays of March and October at one o'clock UTC. -/
def europeanDaylight : Daylight :=
  ⟨3600, .utc, ⟨3, .last, 3600⟩, ⟨10, .last, 3600⟩⟩

/-- Daylight time of North America: second Sunday of March to first of November, at two o'clock. -/
def americanDaylight : Daylight :=
  ⟨3600, .wall, ⟨3, .nth 2, 7200⟩, ⟨11, .nth 1, 7200⟩⟩

/-- Daylight time of Lord Howe Island: half an hour over the southern summer. -/
def lordHoweDaylight : Daylight :=
  ⟨1800, .wall, ⟨10, .nth 1, 7200⟩, ⟨4, .nth 1, 7200⟩⟩

/-- The zones known by name. -/
def namedZones : List NamedZone :=
  [ ⟨"Europe/Paris", 3600, some europeanDaylight⟩,
    ⟨"Europe/London", 0, some europeanDaylight⟩,
    ⟨"America/New_York", -18000, some americanDaylight⟩,
    ⟨"US/Eastern", -18000, some americanDaylight⟩,
    ⟨"America/St_Johns", -12600, some americanDaylight⟩,
    ⟨"Australia/Lord_Howe", 37800, some lordHoweDaylight⟩,
    ⟨"Asia/Kolkata", 19800, none⟩,
    ⟨"Asia/Tokyo", 32400, none⟩,
    ⟨"Asia/Kathmandu", 20700, none⟩,
    ⟨"Pacific/Kiritimati", 50400, none⟩,
    ⟨"Etc/UTC", 0, none⟩,
    ⟨"Etc/GMT+5", -18000, none⟩,
    ⟨"Etc/GMT-14", 50400, none⟩,
    ⟨"EST", -18000, none⟩ ]

/-- The day number of a Sunday of a month. -/
def Sunday.dayNumber (s : Sunday) (year : Int) (month : Nat) : Int :=
  match s with
  | .nth n =>
    let first := (Date.mk year month 1).dayNumber
    first + (6 - daysSinceMonday first) + 7 * ((n : Int) - 1)
  | .last =>
    let last := (Date.mk year month (monthLength year month)).dayNumber
    last - (daysSinceMonday last + 1) % 7

/-- The changeover of a year in seconds, on its own clock. -/
def Changeover.secondOf (c : Changeover) (year : Int) : Int :=
  c.sunday.dayNumber year c.month * 86400 + c.second

namespace NamedZone

/-- The instants, in UTC seconds, at which daylight time begins and ends in a year. -/
def daylightSpan (z : NamedZone) (d : Daylight) (year : Int) : Int × Int :=
  match d.clock with
  | .utc => (d.start.secondOf year, d.finish.secondOf year)
  | .wall => (d.start.secondOf year - z.standard, d.finish.secondOf year - (z.standard + d.ahead))

/-- Daylight time holds at an instant; in the south it lasts over the end of the year. -/
def isDaylight (z : NamedZone) (d : Daylight) (utc : Int) : Bool :=
  let (start, finish) := z.daylightSpan d (Date.yearOf (utc / 86400))
  if start < finish then start ≤ utc && utc < finish else !(finish ≤ utc && utc < start)

/-- The seconds east of UTC at an instant given in UTC seconds. -/
def offsetAt (z : NamedZone) (utc : Int) : Int :=
  match z.daylight with
  | none => z.standard
  | some d => if z.isDaylight d utc then z.standard + d.ahead else z.standard

/-- The offsets of a zone, the largest first. -/
def offsets (z : NamedZone) : List Int :=
  match z.daylight with
  | none => [z.standard]
  | some d => [z.standard + d.ahead, z.standard]

end NamedZone

end LinkQuery.Time
