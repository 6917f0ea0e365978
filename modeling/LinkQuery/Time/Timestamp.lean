import LinkQuery.Time.Calendar
/-!
# Timestamps

A timestamp is a day and a time of day down to nanoseconds, with no zone. A leap second is the
second before it with a billion or more nanoseconds, so that it sorts behind that second and in
front of the next.
-/
namespace LinkQuery.Time

/-- Nanoseconds of a second. -/
def nanosPerSecond : Nat := 1000000000

/-- Seconds of a day. -/
def secondsPerDay : Nat := 86400

/-- A day, a second of that day, and nanoseconds, a billion or more of them in a leap second. -/
structure Timestamp where
  day : Int
  second : Nat
  nano : Nat
deriving Repr, DecidableEq

namespace Timestamp

/-- The order of days, then seconds, then nanoseconds. -/
def order (a b : Timestamp) : Ordering :=
  (compare a.day b.day).then ((compare a.second b.second).then (compare a.nano b.nano))

/-- The timestamp lies in a leap second. -/
def isLeap (t : Timestamp) : Bool :=
  nanosPerSecond ≤ t.nano

/-- The date of the timestamp. -/
def date (t : Timestamp) : Date :=
  Date.ofDayNumber t.day

/-- The hour of the day. -/
def hour (t : Timestamp) : Nat := t.second / 3600

/-- The minute of the hour. -/
def minute (t : Timestamp) : Nat := t.second / 60 % 60

/-- Midnight of a date. -/
def ofDate (d : Date) : Timestamp :=
  ⟨d.dayNumber, 0, 0⟩

/-- The day numbers that timestamps are kept in. -/
def firstDay : Int := (Date.mk Date.firstYear 1 1).dayNumber
def lastDay : Int := (Date.mk Date.lastYear 12 31).dayNumber

/-- The timestamp lies in the years that timestamps are kept in. -/
def inRange (t : Timestamp) : Bool :=
  firstDay ≤ t.day && t.day ≤ lastDay

/-- The time of day moved by whole seconds, into other days when it has to be. -/
def moveSeconds (t : Timestamp) (seconds : Int) : Timestamp :=
  let total := (t.second : Int) + seconds
  ⟨t.day + total / secondsPerDay, (total % secondsPerDay).toNat, t.nano⟩

/--
The timestamp a number of elapsed seconds later. A leap second that is left behind counts as the
second in front of it on the way forward and as the second after it on the way back.
-/
def addSeconds (t : Timestamp) (seconds : Int) : Timestamp :=
  if t.isLeap && 0 < seconds then
    { t with nano := t.nano - nanosPerSecond }.moveSeconds seconds
  else if t.isLeap && seconds < 0 then
    { t with nano := t.nano - nanosPerSecond }.moveSeconds (seconds + 1)
  else t.moveSeconds seconds

/-- One more or one less second for a leap second that lies between two times of day. -/
def leapBetween (start finish : Timestamp) : Int :=
  if start.second < finish.second && start.isLeap then 1
  else if finish.second < start.second && finish.isLeap then -1
  else 0

/-- The nanoseconds from `start` to `finish`. -/
def elapsedNanos (start finish : Timestamp) : Int :=
  ((finish.day - start.day) * secondsPerDay + ((finish.second : Int) - start.second)
    + leapBetween start finish) * nanosPerSecond + ((finish.nano : Int) - start.nano)

/-- The whole seconds from `start` to `finish`, counted toward zero. -/
def elapsedSeconds (start finish : Timestamp) : Int :=
  (elapsedNanos start finish).tdiv nanosPerSecond

end Timestamp

end LinkQuery.Time
