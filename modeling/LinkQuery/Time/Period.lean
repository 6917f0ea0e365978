import LinkQuery.Time.Move
/-!
# Periods

A named period such as this week or the last three months, as an interval that holds its start and
not its end. Units are cut on the local clock of a zone.
-/
namespace LinkQuery.Time

/-- A period relative to the present. -/
inductive Period where
  | today
  | yesterday
  | current (unit : TimeUnit)
  | last (unit : TimeUnit)
deriving Repr, DecidableEq

namespace Period

/-- The unit whose keyword follows `lead` in the word. -/
def unitAfter? (lead word : String) : Option TimeUnit :=
  if lead.toList.isPrefixOf word.toList then
    TimeUnit.ofKeyword? (String.ofList (word.toList.drop lead.length))
  else none

/-- The period of a keyword. -/
def ofKeyword? (word : String) : Option Period :=
  if word == "TODAY" then some .today
  else if word == "YESTERDAY" then some .yesterday
  else ((unitAfter? "THIS" word).map .current).or ((unitAfter? "LAST" word).map .last)

/-- Only the last units can be counted. -/
def takesCount : Period → Bool
  | .last _ => true
  | _ => false

/-- The period on the local clock that shows `now`. -/
def localSpan (p : Period) (count : Nat) (now : Timestamp) :
    Except MoveError (Timestamp × Timestamp) :=
  match p with
  | .today => do
    let start ← (now.truncate .day).kept
    return (start, ← start.shifted 1 .day)
  | .yesterday => do
    let finish ← (now.truncate .day).kept
    return (← finish.shifted (-1) .day, finish)
  | .current unit => do
    let start ← (now.truncate unit).kept
    return (start, ← start.shifted 1 unit)
  | .last unit => do
    let finish ← (now.truncate unit).kept
    return (← finish.shifted (-count) unit, finish)

/-- The start and the end of the period in UTC, for an instant `now` and a zone. -/
def resolve {N : Type} [ZoneRules N] (p : Period) (count : Nat) (zone : Zone N) (now : Timestamp) :
    Except MoveError (Timestamp × Timestamp) := do
  let shown ← (zone.toLocal now).kept
  let (start, finish) ← p.localSpan count shown
  return (← (zone.toUtc start).kept, ← (zone.toUtc finish).kept)

end Period

end LinkQuery.Time
