import LinkQuery.Time.Unit
import LinkQuery.Time.Zone
/-!
# Moves on a local clock

A move by units is checked: it is refused when it leaves the years that timestamps are kept in. The
conversions to local time and back, and the way back to a Monday, are not checked. When one of them
leaves these years, there is no timestamp to go on with.
-/
namespace LinkQuery.Time

/-- Why a move gives no timestamp. -/
inductive MoveError where
  /-- The move by units leaves the years timestamps are kept in, and is refused. -/
  | outOfRange (amount : Int) (unit : TimeUnit)
  /-- A step that is not checked leaves these years. -/
  | overflow
deriving Repr, DecidableEq

namespace Timestamp

/-- The timestamp, if it lies in the years that timestamps are kept in. -/
def kept (t : Timestamp) : Except MoveError Timestamp :=
  if t.inRange then .ok t else .error .overflow

/-- The timestamp moved by units, or the move that is refused. -/
def shifted (t : Timestamp) (amount : Int) (unit : TimeUnit) : Except MoveError Timestamp :=
  match t.shift amount unit with
  | some moved => .ok moved
  | none => .error (.outOfRange amount unit)

end Timestamp

/-- The instant moved by units on the local clock of a zone. -/
def Zone.moved {N : Type} [ZoneRules N] (zone : Zone N) (instant : Timestamp) (amount : Int)
    (unit : TimeUnit) : Except MoveError Timestamp := do
  let shown ← (zone.toLocal instant).kept
  (zone.toUtc (← shown.shifted amount unit)).kept

end LinkQuery.Time
