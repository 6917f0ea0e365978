import LinkQuery.QueryError
import LinkQuery.Time.Period
/-!
# Settings

The zone and the clock that relative time is resolved with, and the limits on the length and the
nesting of an expression.
-/
namespace LinkQuery

open Time (Timestamp Zone)

/-- The settings of one compilation. -/
structure Settings where
  /-- The name of the caller's time zone. -/
  timeZone : String
  /-- The present, in UTC. -/
  now : Timestamp
  /-- The most characters an expression may have. -/
  maxLength : Nat
  /-- The most levels an expression may nest to. -/
  maxNesting : Nat
deriving Repr, DecidableEq

namespace Settings

/-- The length limit where none is set. -/
def defaultMaxLength : Nat := 64 * 1024

/-- The nesting limit where none is set. -/
def defaultMaxNesting : Nat := 64

/-- The settings where nothing is set, at a given present. -/
def standard (now : Timestamp) : Settings :=
  ⟨"UTC", now, defaultMaxLength, defaultMaxNesting⟩

/-- Reads the name of a zone. -/
def zoneNamed (name : String) : Except QueryError Zone :=
  match Zone.ofText? name with
  | some zone => .ok zone
  | none => invalid (.unknownZone name)

/-- The caller's time zone. -/
def zone (s : Settings) : Except QueryError Zone :=
  zoneNamed s.timeZone

/-- Refuses a text with more characters than a limit. -/
def checkLengthWithin (limit : Nat) (input : String) : Except QueryError Unit :=
  if input.length > limit then invalid (.tooLong input.length limit) else .ok ()

/-- Refuses a text that is too long. -/
def checkLength (s : Settings) (input : String) : Except QueryError Unit :=
  checkLengthWithin s.maxLength input

end Settings

end LinkQuery
