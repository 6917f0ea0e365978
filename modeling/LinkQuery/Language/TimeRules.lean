import LinkQuery.Language.Words
import LinkQuery.Rule.Basic
/-!
# Rules for relative time

The present with an optional zone and offset, and the named periods with an optional count and
zone.
-/
namespace LinkQuery.Language

open Rule

variable {ν : Type}

/-- A unit of time. -/
def timeUnit : Rule ν :=
  keywords timeUnitWords

/-- A sign, a number and a unit. -/
def timeOffset : Rule ν :=
  .sequence [
    .choice [symbol "+", symbol "-"],
    .required .number "a number",
    .required timeUnit "a time unit"]

/-- The name of a time zone. -/
def zoneName : Rule ν :=
  .choice [.quoted, .word]

/-- The present, moved by an offset on the clock of a zone. -/
def now : Rule ν :=
  .sequence [
    .keyword "NOW",
    .optional (.sequence [
      symbol "(",
      .optional (.choice [
        timeOffset,
        .sequence [
          zoneName,
          .optional (.sequence [symbol ",", .required timeOffset "a time offset"])]]),
      .required (symbol ")") "')'"])]

/-- A named period. -/
def period : Rule ν :=
  .sequence [
    keywords periodWords,
    .optional (.sequence [
      symbol "(",
      .optional (.choice [
        .sequence [
          .number,
          .optional (.sequence [symbol ",", .required zoneName "a time zone"])],
        zoneName]),
      .required (symbol ")") "')'"])]

/-- The present or a named period. -/
def relativeTime : Rule ν :=
  .choice [now, period]

end LinkQuery.Language
