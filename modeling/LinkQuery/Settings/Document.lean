import LinkQuery.Json.Decode
import LinkQuery.Json.Reader
import LinkQuery.Settings
import LinkQuery.Time.InstantText
/-!
# Settings documents

The JSON form of settings, in which the present may be left open.
-/
namespace LinkQuery

open Time (Timestamp)

/-- Settings whose present may be left to the clock. -/
structure SettingsRecord where
  timeZone : String
  now : Option Timestamp
  maxLength : Nat
  maxNesting : Nat
deriving Repr, DecidableEq

namespace SettingsRecord

/-- The fields of the record in order. -/
def fieldNames : List String :=
  ["time_zone", "now", "max_expression_length", "max_nesting_depth"]

/-- Reads settings. -/
def ofJson? (value : Json) : Option SettingsRecord := do
  let fields ← value.record? fieldNames
  let timeZone ← Json.required? fields "time_zone" Json.text?
  let now ← Json.withDefault? fields "now" none
    (Json.orNull? fun v => v.text?.bind Timestamp.ofInstantText?)
  let maxLength ← Json.required? fields "max_expression_length" (Json.nat? 64)
  let maxNesting ← Json.withDefault? fields "max_nesting_depth" Settings.defaultMaxNesting
    (Json.nat? 64)
  return ⟨timeZone, now, maxLength, maxNesting⟩

/-- Reads a settings document. -/
def ofText? (text : String) : Option SettingsRecord :=
  (Json.ofText? text).bind ofJson?

/-- The JSON form of settings. -/
def toJson (s : SettingsRecord) : Json :=
  .object [
    ("time_zone", .text s.timeZone),
    ("now", .option (fun t => .text t.instantText) s.now),
    ("max_expression_length", .nat s.maxLength),
    ("max_nesting_depth", .nat s.maxNesting)]

/-- The settings, with the time of a clock for a present that is left open. -/
def withClock (s : SettingsRecord) (clock : Timestamp) : Settings :=
  ⟨s.timeZone, s.now.getD clock, s.maxLength, s.maxNesting⟩

end SettingsRecord

end LinkQuery
