import LinkQuery.ElementReader
import LinkQuery.Literal
import LinkQuery.Query.Interval
import LinkQuery.Settings
/-!
# Values to compare with

What stands on the right of a comparison: a value as written, or an interval, either of them
perhaps relative to the present. Relative time is resolved while it is read, on the clock of the
caller's zone or of the zone that the expression names.
-/
namespace LinkQuery

open Time (MoveError Period TimeUnit Timestamp Zone)

/-- How a move that gives no timestamp ends the reading of an expression. -/
def QueryError.ofMove : MoveError → QueryError
  | .outOfRange amount unit => .invalid (.offsetOutOfRange amount unit)
  | .overflow => .overflow

/-- The present and the caller's zone. -/
structure Clock where
  zone : Zone
  zoneName : String
  now : Timestamp
deriving Repr

namespace Clock

/-- The clock of the settings. -/
def ofSettings (settings : Settings) : Except QueryError Clock := do
  return ⟨← settings.zone, settings.timeZone, settings.now⟩

/-- The zone with a name, or the caller's zone where none is named. -/
def zoneFor (clock : Clock) (name : Option String) : Except QueryError Zone :=
  match name with
  | none => .ok clock.zone
  | some name => Settings.zoneNamed name

/-- The present moved by units on the local clock of a zone, in UTC. -/
def nowIn (clock : Clock) (name : Option String) (offset : Option (Int × TimeUnit)) :
    Except QueryError Timestamp := do
  let zone ← clock.zoneFor name
  match offset with
  | none => return clock.now
  | some (amount, unit) => (zone.moved clock.now amount unit).mapError QueryError.ofMove

/-- The start and the end of a period in UTC. -/
def periodSpan (clock : Clock) (period : Period) (count : Nat) (name : Option String) :
    Except QueryError (Timestamp × Timestamp) := do
  let zone ← clock.zoneFor name
  (period.resolve count zone clock.now).mapError QueryError.ofMove

end Clock

/-- The right side of a comparison before the type of the field is known. -/
inductive Value where
  | raw (value : RawValue)
  | interval (range : Interval RawValue)
deriving Repr, DecidableEq

namespace Value

open ElementReader

/-- Takes a zone if one is named. -/
def zoneName? : ElementReader (Option String) := do
  return (← tokenIf? Token.isName).map (·.value)

/-- The unit that a token names. -/
def unitOf (t : Token) : Except QueryError TimeUnit :=
  match TimeUnit.ofKeyword? t.value with
  | some unit => .ok unit
  | none => internal (.unknownUnit t.value)

/-- The opposite of a signed number of 64 bits; the least one is its own opposite. -/
def negate (amount : Int) : Int :=
  Int.bmod (-amount) (Text.bitBound 64)

/-- Reads the amount and the unit behind the sign of an offset. -/
def offset (negative : Bool) : ElementReader (Int × TimeUnit) := do
  let written ← nextToken
  match Text.signed? 64 written.value with
  | none => refuse (.offsetNotWhole written.value)
  | some amount =>
    let unit ← lift (unitOf (← nextToken))
    return (if negative then negate amount else amount, unit)

/-- Reads what may follow the keyword of the present. -/
def now (clock : Clock) : ElementReader Timestamp := do
  if !(← symbolIf "(") then return ← lift (clock.nowIn none none)
  let zone ← zoneName?
  if zone.isSome then let _ ← symbolIf ","
  let moved ← match ← tokenIf? (fun t => t.isSymbol "+" || t.isSymbol "-") with
    | none => pure none
    | some sign => some <$> offset (sign.value == "-")
  symbol ")"
  lift (clock.nowIn zone moved)

/-- Reads the count of a period if there is one. -/
def count? (keyword : String) : ElementReader (Option Nat) := do
  match ← tokenIf? (·.kind == .number) with
  | none => return none
  | some written =>
    match Text.unsigned? 32 written.value with
    | none => refuse (.periodCount written.value)
    | some 0 => refuse (.emptyPeriod keyword)
    | some count =>
      let _ ← symbolIf ","
      return some count

/-- Reads the count and the zone of a period, both of which may be missing. -/
def periodArguments (keyword : String) : ElementReader (Option Nat × Option String) := do
  if !(← symbolIf "(") then return (none, none)
  let count ← count? keyword
  let zone ← zoneName?
  symbol ")"
  return (count, zone)

/-- Reads what may follow the keyword of a period, and gives its start and its end. -/
def span (clock : Clock) (keyword : String) (period : Period) :
    ElementReader (Timestamp × Timestamp) := do
  let (count, zone) ← periodArguments keyword
  if count.isSome && !period.takesCount then refuse (.periodTakesNoCount keyword)
  lift (clock.periodSpan period (count.getD 1) zone)

/-- A token that begins a value. -/
inductive Start where
  | raw (value : RawValue)
  | now
  | period (period : Period)
  | other

/-- What a token begins. -/
def startOf (t : Token) : Start :=
  match t.kind with
  | .word => .raw (.text t.value)
  | .quoted => .raw (.text t.value)
  | .number => .raw (.number t.value)
  | .keyword =>
    if t.value == "NOW" then .now
    else match Period.ofKeyword? t.value with
      | some period => .period period
      | none => .other
  | _ => .other

/-- Reads a bound of an interval. A period bounds with its start below and with its end above. -/
def bound (clock : Clock) (lower : Bool) : ElementReader (Option RawValue) := do
  let t ← nextToken
  match startOf t with
  | .raw value => return some value
  | .now => return some (.instant (← now clock))
  | .period period =>
    let (start, finish) ← span clock t.value period
    return some (.instant (if lower then start else finish))
  | .other => if t.isSymbol "*" then return none else fail (.boundToken t)

/-- Whether the text of the token that closes an interval includes the bound. -/
def closesInclusively (text : String) : Except QueryError Bool :=
  if text == "]" then .ok true
  else if text == "\x7d" then .ok false
  else internal (.rangeClose text)

/-- Reads an interval behind its opening bracket. -/
def readInterval (clock : Clock) (minInclusive : Bool) : ElementReader (Interval RawValue) := do
  let min ← bound clock true
  if !(← keywordIf "TO") then fail .rangeWithoutTo
  let max ← bound clock false
  let close ← nextToken
  return ⟨min, max, minInclusive, ← lift (closesInclusively close.value)⟩

/-- Reads a value, an interval, the present or a period. -/
def read (clock : Clock) : ElementReader Value := do
  let t ← nextToken
  match startOf t with
  | .raw value => return .raw value
  | .now => return .raw (.instant (← now clock))
  | .period period =>
    let (start, finish) ← span clock t.value period
    return .interval ⟨some (.instant start), some (.instant finish), true, false⟩
  | .other =>
    if t.isKeyword "NULL" then refuse .nullComparison
    else if t.isSymbol "[" || t.isSymbol "\x7b" then
      return .interval (← readInterval clock (t.isSymbol "["))
    else fail (.valueToken t)

end Value

end LinkQuery
