import LinkQuery.Decimal.Reader
import LinkQuery.QueryError
import LinkQuery.Text.Quoted
import LinkQuery.Time.TimestampText
/-!
# Literals

A value in a filter or an object is a text, a number, a truth value or a timestamp. A value as
written becomes a literal of the type of the field that it is compared with.
-/
namespace LinkQuery

open Time (Timestamp)

/-- A typed value; timestamps are in UTC. -/
inductive Literal where
  | text (value : String)
  | number (value : Decimal)
  | boolean (value : Bool)
  | timestamp (value : Timestamp)
deriving Repr

/-- A value before its type is known. -/
inductive RawValue where
  /-- A quoted text or a bare word. -/
  | text (value : String)
  /-- A number as written. -/
  | number (written : String)
  /-- A resolved instant in UTC. -/
  | instant (value : Timestamp)
deriving Repr, DecidableEq

/-- The value as text. -/
def RawValue.asText : RawValue → String
  | .text value => value
  | .number written => written
  | .instant value => value.text

namespace Literal

/-- Texts sort before numbers, numbers before truth values, and those before timestamps. -/
def rank : Literal → Nat
  | .text _ => 0
  | .number _ => 1
  | .boolean _ => 2
  | .timestamp _ => 3

/-- The order of literals: by kind, then by value. -/
def order (a b : Literal) : Ordering :=
  match a, b with
  | .text x, .text y => compare x y
  | .number x, .number y => x.order y
  | .boolean x, .boolean y => compare x y
  | .timestamp x, .timestamp y => x.order y
  | x, y => compare x.rank y.rank

/-- Equal literals have one kind and one value, however many places a number is written with. -/
def same (a b : Literal) : Bool :=
  match a, b with
  | .text x, .text y => x == y
  | .number x, .number y => x == y
  | .boolean x, .boolean y => x == y
  | .timestamp x, .timestamp y => x == y
  | _, _ => false

instance : BEq Literal := ⟨same⟩

/-- The literal as filter text. -/
def shown : Literal → String
  | .text value => Text.quote value
  | .number value => value.text
  | .boolean value => if value then "true" else "false"
  | .timestamp value => Text.quote value.text

/-- The value of a text literal, and the filter text of any other. -/
def asText : Literal → String
  | .text value => value
  | other => other.shown

/-- Reads the number that a value writes, white space around it left aside. -/
def decimal? : RawValue → Option Decimal
  | .text value => Decimal.ofText? (Text.trim value)
  | .number written => Decimal.ofText? (Text.trim written)
  | .instant _ => none

/-- The truth value of a word, in any letter case. -/
def truth? (word : String) : Option Bool :=
  let word := word.toLower
  if word == "true" || word == "1" || word == "yes" then some true
  else if word == "false" || word == "0" || word == "no" then some false
  else none

/-- The timestamp that a value stands for; numbers stand for none. -/
def timestamp? : RawValue → Option Timestamp
  | .instant value => some value
  | .text value => Timestamp.ofText? value
  | .number _ => none

/-- The literal of a scalar type for a value, if the value has that type. -/
def ofRaw? (raw : RawValue) : ScalarType → Option Literal
  | .text | .binary => some (.text raw.asText)
  | .integer => (decimal? raw).bind fun n => if n.isWhole then some (.number n.truncate) else none
  | .float => (decimal? raw).map .number
  | .boolean => (truth? raw.asText).map .boolean
  | .timestamp => (timestamp? raw).map .timestamp

/-- The literal for a value compared with a field of a scalar type. -/
def convert (raw : RawValue) (type : ScalarType) (field : String) : Except QueryError Literal :=
  match ofRaw? raw type with
  | some value => .ok value
  | none => invalid (.literalType raw.asText type field)

end Literal

end LinkQuery
