import LinkQuery.Json.Basic
import LinkQuery.Text.Whole
/-!
# Reading JSON

A strict reader: nothing but white space around the value, no trailing commas, no control
characters inside texts, no leading zeros, and surrogates in pairs only.
-/
namespace LinkQuery.Json

/-- White space between tokens. -/
def isSpace (c : Char) : Bool :=
  c == ' ' || c == '\n' || c == '\t' || c == '\r'

/-- The characters behind white space. -/
def dropSpace (cs : List Char) : List Char :=
  cs.dropWhile isSpace

/-- The value of a hexadecimal digit. -/
def hexValue? (c : Char) : Option Nat :=
  if c.isDigit then some (c.toNat - '0'.toNat)
  else if 'a' ≤ c && c ≤ 'f' then some (c.toNat - 'a'.toNat + 10)
  else if 'A' ≤ c && c ≤ 'F' then some (c.toNat - 'A'.toNat + 10)
  else none

/-- Four hexadecimal digits. -/
def hexUnit? (a b c d : Char) : Option Nat := do
  let a ← hexValue? a
  let b ← hexValue? b
  let c ← hexValue? c
  let d ← hexValue? d
  some (((a * 16 + b) * 16 + c) * 16 + d)

/-- A unit that begins a pair. -/
def isHighSurrogate (n : Nat) : Bool := 0xd800 ≤ n && n < 0xdc00

/-- A unit that ends a pair. -/
def isLowSurrogate (n : Nat) : Bool := 0xdc00 ≤ n && n < 0xe000

/-- The character that a letter behind a backslash stands for. -/
def escaped? (c : Char) : Option Char :=
  if c == '"' || c == '\\' || c == '/' then some c
  else if c == 'b' then some (Char.ofNat 8)
  else if c == 'f' then some (Char.ofNat 12)
  else if c == 'n' then some '\n'
  else if c == 'r' then some '\r'
  else if c == 't' then some '\t'
  else none

/-- Reads on behind an opening quote, with `content` read so far (reversed). -/
def scanText (content : List Char) : List Char → Option (String × List Char)
  | [] => none
  | '"' :: rest => some (String.ofList content.reverse, rest)
  | '\\' :: 'u' :: a :: b :: c :: d :: rest =>
    match hexUnit? a b c d with
    | none => none
    | some unit =>
      if isLowSurrogate unit then none
      else if isHighSurrogate unit then
        match rest with
        | '\\' :: 'u' :: a :: b :: c :: d :: rest =>
          match hexUnit? a b c d with
          | none => none
          | some low =>
            if isLowSurrogate low then
              scanText (Char.ofNat (0x10000 + (unit - 0xd800) * 0x400 + (low - 0xdc00)) :: content)
                rest
            else none
        | _ => none
      else scanText (Char.ofNat unit :: content) rest
  | '\\' :: e :: rest =>
    match escaped? e with
    | none => none
    | some c => scanText (c :: content) rest
  | c :: rest => if c.toNat < 32 || c == '\\' then none else scanText (c :: content) rest

/-- Digits in front, at least one. -/
def someDigits? (cs : List Char) : Option (List Char × List Char) :=
  let digits := cs.takeWhile Char.isDigit
  if digits.isEmpty then none else some (digits, cs.dropWhile Char.isDigit)

/-- The whole part of a number: a zero alone, or digits that do not begin with one. -/
def wholePart? : List Char → Option (List Char × List Char)
  | '0' :: rest => some (['0'], rest)
  | cs => someDigits? cs

/-- The decimal places of a number with their point, if it has any. -/
def fractionPart? : List Char → Option (List Char × List Char)
  | '.' :: rest => (someDigits? rest).map fun (digits, rest) => ('.' :: digits, rest)
  | cs => some ([], cs)

/-- The exponent of a number with its mark, if it has one. -/
def exponentPart? : List Char → Option (List Char × List Char)
  | mark :: rest =>
    if mark == 'e' || mark == 'E' then
      match rest with
      | sign :: digits =>
        if sign == '+' || sign == '-' then
          (someDigits? digits).map fun (digits, rest) => (mark :: sign :: digits, rest)
        else (someDigits? rest).map fun (digits, rest) => (mark :: digits, rest)
      | [] => none
    else some ([], mark :: rest)
  | [] => some ([], [])

/-- Reads a number and keeps its text. -/
def scanNumber (cs : List Char) : Option (Json × List Char) := do
  let (sign, rest) := match cs with
    | '-' :: rest => (['-'], rest)
    | cs => ([], cs)
  let (whole, rest) ← wholePart? rest
  let (fraction, rest) ← fractionPart? rest
  let (exponent, rest) ← exponentPart? rest
  some (.number (String.ofList (sign ++ whole ++ fraction ++ exponent)), rest)

mutual

/-- Reads one value; the first argument bounds the values still to be read. -/
def scanValue : Nat → List Char → Option (Json × List Char)
  | 0, _ => none
  | n + 1, cs =>
    match dropSpace cs with
    | 'n' :: 'u' :: 'l' :: 'l' :: rest => some (.null, rest)
    | 't' :: 'r' :: 'u' :: 'e' :: rest => some (.bool true, rest)
    | 'f' :: 'a' :: 'l' :: 's' :: 'e' :: rest => some (.bool false, rest)
    | '"' :: rest => (scanText [] rest).map fun (value, rest) => (.text value, rest)
    | '[' :: rest =>
      match dropSpace rest with
      | ']' :: rest => some (.array [], rest)
      | rest => (scanItems n rest).map fun (items, rest) => (.array items, rest)
    | '{' :: rest =>
      match dropSpace rest with
      | '}' :: rest => some (.object [], rest)
      | rest => (scanMembers n rest).map fun (members, rest) => (.object members, rest)
    | rest => scanNumber rest

/-- Reads items up to the closing bracket. -/
def scanItems : Nat → List Char → Option (List Json × List Char)
  | 0, _ => none
  | n + 1, cs => do
    let (item, rest) ← scanValue n cs
    match dropSpace rest with
    | ',' :: rest => do
      let (items, rest) ← scanItems n rest
      some (item :: items, rest)
    | ']' :: rest => some ([item], rest)
    | _ => none

/-- Reads members up to the closing brace. -/
def scanMembers : Nat → List Char → Option (List (String × Json) × List Char)
  | 0, _ => none
  | n + 1, cs =>
    match dropSpace cs with
    | '"' :: rest => do
      let (name, rest) ← scanText [] rest
      match dropSpace rest with
      | ':' :: rest => do
        let (value, rest) ← scanValue n rest
        match dropSpace rest with
        | ',' :: rest => do
          let (members, rest) ← scanMembers n rest
          some ((name, value) :: members, rest)
        | '}' :: rest => some ([(name, value)], rest)
        | _ => none
      | _ => none
    | _ => none

end

/-- Reads a text that holds one value and nothing else. -/
def ofText? (text : String) : Option Json :=
  let cs := text.toList
  match scanValue (cs.length + 1) cs with
  | none => none
  | some (value, rest) => if (dropSpace rest).isEmpty then some value else none

end LinkQuery.Json
