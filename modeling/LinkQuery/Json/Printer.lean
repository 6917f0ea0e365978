import LinkQuery.Json.Basic
/-!
# Writing JSON

A value is written with the members of each object sorted by name, either without white space or
on indented lines. Characters outside ASCII are written as they are.
-/
namespace LinkQuery.Json

/-- The digit of a hexadecimal number. -/
def hexDigit (n : Nat) : Char :=
  Nat.digitChar n

/-- The characters that write one character inside a JSON text. -/
def escapeChar (c : Char) : List Char :=
  if c == '"' then ['\\', '"']
  else if c == '\\' then ['\\', '\\']
  else if c == '\n' then ['\\', 'n']
  else if c == '\r' then ['\\', 'r']
  else if c == '\t' then ['\\', 't']
  else if c.toNat = 8 then ['\\', 'b']
  else if c.toNat = 12 then ['\\', 'f']
  else if c.toNat < 32 then
    ['\\', 'u', '0', '0', hexDigit (c.toNat / 16), hexDigit (c.toNat % 16)]
  else [c]

/-- A text in double quotes. -/
def quoted (text : String) : String :=
  String.ofList ('"' :: (text.toList.flatMap escapeChar ++ ['"']))

/-- Members sorted by name. -/
def sortedMembers {α : Type} (members : List (String × α)) : List (String × α) :=
  members.mergeSort fun a b => decide (a.1 ≤ b.1)

mutual

/-- The value without white space. -/
def compact : Json → String
  | .null => "null"
  | .bool b => if b then "true" else "false"
  | .number written => written
  | .text value => quoted value
  | .array items => "[" ++ ",".intercalate (compactItems items) ++ "]"
  | .object members =>
    "\x7b" ++ ",".intercalate ((sortedMembers (compactMembers members)).map fun m =>
      quoted m.1 ++ ":" ++ m.2) ++ "\x7d"

/-- The texts of the items. -/
def compactItems : List Json → List String
  | [] => []
  | item :: rest => compact item :: compactItems rest

/-- The members with the texts of their values. -/
def compactMembers : List (String × Json) → List (String × String)
  | [] => []
  | (name, value) :: rest => (name, compact value) :: compactMembers rest

end

/-- A line break and two blanks for each level. -/
def lineBreak (level : Nat) : String :=
  "\n" ++ String.ofList (List.replicate (2 * level) ' ')

/-- Parts between brackets, each on a line of its own; no parts stay on the line. -/
def block (level : Nat) (opening closing : String) (parts : List String) : String :=
  if parts.isEmpty then opening ++ closing
  else
    opening ++ lineBreak (level + 1) ++ ("," ++ lineBreak (level + 1)).intercalate parts
      ++ lineBreak level ++ closing

mutual

/-- The value on lines that are indented by two blanks for each level. -/
def pretty (level : Nat) : Json → String
  | .null => "null"
  | .bool b => if b then "true" else "false"
  | .number written => written
  | .text value => quoted value
  | .array items => block level "[" "]" (prettyItems (level + 1) items)
  | .object members =>
    block level "\x7b" "\x7d" ((sortedMembers (prettyMembers (level + 1) members)).map fun m =>
      quoted m.1 ++ ": " ++ m.2)

/-- The indented texts of the items. -/
def prettyItems (level : Nat) : List Json → List String
  | [] => []
  | item :: rest => pretty level item :: prettyItems level rest

/-- The members with the indented texts of their values. -/
def prettyMembers (level : Nat) : List (String × Json) → List (String × String)
  | [] => []
  | (name, value) :: rest => (name, pretty level value) :: prettyMembers level rest

end

end LinkQuery.Json
