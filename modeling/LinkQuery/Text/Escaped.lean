import LinkQuery.Text.Unprintable
/-!
# Escaped text

A text between double quotes in which every character is visible: quotes and backslashes take a
backslash, common controls a letter, and other characters without a form of their own their code
point in hexadecimal.
-/
namespace LinkQuery.Text

/-- The lower-case hexadecimal digits of a number. -/
def hexDigits (n : Nat) : String :=
  String.ofList (Nat.toDigits 16 n)

/-- The escaped form of one character. -/
def escapeChar (c : Char) : String :=
  if c == '"' then "\\\""
  else if c == '\\' then "\\\\"
  else if c == '\n' then "\\n"
  else if c == '\r' then "\\r"
  else if c == '\t' then "\\t"
  else if c.toNat == 0 then "\\0"
  else if unprintableRanges.has c || graphemeExtendRanges.has c then
    "\\u\x7b" ++ hexDigits c.toNat ++ "\x7d"
  else String.singleton c

/-- The text in double quotes with every character visible. -/
def escaped (text : String) : String :=
  "\"" ++ String.join (text.toList.map escapeChar) ++ "\""

end LinkQuery.Text
