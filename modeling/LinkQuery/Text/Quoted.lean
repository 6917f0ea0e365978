/-!
# Quoted text

A quoted text stands between two equal quotes. Inside, a backslash makes the next character plain,
except that `n`, `t` and `r` after it stand for a line feed, a tab and a carriage return. Writing
uses single quotes and escapes what reading would not give back.
-/
namespace LinkQuery.Text

/-- The character that a backslash and `c` stand for. -/
def unescape (c : Char) : Char :=
  if c == 'n' then '\n' else if c == 't' then '\t' else if c == 'r' then '\r' else c

/-- How reading a quoted text ends. Lengths count the characters behind the opening quote. -/
inductive QuotedScan where
  /-- The content, the characters read with the closing quote, and what follows. -/
  | closed (content : List Char) (length : Nat) (rest : List Char)
  /-- The input ended without a closing quote. -/
  | unclosed (length : Nat)
  /-- The input ended behind a backslash that stands after `length` characters. -/
  | danglingEscape (length : Nat)

/-- Reads on behind an opening quote, with `content` read so far (reversed) in `length` characters. -/
def scanQuoted (quote : Char) (content : List Char) (length : Nat) : List Char → QuotedScan
  | [] => .unclosed length
  | c :: rest =>
    if c == quote then .closed content.reverse (length + 1) rest
    else if c == '\\' then
      match rest with
      | [] => .danglingEscape length
      | e :: rest => scanQuoted quote (unescape e :: content) (length + 2) rest
    else scanQuoted quote (c :: content) (length + 1) rest

/-- The characters that write `c` inside single quotes. -/
def quoteChar (c : Char) : List Char :=
  if c == '\'' || c == '\\' then ['\\', c]
  else if c == '\n' then ['\\', 'n']
  else if c == '\t' then ['\\', 't']
  else if c == '\r' then ['\\', 'r']
  else [c]

/-- The text in single quotes. -/
def quote (text : String) : String :=
  String.ofList ('\'' :: (text.toList.flatMap quoteChar ++ ['\'']))

end LinkQuery.Text
