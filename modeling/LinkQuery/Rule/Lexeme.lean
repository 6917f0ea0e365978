import LinkQuery.Rule.Outcome
import LinkQuery.Text.Identifier
import LinkQuery.Text.Quoted
/-!
# Single tokens

Matching of literals, keywords, words, numbers and quoted texts. White space in front of a token is
skipped; a token that does not match leaves the state as it was.
-/
namespace LinkQuery.Rule

namespace State

/-- Consumes `length` characters and logs them as a token with the given value. -/
def take (s : State) (kind : TokenKind) (value : String) (length : Nat) : State :=
  (s.advance length).push kind value s.cursor

/-- Matches exact text. -/
def literal (s : State) (text : String) (logged : Bool) : Outcome :=
  let there := s.skipBlanks
  if there.lookingAt text false then
    if logged then .matched (there.take .symbol text text.length)
    else .matched (there.advance text.length)
  else .failed s

/-- No name character stands at an offset from the cursor. -/
def isBoundary (s : State) (offset : Nat) : Bool :=
  match s.peek? offset with
  | none => true
  | some c => !Text.isNameChar c

/-- Matches a keyword in any letter case. -/
def keyword (s : State) (word : String) : Outcome :=
  let there := s.skipBlanks
  if there.lookingAt word true && there.isBoundary word.length then
    .matched (there.take .keyword word word.length)
  else .failed s

/-- Words that are no names. -/
def reservedWords : List String :=
  ["AND", "OR", "NOT", "TO", "IS", "NULL", "WHERE"]

/-- The word is reserved, in any letter case. -/
def isReserved (word : String) : Bool :=
  reservedWords.contains word.toUpper

/-- The name at the front of the characters, empty if there is none. -/
def scanName : List Char → List Char
  | [] => []
  | c :: rest => if Text.isNameStart c then (c :: rest).takeWhile Text.isNameChar else []

/-- Matches a name that is not reserved. -/
def name (s : State) : Outcome :=
  let there := s.skipBlanks
  let found := scanName there.rest
  if found.isEmpty || isReserved (String.ofList found) then .failed s
  else .matched (there.take .word (String.ofList found) found.length)

/-- The decimal places at the front of the characters with their point, empty if there are none. -/
def scanPlaces : List Char → List Char
  | '.' :: rest =>
    let digits := rest.takeWhile Char.isDigit
    if digits.isEmpty then [] else '.' :: digits
  | _ => []

/-- The number without sign at the front of the characters, empty if there is none. -/
def scanMagnitude (cs : List Char) : List Char :=
  let digits := cs.takeWhile Char.isDigit
  if digits.isEmpty then [] else digits ++ scanPlaces (cs.drop digits.length)

/-- The number at the front of the characters, empty if there is none. -/
def scanNumber : List Char → List Char
  | '-' :: rest =>
    let magnitude := scanMagnitude rest
    if magnitude.isEmpty then [] else '-' :: magnitude
  | cs => scanMagnitude cs

/-- Matches a number that no name character follows. -/
def number (s : State) : Outcome :=
  let there := s.skipBlanks
  let found := scanNumber there.rest
  if !found.isEmpty && there.isBoundary found.length then
    .matched (there.take .number (String.ofList found) found.length)
  else .failed s

/-- A quote of either kind. -/
def isQuote (c : Char) : Bool :=
  c == '\'' || c == '"'

/-- Matches a quoted text. One that does not end halts the match. -/
def quotedText (s : State) : Outcome :=
  let there := s.skipBlanks
  match there.rest with
  | [] => .failed s
  | q :: rest =>
    if !isQuote q then .failed s
    else match Text.scanQuoted q [] 0 rest with
      | .closed content length _ =>
        .matched (there.take .quoted (String.ofList content) (length + 1))
      | .unclosed length =>
        .halted ⟨there.cursor, .unclosedQuote⟩ (there.advance (length + 1))
      | .danglingEscape length =>
        .halted ⟨there.cursor + length + 1, .danglingEscape⟩ (there.advance (length + 1))

end State

end LinkQuery.Rule
