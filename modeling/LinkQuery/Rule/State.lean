import LinkQuery.Text.Blank
import LinkQuery.Token
/-!
# The state of a match

Matching moves a cursor over the input and logs tokens. A mark remembers cursor and log, so that an
alternative that fails can be undone. The state also counts how deeply nonterminals are entered.
-/
namespace LinkQuery

namespace Rule

/-- The state of a match: `rest` is the input from the cursor on. -/
structure State where
  input : Array Char
  rest : List Char
  cursor : Nat
  log : Array Token
  depth : Nat
  maxDepth : Nat
  /-- A nonterminal was refused because of the nesting limit. -/
  tooDeep : Bool
deriving Repr

/-- A place to come back to. -/
structure Mark where
  rest : List Char
  cursor : Nat
  logged : Nat
deriving Repr

namespace State

/-- The state at the start of an input. -/
def start (input : List Char) (maxDepth : Nat) : State :=
  ⟨input.toArray, input, 0, #[], 0, maxDepth, false⟩

/-- The characters that are not consumed yet, in number. -/
def remaining (s : State) : Nat :=
  s.input.size - s.cursor

/-- The input is consumed. -/
def atEnd (s : State) : Bool :=
  s.rest.isEmpty

/-- The character some places behind the cursor. -/
def peek? (s : State) (offset : Nat) : Option Char :=
  s.rest[offset]?

/-- The character at the cursor. -/
def current? (s : State) : Option Char :=
  s.rest.head?

/-- Moves the cursor, at most to the end of the input. -/
def advance (s : State) (count : Nat) : State :=
  { s with rest := s.rest.drop count, cursor := s.cursor + (s.rest.take count).length }

/-- Moves the cursor behind white space. -/
def skipBlanks (s : State) : State :=
  s.advance (s.rest.takeWhile Text.isBlank).length

/-- Equality of characters, ASCII letters in either case if `ignoreCase` holds. -/
def sameChar (ignoreCase : Bool) (c expected : Char) : Bool :=
  c == expected || (ignoreCase && c.toLower == expected.toLower)

/-- The characters begin with the expected ones. -/
def startsWith (ignoreCase : Bool) : List Char → List Char → Bool
  | _, [] => true
  | [], _ :: _ => false
  | c :: rest, expected :: more => sameChar ignoreCase c expected && startsWith ignoreCase rest more

/-- The text stands at the cursor. -/
def lookingAt (s : State) (text : String) (ignoreCase : Bool) : Bool :=
  startsWith ignoreCase s.rest text.toList

/-- The input between two positions. -/
def slice (s : State) (start finish : Nat) : String :=
  String.ofList (s.input.extract start finish).toList

/-- Logs a token. -/
def push (s : State) (kind : TokenKind) (value : String) (position : Nat) : State :=
  { s with log := s.log.push ⟨kind, value, position⟩ }

/-- Logs a marker at the cursor. -/
def pushMarker (s : State) (m : Marker) : State :=
  { s with log := s.log.push (.ofMarker m s.cursor) }

/-- The place to come back to. -/
def mark (s : State) : Mark :=
  ⟨s.rest, s.cursor, s.log.size⟩

/-- Drops the tokens logged since a mark and keeps the cursor. -/
def discardSince (s : State) (m : Mark) : State :=
  { s with log := s.log.shrink m.logged }

/-- Goes back to a mark. -/
def reset (s : State) (m : Mark) : State :=
  { s.discardSince m with rest := m.rest, cursor := m.cursor }

/-- Enters a nonterminal, unless the nesting limit is reached. -/
def enter (s : State) : Bool × State :=
  if s.maxDepth ≤ s.depth then (false, { s with tooDeep := true })
  else (true, { s with depth := s.depth + 1 })

/-- Leaves a nonterminal. -/
def leave (s : State) : State :=
  { s with depth := s.depth - 1 }

end State

end Rule

end LinkQuery
