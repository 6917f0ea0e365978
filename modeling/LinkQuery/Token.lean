/-!
# Tokens

The log of a match is a list of tokens: words, keywords, numbers, quoted texts and symbols of the
input, and markers that stand for structure and take no place in it.
-/
namespace LinkQuery

/-- Structure that the log records between tokens of the input. -/
inductive Marker where
  | pathStart
  | pathEnd
  | whereStart
  | whereEnd
  | quantStart
  | quantEnd
  | transitive
  | impliedAnd
  | childrenStart
  | childrenEnd
  | isNull
  | isNotNull
deriving Repr, DecidableEq

namespace Marker

/-- All markers. -/
def all : List Marker :=
  [.pathStart, .pathEnd, .whereStart, .whereEnd, .quantStart, .quantEnd, .transitive, .impliedAnd,
   .childrenStart, .childrenEnd, .isNull, .isNotNull]

/-- The name of a marker. -/
def name : Marker → String
  | .pathStart => "PathStart"
  | .pathEnd => "PathEnd"
  | .whereStart => "WhereStart"
  | .whereEnd => "WhereEnd"
  | .quantStart => "QuantStart"
  | .quantEnd => "QuantEnd"
  | .transitive => "Transitive"
  | .impliedAnd => "ImpliedAnd"
  | .childrenStart => "ChildrenStart"
  | .childrenEnd => "ChildrenEnd"
  | .isNull => "IsNull"
  | .isNotNull => "IsNotNull"

/-- The marker with a name. -/
def ofName? (name : String) : Option Marker :=
  all.find? (·.name == name)

end Marker

/-- The classes of tokens. -/
inductive TokenKind where
  /-- A name or a bare value. -/
  | word
  /-- A reserved word, kept in upper case. -/
  | keyword
  | number
  /-- A quoted text, kept without quotes and escapes. -/
  | quoted
  | symbol
  | marker (m : Marker)
deriving Repr, DecidableEq

/-- An entry of the log; positions count characters from 0. -/
structure Token where
  kind : TokenKind
  value : String
  position : Nat
deriving Repr, DecidableEq

namespace Token

/-- A marker at a position. -/
def ofMarker (m : Marker) (position : Nat) : Token :=
  ⟨.marker m, "", position⟩

/-- A keyword at a position. -/
def ofKeyword (word : String) (position : Nat) : Token :=
  ⟨.keyword, word, position⟩

/-- The token is this keyword. -/
def isKeyword (t : Token) (word : String) : Bool :=
  t.kind == .keyword && t.value == word

/-- The token is this symbol. -/
def isSymbol (t : Token) (text : String) : Bool :=
  t.kind == .symbol && t.value == text

/-- The token is this marker. -/
def isMarker (t : Token) (m : Marker) : Bool :=
  t.kind == .marker m

/-- The token can stand for a value: a word, a number or a quoted text. -/
def isLiteral (t : Token) : Bool :=
  t.kind == .word || t.kind == .number || t.kind == .quoted

/-- The token is a name written as a word or in quotes. -/
def isName (t : Token) : Bool :=
  t.kind == .word || t.kind == .quoted

/-- The token as it is shown in messages. -/
def shown (t : Token) : String :=
  match t.kind with
  | .marker m => "<" ++ m.name ++ ">"
  | .quoted => "'" ++ t.value ++ "'"
  | _ => t.value

end Token

end LinkQuery
