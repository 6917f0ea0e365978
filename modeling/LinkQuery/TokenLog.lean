import LinkQuery.Language.Kind
import LinkQuery.Settings
/-!
# Token logs

The log of tokens of an expression: its text has to match the rule of its kind from the first to
the last character that is not white space, within the limits on length and nesting. A blank text
has an empty log.
-/
namespace LinkQuery.TokenLog

open Rule (Halt State)

/-- An open block of a log: it is a path or a filter, and the depth in front of it. -/
structure Frame where
  isPath : Bool
  outside : Nat
deriving Repr

/-- The depth while a log is read. -/
structure Depth where
  frames : List Frame
  current : Nat
  deepest : Nat
deriving Repr

namespace Depth

/-- The depth in front of a log. -/
def zero : Depth := ⟨[], 0, 0⟩

/-- The depth inside a block that opens. -/
def opened (d : Depth) (isPath : Bool) : Depth :=
  { d with frames := ⟨isPath, d.current⟩ :: d.frames }

/-- The depth behind a block that closes. -/
def closed (d : Depth) : Depth :=
  match d.frames with
  | [] => d
  | frame :: frames => { d with frames := frames, current := frame.outside }

/-- One level more. -/
def deeper (d : Depth) : Depth :=
  { d with current := d.current + 1 }

/-- The innermost open block is a path. -/
def inPath (d : Depth) : Bool :=
  match d.frames with
  | [] => false
  | frame :: _ => frame.isPath

/-- The depth at a token: segments of paths and filters inside them are levels. -/
def reaching (d : Depth) (t : Token) : Depth :=
  match t.kind with
  | .marker .pathStart => d.opened true
  | .marker .whereStart => (d.opened false).deeper
  | .marker .pathEnd => d.closed
  | .marker .whereEnd => d.closed
  | .word => if d.inPath then d.deeper else d
  | _ => d

/-- The depth behind a token, the deepest level kept. -/
def step (d : Depth) (t : Token) : Depth :=
  let d := d.reaching t
  { d with deepest := max d.deepest d.current }

end Depth

/-- The longest chain of path segments and nested filters in a log. -/
def pathDepth (tokens : List Token) : Nat :=
  (tokens.foldl Depth.step .zero).deepest

/-- The error for a match that halts. -/
def haltError (input : List Char) (halt : Halt) : QueryError :=
  match halt.cause with
  | .nestingLimit limit => .invalid (.tooDeep limit)
  | cause => .mismatchAt input halt.position (.expected cause.expected)

/-- The log of a match that reaches the end of the input. -/
def finish (input : List Char) (maxNesting : Nat) (s : State) : Except QueryError (List Token) :=
  let s := s.skipBlanks
  if s.atEnd then
    let tokens := s.log.toList
    if pathDepth tokens > maxNesting then invalid (.tooDeep maxNesting) else .ok tokens
  else .error (.mismatchAt input s.cursor .leftover)

/-- The log of a text that is not blank. -/
def scan (kind : ExpressionKind) (maxNesting : Nat) (input : List Char) :
    Except QueryError (List Token) :=
  let start := State.start input maxNesting
  match Rule.matchAt Language.Part.body kind.rule start with
  | .halted why _ => .error (haltError input why)
  | .failed _ =>
    .error (.mismatchAt input start.skipBlanks.cursor (.expected kind.description))
  | .matched s => finish input maxNesting s

/-- The log of an expression of a kind. -/
def ofText (settings : Settings) (kind : ExpressionKind) (input : String) :
    Except QueryError (List Token) := do
  settings.checkLength input
  if Text.isBlankText input then return []
  scan kind settings.maxNesting input.toList

end LinkQuery.TokenLog
