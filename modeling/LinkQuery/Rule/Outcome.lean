import LinkQuery.Rule.State
/-!
# Outcomes of a match

A rule matches, fails, or halts the whole match. Failing is meant to leave the state as it was;
halting leaves it where it happened.
-/
namespace LinkQuery.Rule

/-- Why a match halts. -/
inductive HaltCause where
  /-- A rule that was required did not match. -/
  | required (expected : String)
  | unclosedQuote
  | danglingEscape
  | nestingLimit (limit : Nat)
  /-- A list went on without consuming input. -/
  | stalled
deriving Repr, DecidableEq

/-- What was expected where a match halts. -/
def HaltCause.expected : HaltCause → String
  | .required expected => expected
  | .unclosedQuote => "closing quote"
  | .danglingEscape => "escaped character"
  | .nestingLimit limit => s!"at most {limit} nesting levels"
  | .stalled => "progress in a list"

/-- Where and why a match halts. -/
structure Halt where
  position : Nat
  cause : HaltCause
deriving Repr, DecidableEq

/-- The outcome of matching a rule, with the state it leaves. -/
inductive Outcome where
  | matched (s : State)
  | failed (s : State)
  | halted (why : Halt) (s : State)
deriving Repr

namespace Outcome

/-- The state that is left. -/
def state : Outcome → State
  | .matched s => s
  | .failed s => s
  | .halted _ s => s

/-- The outcome with its state changed. -/
def mapState (f : State → State) : Outcome → Outcome
  | .matched s => .matched (f s)
  | .failed s => .failed (f s)
  | .halted why s => .halted why (f s)

/-- Goes on from a match; other outcomes stay as they are. -/
def andThen (o : Outcome) (next : State → Outcome) : Outcome :=
  match o with
  | .matched s => next s
  | .failed s => .failed s
  | .halted why s => .halted why s

/-- Goes on from a failure; other outcomes stay as they are. -/
def orElse (o : Outcome) (next : State → Outcome) : Outcome :=
  match o with
  | .matched s => .matched s
  | .failed s => next s
  | .halted why s => .halted why s

end Outcome

end LinkQuery.Rule
