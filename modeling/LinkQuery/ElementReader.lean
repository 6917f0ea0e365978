import LinkQuery.Element
/-!
# Reading elements in order

Readers take elements from the front of a list and give a result or the first error.

- `ElementReader.loop`: repeats a reader that takes at least one element each time.
-/
namespace LinkQuery

/-- A reader of the elements to come. -/
abbrev ElementReader := StateT (List Element) (Except QueryError)

/-- Whether a loop goes on from a state or ends with it. -/
inductive Progress (σ : Type) where
  | more (state : σ)
  | done (state : σ)

namespace ElementReader

/-- Refuses the expression as invalid. -/
def refuse {α : Type} (cause : InvalidCause) : ElementReader α :=
  fun _ => invalid cause

/-- Refuses the log as one that no grammar produces. -/
def fail {α : Type} (cause : InternalCause) : ElementReader α :=
  fun _ => internal cause

/-- A result that takes no element. -/
def lift {α : Type} (result : Except QueryError α) : ElementReader α :=
  fun elements => result.map fun a => (a, elements)

/-- The next element, which stays in place. -/
def peek? : ElementReader (Option Element) :=
  fun elements => .ok (elements.head?, elements)

/-- The next element if it is a token, which stays in place. -/
def peekToken? : ElementReader (Option Token) :=
  fun elements => .ok (match elements with
    | .token t :: _ => some t
    | _ => none, elements)

/-- Leaves the next element behind. -/
def skip : ElementReader Unit :=
  fun elements => .ok ((), elements.tail)

/-- All elements are read. -/
def atEnd : ElementReader Bool :=
  fun elements => .ok (elements.isEmpty, elements)

/-- The next element, which has to be a token. -/
def nextToken : ElementReader Token
  | .token t :: rest => .ok (t, rest)
  | .path p :: _ => internal (.pathForToken p.dotted)
  | [] => internal .endOfTokens

/-- The next element, which has to be a path. -/
def nextPath : ElementReader Path
  | .path p :: rest => .ok (p, rest)
  | .token t :: _ => internal (.tokenForPath t)
  | [] => internal .endForPath

/-- Takes the next element, which has to be this symbol. -/
def symbol (text : String) : ElementReader Unit := do
  let t ← nextToken
  if !t.isSymbol text then fail (.otherSymbol text t)

/-- Takes the next element if it is a token of some form, and gives that token. -/
def tokenIf? (accept : Token → Bool) : ElementReader (Option Token)
  | .token t :: rest => if accept t then .ok (some t, rest) else .ok (none, .token t :: rest)
  | elements => .ok (none, elements)

/-- Takes the next element if it is this symbol. -/
def symbolIf (text : String) : ElementReader Bool := do
  return (← tokenIf? (·.isSymbol text)).isSome

/-- Takes the next element if it is this keyword. -/
def keywordIf (word : String) : ElementReader Bool := do
  return (← tokenIf? (·.isKeyword word)).isSome

/-- Takes the comma between two items, unless all elements are read. -/
def separator (missing : InternalCause) : ElementReader Unit := do
  if !(← symbolIf ",") && !(← atEnd) then fail missing

/-- Repeats a reader from a state on. Each time but the last it has to take an element. -/
def loop {σ : Type} (step : σ → ElementReader (Progress σ)) (state : σ)
    (elements : List Element) : Except QueryError (σ × List Element) :=
  match step state elements with
  | .error why => .error why
  | .ok (.done state, rest) => .ok (state, rest)
  | .ok (.more state, rest) =>
    if rest.length < elements.length then loop step state rest else internal .noProgress
termination_by elements.length

/-- Repeats a reader from a state on until all elements are read. -/
def untilEnd {σ : Type} (step : σ → ElementReader σ) (state : σ) : ElementReader σ :=
  loop (fun state => do
    if ← atEnd then return .done state else return .more (← step state)) state

/-- Takes items with commas between them, up to a closing symbol. -/
def itemsUntil {α : Type} (close : String) (item : ElementReader α) : ElementReader (List α) := do
  if ← symbolIf close then return []
  let items ← loop (fun items => do
    let items := items ++ [← item]
    if ← symbolIf close then return .done items
    symbol ","
    return .more items) []
  return items

/-- Runs a reader on all elements of a log. -/
def run {α : Type} (reader : ElementReader α) (form : LogForm) (tokens : List Token) :
    Except QueryError α := do
  let elements ← Element.ofTokens form tokens
  let (result, _) ← reader elements
  return result

end ElementReader

end LinkQuery
