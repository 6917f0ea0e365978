import LinkQuery.Language.Words
import LinkQuery.Path.Reading
import LinkQuery.Time.Period
/-!
# Elements

A log as a list of elements: its paths, and the tokens between them. In a filter, terms that stand
side by side are joined by `AND`, a comma outside a call is `OR`, and tests for null are single
markers; in a list, commas separate.
-/
namespace LinkQuery

/-- A path, or a token outside of paths. -/
inductive Element where
  | token (t : Token)
  | path (p : Path)
deriving Repr, DecidableEq

/-- What a log is read as. -/
inductive LogForm where
  /-- A filter, with connectives between its terms. -/
  | filter
  /-- A list, with commas between its items. -/
  | list
deriving Repr, DecidableEq

namespace Element

/-- Where the element stands in the input. -/
def position : Element → Nat
  | .token t => t.position
  | .path p => p.first.position

/-- The keywords whose parentheses hold arguments. -/
def isCallWord (word : String) : Bool :=
  word == "COUNT" || word == "DCOUNT" || word == "NOW" || Language.pathOperatorWords.contains word
    || Language.periodWords.contains word

/-- A parenthesis behind these elements, the last one first, opens a call. -/
def opensCall : List Element → Bool
  | .token t :: _ => t.kind == .keyword && isCallWord t.value
  | _ => false

/-- Reads what follows `IS` as a test for null. -/
def nullTest? : List Token → Option (Marker × List Token)
  | a :: rest =>
    if a.isKeyword "NULL" then some (.isNull, rest)
    else if a.isKeyword "NOT" then
      match rest with
      | b :: rest => if b.isKeyword "NULL" then some (.isNotNull, rest) else none
      | [] => none
    else none
  | [] => none

theorem nullTest?_length {tokens rest : List Token} {m : Marker}
    (h : nullTest? tokens = some (m, rest)) : rest.length < tokens.length := by
  unfold nullTest? at h
  grind

/-- The parentheses that are open behind a token, true for those of a call. -/
def openAfter (calls : List Bool) (done : List Element) (t : Token) : List Bool :=
  if t.isSymbol "(" then opensCall done :: calls
  else if t.isSymbol ")" then calls.tail
  else calls

/-- A comparison with null is a test for null. -/
def addNull (done : List Element) (t : Token) : List Element :=
  match done with
  | .token e :: before =>
    if e.isSymbol "=" then .token (.ofMarker .isNull t.position) :: before else .token t :: done
  | _ => .token t :: done

/-- The elements, the last one first, with one more token of a filter. -/
def addToFilter (calls : List Bool) (done : List Element) (t : Token) : List Element :=
  if t.isMarker .impliedAnd then .token (.ofKeyword "AND" t.position) :: done
  else if t.isSymbol "," && !calls.headD false then .token (.ofKeyword "OR" t.position) :: done
  else if t.isKeyword "NULL" then addNull done t
  else .token t :: done

/-- The elements, the last one first, with one more token of a list. -/
def addToList (done : List Element) (t : Token) : List Element :=
  if t.isMarker .impliedAnd then done else .token t :: done

/-- The elements, the last one first, with one more token. -/
def add (form : LogForm) (calls : List Bool) (done : List Element) (t : Token) : List Element :=
  match form with
  | .filter => addToFilter calls done t
  | .list => addToList done t

/-- Reads elements behind those in `done`, which are in reverse order. -/
def collect (form : LogForm) (calls : List Bool) (done : List Element) (tokens : List Token) :
    Except QueryError (List Element) :=
  match tokens with
  | [] => .ok done.reverse
  | t :: rest =>
    if t.isMarker .pathStart then
      match _h : Path.read rest with
      | .error why => .error why
      | .ok (p, after) => collect form calls (.path p :: done) after
    else if form = .filter && t.isKeyword "IS" then
      match _h : nullTest? rest with
      | none => internal .isWithoutNull
      | some (m, after) => collect form calls (.token (.ofMarker m t.position) :: done) after
    else collect form (openAfter calls done t) (add form calls done t) rest
termination_by tokens.length
decreasing_by
  · exact Nat.lt_succ_of_lt (Path.read_length _h)
  · exact Nat.lt_succ_of_lt (nullTest?_length _h)
  · simp

/-- The elements of a log. -/
def ofTokens (form : LogForm) (tokens : List Token) : Except QueryError (List Element) :=
  collect form [] [] tokens

end Element

end LinkQuery
