import LinkQuery.Filter.Term
import LinkQuery.OperatorStacks
/-!
# Filters from a log

The terms of a filter are joined by connectives and negations with an explicit stack of operands
and, for each open parenthesis, a stack of operators. `AND` binds closer than `OR`, and a negation
applies to the operand right behind it.

- `Filter.build`: the tree of a log against a table.
-/
namespace LinkQuery.Filter

open ElementReader

/-- An operator that waits for its operands. -/
inductive Operator where
  | connective (c : Connective)
  | negation
deriving Repr, DecidableEq

namespace Operator

/-- How closely an operator binds. -/
def rank : Operator → Nat
  | .connective .or => 1
  | .connective .and => 2
  | .negation => 3

/-- Applies an operator to the operands on top of the stack. -/
def apply : Operator → List Query → Except QueryError (List Query)
  | .negation, operand :: rest => .ok (Query.not operand :: rest)
  | .negation, [] => internal .notWithoutOperand
  | .connective .and, right :: left :: rest => .ok (Query.and [left, right] :: rest)
  | .connective .or, right :: left :: rest => .ok (Query.or [left, right] :: rest)
  | .connective c, _ => internal (.connectiveOperands c)

end Operator

/-- The operands and operators of a filter. -/
abbrev Stacks := OperatorStacks Operator Query

namespace Stacks

/-- Applies the negations that wait for the latest operand. -/
def negated (s : Stacks) : Except QueryError Stacks :=
  s.reduce Operator.apply (· == .negation)

/-- The stacks with one more operand and its negations. -/
def operand (s : Stacks) (q : Query) : Except QueryError Stacks :=
  negated (s.push q)

/-- The stacks behind a closing parenthesis and the negations in front of the opening one. -/
def closeGroup (s : Stacks) : Except QueryError Stacks := do
  negated (← s.closed Operator.apply .unbalancedClose)

/-- The tree of the stacks behind a whole filter. -/
def tree (s : Stacks) : Except QueryError Query := do
  match ← s.finish Operator.apply .unbalancedOpen with
  | [] => internal .noOperand
  | [only] => return only
  | several => internal (.operandsLeft several.length)

end Stacks

/-! ## Terms -/

/-- Reads the path of a count between parentheses. -/
def countedPath : ElementReader Path := do
  symbol "("
  let counted ← nextPath
  symbol ")"
  return counted

/-- Reads a call behind its keyword. -/
def call (scope : Scope) (nested : Nested) (table word : String) : ElementReader Query := do
  if word == "COUNT" then
    let counted ← countedPath
    let count ← CountTest.read scope.clock
    lift (termQuery scope nested table counted (.count count))
  else if word == "DCOUNT" then
    let counted ← countedPath
    let count ← CountTest.read scope.clock
    lift (distinctCount scope.schema table counted count)
  else match PathOp.ofKeyword? word with
    | none => fail (.unexpectedKeyword word)
    | some op =>
      symbol "("
      let left ← nextPath
      symbol ","
      let right ← nextPath
      symbol ")"
      lift (pathComparison scope.schema table op left right)

/-- Reads the rest of a term behind its first element. -/
def term (scope : Scope) (nested : Nested) (table : String) : Element → ElementReader Query
  | .path start => do
    let tail ← Tail.read scope.clock
    lift (termQuery scope nested table start tail)
  | .token t =>
    if t.kind = .keyword then call scope nested table t.value else fail (.unexpectedToken t)

/-! ## Filters -/

/-- An element that is not part of a term. -/
inductive Glue where
  | connective (c : Connective)
  | negation
  | opening
  | closing
  /-- A star, which every object satisfies. -/
  | star

/-- What a token does between terms. -/
def Glue.ofToken? (t : Token) : Option Glue :=
  match t.kind with
  | .keyword =>
    if t.value == "NOT" then some .negation else (Connective.ofKeyword? t.value).map .connective
  | .symbol =>
    if t.value == "(" then some .opening
    else if t.value == ")" then some .closing
    else if t.value == "*" then some .star
    else none
  | _ => none

/-- What an element does between terms. -/
def Glue.ofElement? : Element → Option Glue
  | .token t => ofToken? t
  | .path _ => none

/-- The stacks behind an element between terms. -/
def Stacks.behind (s : Stacks) : Glue → Except QueryError Stacks
  | .connective c => s.connected Operator.apply Operator.rank (.connective c)
  | .negation => .ok (s.waiting .negation)
  | .opening => .ok s.opened
  | .closing => s.closeGroup
  | .star => s.operand .everything

/-- Reads one term or one element between terms. -/
def step (scope : Scope) (nested : Nested) (table : String) (s : Stacks) :
    ElementReader Stacks := do
  match ← peek? with
  | none => return s
  | some element =>
    skip
    match Glue.ofElement? element with
    | some glue => lift (s.behind glue)
    | none =>
      let q ← term scope nested table element
      lift (s.operand q)

/-- The tree of a log whose inner filters are built by `nested`. -/
def buildWith (scope : Scope) (nested : Nested) (table : String) (tokens : List Token) :
    Except QueryError Query := do
  let s ← run (untilEnd (step scope nested table) .empty) .filter tokens
  s.tree

/-- The tree of a log against a table. An inner filter has a shorter log than the one around it. -/
def buildIn (scope : Scope) (table : String) (tokens : List Token) : Except QueryError Query :=
  buildWith scope
    (fun target inner =>
      if inner.length < tokens.length then buildIn scope target inner else internal .noProgress)
    table tokens
termination_by tokens.length

/-- The tree of a log against a table; an empty log has none. -/
def build (scope : Scope) (table : String) (tokens : List Token) :
    Except QueryError (Option Query) :=
  if tokens.isEmpty then .ok none else (buildIn scope table tokens).map some

/-- All of the filters of a segment, built against a table. -/
def buildAll (scope : Scope) (table : String) (filters : List (List Token)) :
    Except QueryError (Option Query) :=
  allFilters (buildIn scope) table filters

end LinkQuery.Filter
