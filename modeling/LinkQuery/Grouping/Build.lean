import LinkQuery.Filter.Build
import LinkQuery.Grouping.Basic
/-!
# Groupings from a log

The paths of groupings are read against the schema, and each level gets the filter of the objects
that can reach its buckets. Levels outside of any `GROUP` belong to one set of their own.

- `Grouping.build`: the grouping sets of a log.
-/
namespace LinkQuery.Grouping

open ElementReader LinkQuery.Filter

/-! ## Paths -/

/-- The filter of a step, which has to lead somewhere to have one. -/
def itemFilter (scope : Scope) (s : ResolvedSegment) : Except QueryError (Option Query) :=
  if s.segment.filters.isEmpty then .ok none
  else match s.role.target? with
    | some target => buildAll scope target s.segment.filters
    | none => invalid (.whereOnField s.name)

/-- The step of a resolved segment. -/
def itemOf (scope : Scope) (s : ResolvedSegment) : Except QueryError GroupItem := do
  let filter ← itemFilter scope s
  let links := match s.role with
    | .group _ => scope.schema.groupLinks s.table s.name
    | _ => []
  return ⟨s.name, s.role.kind, filter, links⟩

/-- The level of a path. -/
def ofPath (scope : Scope) (base : Option Query) (table : String) (path : Path) :
    Except QueryError Grouping := do
  path.requirePlain .grouping
  let resolved ← scope.schema.resolve table path
  let through ← resolved.through.mapM (itemOf scope)
  let leaf ← itemOf scope resolved.leaf
  return ofItems through leaf (groupingFilter base (through ++ [leaf]))

/-- Refuses a level whose last step does not hold values of a type. -/
def requireLeaf (g : Grouping) (type : ScalarType) (what : String) : Except QueryError Unit :=
  if g.leaf.kind.scalarType? = some type then .ok ()
  else invalid (.leafType what type g.leaf.name)

/-! ## Modifiers -/

/-- Reads a value of a modifier; a period stands for its start. -/
def modifierValue (clock : Clock) : ElementReader RawValue := do
  match ← Value.read clock with
  | .raw value => return value
  | .interval range =>
    match range.min with
    | some start => return start
    | none => fail .periodWithoutStart

/-- What a field that holds no values is called. -/
def kindName : FieldKind → String
  | .system => "system field"
  | .group => "group field"
  | _ => "link field"

/-- The literals of the values of a modifier, texts for fields that hold no values. -/
def leafLiterals (leaf : GroupItem) (values : List RawValue) : Except QueryError (List Literal) :=
  values.mapM (literalOf leaf.kind.scalarType? leaf.name)

/-- Each value is below the next one. -/
def ascending : List Literal → Bool
  | a :: b :: rest => a.order b == .lt && ascending (b :: rest)
  | _ => true

/-- No value occurs twice. -/
def distinct : List Literal → Bool
  | [] => true
  | a :: rest => !rest.contains a && distinct rest

/-- The level with given buckets, between boundaries or one for each value. -/
def withBatch (g : Grouping) (keyword : String) (values : List RawValue) :
    Except QueryError Grouping := do
  let field := g.leaf.name
  if g.batch.isSome then invalid (.repeatedBatch field)
  if g.leaf.kind.scalarType?.isNone then
    invalid (.batchOn keyword (kindName g.leaf.kind) field)
  if values.isEmpty then invalid (.batchWithoutValues keyword field)
  let literals ← leafLiterals g.leaf values
  if keyword == "BATCH" then
    if !ascending literals then invalid (.batchOrder field)
    return { g with batch := some (.boundaries literals) }
  else
    if !distinct literals then invalid (.setsRepeat field)
    return { g with batch := some (.sets literals) }

/-- The level with its texts in one letter case. -/
def withCase (g : Grouping) (keyword : String) (values : List RawValue) (fold : CaseFold) :
    Except QueryError Grouping := do
  if !values.isEmpty then invalid (.takesNoArguments keyword)
  g.requireLeaf .text keyword
  return { g with caseFold := some fold }

/-- The level with a modifier. -/
def modified (g : Grouping) (keyword : String) (values : List RawValue) :
    Except QueryError Grouping :=
  match keyword with
  | "BATCH" => g.withBatch keyword values
  | "SETS" => g.withBatch keyword values
  | "EXCLUDE" => do
    return { g with excluded := g.excluded ++ (← leafLiterals g.leaf values) }
  | "INCLUDE" => do
    return { g with included := g.included ++ (← leafLiterals g.leaf values) }
  | "UPPER" => g.withCase keyword values .upper
  | "LOWER" => g.withCase keyword values .lower
  | other => internal (.groupingModifier other)

/-- Reads the modifiers behind a path. -/
def modifiers (clock : Clock) (g : Grouping) : ElementReader Grouping :=
  loop (fun g => do
    match ← tokenIf? (·.kind == .keyword) with
    | none => return .done g
    | some keyword =>
      symbol "("
      let values ← itemsUntil ")" (modifierValue clock)
      return .more (← lift (g.modified keyword.value values))) g

/-! ## Items -/

/-- Reads a grouping by units of time behind its keyword. -/
def truncation (scope : Scope) (base : Option Query) (table : String) : ElementReader Grouping := do
  symbol "("
  let g ← lift (ofPath scope base table (← nextPath))
  lift (g.requireLeaf .timestamp "TRUNCATE")
  symbol ","
  let unit ← lift (Value.unitOf (← nextToken))
  let zone ← if ← symbolIf "," then do
      let name ← nextToken
      let _ ← lift (Settings.zoneNamed name.value)
      pure name.value
    else pure scope.clock.zoneName
  symbol ")"
  return { g with truncate := some ⟨unit, zone⟩ }

/-- Reads words up to a closing parenthesis. -/
def wordsToClose : ElementReader (List String) :=
  loop (fun words => do
    if ← symbolIf ")" then return .done words
    else return .more (words ++ [(← nextToken).value])) []

/-- Reads a grouping by the words of a text behind its keyword. -/
def termsOf (scope : Scope) (base : Option Query) (table : String) : ElementReader Grouping := do
  symbol "("
  let g ← lift (ofPath scope base table (← nextPath))
  lift (g.requireLeaf .text "TERMS")
  let words ← if ← symbolIf "," then do
      symbol "("
      wordsToClose
    else pure []
  symbol ")"
  return { g with terms := true, stopWords := words }

/-- Reads an item that no selection encloses. -/
def baseItem (scope : Scope) (base : Option Query) (table : String) : ElementReader Grouping := do
  match ← peek? with
  | none => fail .noGroupingItem
  | some (.path p) =>
    skip
    modifiers scope.clock (← lift (ofPath scope base table p))
  | some (.token t) =>
    skip
    match t.value with
    | "TRUNCATE" => truncation scope base table
    | "TERMS" => termsOf scope base table
    | other => fail (.groupingKeyword other)

/-- Reads the count of a selection behind its keyword. -/
def selectionCount (keyword : String) : ElementReader Nat := do
  symbol "("
  let written ← nextToken
  match Text.unsigned? 64 written.value with
  | none => refuse (.selectionCount keyword written.value)
  | some 0 => refuse (.zeroSelection keyword)
  | some count =>
    symbol ","
    return count

/-- Reads the selections that enclose an item, the innermost first in the result. -/
def selections : ElementReader (List Selection) :=
  loop (fun found => do
    match ← peekToken? with
    | none => return .done found
    | some t =>
      match SelectionKind.ofKeyword? t.value with
      | none => return .done found
      | some kind =>
        skip
        return .more (⟨kind, ← selectionCount t.value⟩ :: found)) []

/-- Reads the ends of the selections around an item, of which there may be one. -/
def closeSelections (g : Grouping) : List Selection → ElementReader Grouping
  | [] => return g
  | selection :: outer => do
    symbol ")"
    if g.selection.isSome then refuse .repeatedSelection
    closeSelections { g with selection := some selection } outer

/-- Reads an item. -/
def item (scope : Scope) (base : Option Query) (table : String) : ElementReader Grouping := do
  let enclosing ← selections
  let g ← baseItem scope base table
  closeSelections g enclosing

/-! ## Grouping sets -/

/-- The sets so far, with the place of the set of levels outside of any `GROUP`. -/
structure Sets where
  sets : List GroupingSet
  bare : Option Nat

/-- The sets with one more level outside of any `GROUP`. -/
def Sets.addBare (s : Sets) (level : Grouping) : Sets :=
  match s.bare with
  | none => ⟨s.sets ++ [⟨[level]⟩], some s.sets.length⟩
  | some place => { s with sets := s.sets.modify place fun set => ⟨set.levels ++ [level]⟩ }

/-- Reads the levels of a `GROUP` behind its keyword. -/
def groupLevels (item : ElementReader Grouping) : ElementReader (List Grouping) := do
  symbol "("
  let levels ← loop (fun levels => do
    let levels := levels ++ [← item]
    if ← symbolIf "," then return .more levels else return .done levels) []
  symbol ")"
  return levels

/-- Reads a set or a level and the comma behind it. -/
def setOrLevel (item : ElementReader Grouping) (s : Sets) : ElementReader Sets := do
  let s ← if ← keywordIf "GROUP" then do
      pure { s with sets := s.sets ++ [⟨← groupLevels item⟩] }
    else do
      pure (s.addBare (← item))
  separator .groupingSeparator
  return s

/-- The grouping sets of a log; the base filter holds for every level. -/
def build (scope : Scope) (base : Option Query) (table : String) (tokens : List Token) :
    Except QueryError (List GroupingSet) := do
  let s ← run (untilEnd (setOrLevel (item scope base table)) ⟨[], none⟩) .list tokens
  return s.sets

end LinkQuery.Grouping
