import LinkQuery.Json.Printer
import LinkQuery.Tool.Check
/-!
# Commands

The command line of the tool: its arguments, where it takes a schema from, and what it prints.

- `Command.ofArguments?`: the command that arguments stand for.
- `Command.run`: the output of a command.
-/
namespace LinkQuery

/-- The arguments of a check, some of which may not be given. -/
structure CheckArguments where
  expression : Option String
  kind : Option String
  table : Option String
  schemaFile : Option String
  timeZone : Option String
  isPretty : Bool
  grammarOnly : Bool
deriving Repr, Inhabited

/-- What the tool is asked to do. -/
inductive Command where
  | check (expression : String) (arguments : CheckArguments)
  | overview
  | page (topic : String)
deriving Repr

/-- An option of a check. -/
inductive CheckOption where
  | kind | table | schemaFile | timeZone | pretty | grammarOnly
deriving Repr, DecidableEq

namespace CheckOption

/-- All options. -/
def all : List CheckOption :=
  [.kind, .table, .schemaFile, .timeZone, .pretty, .grammarOnly]

/-- The name of an option behind two hyphens. -/
def longName : CheckOption → String
  | .kind => "kind"
  | .table => "table"
  | .schemaFile => "schema"
  | .timeZone => "time-zone"
  | .pretty => "pretty"
  | .grammarOnly => "syntax-only"

/-- The letter of an option behind one hyphen. -/
def letter? : CheckOption → Option Char
  | .kind => some 'k'
  | .table => some 't'
  | .schemaFile => some 's'
  | .pretty => some 'p'
  | _ => none

/-- The option takes a value. -/
def takesValue : CheckOption → Bool
  | .pretty | .grammarOnly => false
  | _ => true

end CheckOption

namespace CheckArguments

/-- No arguments. -/
def empty : CheckArguments := ⟨none, none, none, none, none, false, false⟩

/-- A value that is given for the first time. -/
def once {α : Type} (old : Option α) (value : α) : Option (Option α) :=
  if old.isSome then none else some (some value)

/-- The arguments with the value of an option. -/
def withValue? (a : CheckArguments) (option : CheckOption) (value : String) :
    Option CheckArguments :=
  match option with
  | .kind => (once a.kind value).map ({ a with kind := · })
  | .table => (once a.table value).map ({ a with table := · })
  | .schemaFile => (once a.schemaFile value).map ({ a with schemaFile := · })
  | .timeZone => (once a.timeZone value).map ({ a with timeZone := · })
  | _ => none

/-- The arguments with an option that takes no value. -/
def withFlag? (a : CheckArguments) (option : CheckOption) : Option CheckArguments :=
  match option with
  | .pretty => if a.isPretty then none else some { a with isPretty := true }
  | .grammarOnly => if a.grammarOnly then none else some { a with grammarOnly := true }
  | _ => none

/-- The arguments with the expression. -/
def withExpression? (a : CheckArguments) (value : String) : Option CheckArguments :=
  (once a.expression value).map ({ a with expression := · })

/-- A word on the command line that is no value. -/
inductive Word where
  /-- The words behind this one are no options. -/
  | endOfOptions
  /-- An option with the value that is joined to it. -/
  | long (name : String) (value : Option String)
  | letters (cs : List Char)
  | plain (value : String)

/-- What a word is. -/
def wordOf (text : String) : Word :=
  match text.toList with
  | ['-', '-'] => .endOfOptions
  | '-' :: '-' :: cs =>
    match cs.dropWhile (· != '=') with
    | [] => .long (String.ofList cs) none
    | _ :: value => .long (String.ofList (cs.takeWhile (· != '='))) (some (String.ofList value))
  | '-' :: c :: cs => .letters (c :: cs)
  | _ => .plain text

/-- The value that follows an option as a word of its own. -/
def nextValue? : List String → Option (String × List String)
  | [] => none
  | word :: rest =>
    match wordOf word with
    | .plain value => some (value, rest)
    | _ => none

/-- Adds an option whose value is joined to it or follows. -/
def withOption? (a : CheckArguments) (option : CheckOption) (joined : Option String)
    (rest : List String) : Option (CheckArguments × List String) :=
  if option.takesValue then
    match joined with
    | some value => (a.withValue? option value).map (·, rest)
    | none => (nextValue? rest).bind fun (value, rest) => (a.withValue? option value).map (·, rest)
  else if joined.isSome then none
  else (a.withFlag? option).map (·, rest)

/-- The text behind a letter, without an equals sign in front. -/
def joinedValue? : List Char → Option String
  | [] => none
  | '=' :: cs => some (String.ofList cs)
  | cs => some (String.ofList cs)

/-- Adds the options of letters behind one hyphen. -/
def withLetters? (a : CheckArguments) (rest : List String) :
    List Char → Option (CheckArguments × List String)
  | [] => some (a, rest)
  | c :: cs =>
    match CheckOption.all.find? (·.letter? == some c) with
    | none => none
    | some option =>
      if option.takesValue then a.withOption? option (joinedValue? cs) rest
      else (a.withFlag? option).bind fun a => a.withLetters? rest cs

/-- Adds a word and its value, and gives the words that are left. -/
def withWord? (a : CheckArguments) (word : String) (rest : List String) :
    Option (CheckArguments × List String) :=
  match wordOf word with
  | .endOfOptions => none
  | .long name joined =>
    (CheckOption.all.find? (·.longName == name)).bind (a.withOption? · joined rest)
  | .letters cs => a.withLetters? rest cs
  | .plain value => (a.withExpression? value).map (·, rest)

/-- Adds words; `budget` is at least their number. -/
def withWords? (budget : Nat) (a : CheckArguments) (words : List String) : Option CheckArguments :=
  match budget, words with
  | _, [] => some a
  | 0, _ => none
  | budget + 1, word :: rest =>
    if word == "--" then rest.foldlM withExpression? a
    else (a.withWord? word rest).bind fun (a, rest) => withWords? budget a rest

/-- The arguments that words stand for. -/
def ofWords? (words : List String) : Option CheckArguments :=
  withWords? words.length empty words

end CheckArguments

/-- Where a command takes its schema from. -/
inductive SchemaSource where
  | nowhere
  | standardInput
  | file (path : String)
deriving Repr, DecidableEq

/-- What a command prints, and its exit code. -/
structure CommandOutput where
  output : String
  errors : String
  code : Nat
deriving Repr, DecidableEq

namespace CommandOutput

/-- The output of a success. -/
def success (text : String) : CommandOutput := ⟨text, "", 0⟩

/-- The output of a failure. -/
def failure (why : ToolError) : CommandOutput := ⟨"", why.message ++ "\n", 1⟩

/-- The output of a result. -/
def ofResult : Except ToolError String → CommandOutput
  | .ok text => success text
  | .error why => failure why

end CommandOutput

namespace Command

/-- The command that arguments stand for. -/
def ofArguments? : List String → Option Command
  | ["docs"] => some .overview
  | ["doc", topic] => some (.page topic)
  | "check" :: words => do
    let arguments ← CheckArguments.ofWords? words
    return .check (← arguments.expression) arguments
  | _ => none

/-- Where the command takes its schema from. -/
def source : Command → SchemaSource
  | .check _ arguments =>
    match arguments.schemaFile with
    | some path => .file path
    | none => if arguments.grammarOnly then .nowhere else .standardInput
  | _ => .nowhere

/-- The text that a check prints. -/
def resultText (isPretty : Bool) : Option Json → String
  | none => "Syntax is valid\n"
  | some output => (if isPretty then output.pretty 0 else output.compact) ++ "\n"

/-- The result of a check with the schema document, if there is one. -/
def checked (now : Time.Timestamp) (expression : String) (arguments : CheckArguments)
    (schema : Except ToolError (Option String)) : Except ToolError String := do
  let schema ← schema
  let kind ← ExpressionKind.ofName (arguments.kind.getD ExpressionKind.filter.name)
  let request : CheckRequest :=
    ⟨kind, expression, arguments.table.getD "", schema, arguments.timeZone, arguments.grammarOnly⟩
  let result ← request.run now
  return resultText arguments.isPretty result

/-- The output of a command, given the schema document from its source. -/
def run (now : Time.Timestamp) (schema : Except ToolError (Option String)) :
    Command → CommandOutput
  | .check expression arguments => .ofResult (checked now expression arguments schema)
  | .overview => .success Manual.overview
  | .page topic => .ofResult (Manual.topicText topic)

end Command

end LinkQuery
