import LinkQuery.Text.Escaped
import LinkQuery.Token
/-!
# Grammar rules

A rule describes a piece of text: literals and token classes, and their combination by choice,
sequence, repetition and look-ahead. Nonterminals stand for the rules of a grammar, which may refer
to themselves.

- `Rule.shown`: the text of a rule, for inspection.
-/
namespace LinkQuery

/-- A rule over the nonterminals `ν`. -/
inductive Rule (ν : Type) where
  /-- Exact text, logged as a symbol if `logged` holds. -/
  | literal (text : String) (logged : Bool)
  /-- A reserved word in any letter case that no name character follows. -/
  | keyword (word : String)
  /-- A name that is not reserved. -/
  | word
  /-- Digits with an optional minus sign and optional decimal places. -/
  | number
  /-- A text in single or double quotes. -/
  | quoted
  /-- The first alternative that matches. -/
  | choice (alternatives : List (Rule ν))
  /-- The alternative that reaches farthest, the first of them if several do. -/
  | longest (alternatives : List (Rule ν))
  | sequence (rules : List (Rule ν))
  /-- One or more items with separators between them. -/
  | list (item separator : Rule ν)
  | optional (rule : Rule ν)
  /-- The rule as often as it matches and consumes input. -/
  | many (rule : Rule ν)
  /-- A look ahead that consumes nothing. -/
  | peek (rule : Rule ν) (negate : Bool)
  /-- A rule that has to match once it is reached. -/
  | required (rule : Rule ν) (expected : String)
  /-- A rule whose tokens are not logged. -/
  | silent (rule : Rule ν)
  /-- A marker in the log. -/
  | action (m : Marker)
  | nonterminal (name : ν)

namespace Rule

variable {ν μ : Type}

/-- A literal that is logged. -/
def symbol (text : String) : Rule ν := .literal text true

/-- A literal that is not logged. -/
def hidden (text : String) : Rule ν := .literal text false

/-- One of several keywords. -/
def keywords (words : List String) : Rule ν := .choice (words.map .keyword)

/-- A look ahead that must not match. -/
def without (rule : Rule ν) : Rule ν := .peek rule true

/-- A look ahead that has to match. -/
def ahead (rule : Rule ν) : Rule ν := .peek rule false

mutual

/-- The rule with its nonterminals renamed. -/
def rename (f : ν → μ) : Rule ν → Rule μ
  | .literal text logged => .literal text logged
  | .keyword text => .keyword text
  | .word => .word
  | .number => .number
  | .quoted => .quoted
  | .choice rules => .choice (renameAll f rules)
  | .longest rules => .longest (renameAll f rules)
  | .sequence rules => .sequence (renameAll f rules)
  | .list item separator => .list (rename f item) (rename f separator)
  | .optional rule => .optional (rename f rule)
  | .many rule => .many (rename f rule)
  | .peek rule negate => .peek (rename f rule) negate
  | .required rule expected => .required (rename f rule) expected
  | .silent rule => .silent (rename f rule)
  | .action m => .action m
  | .nonterminal name => .nonterminal (f name)

/-- Several rules with their nonterminals renamed. -/
def renameAll (f : ν → μ) : List (Rule ν) → List (Rule μ)
  | [] => []
  | rule :: rest => rename f rule :: renameAll f rest

end

/-- Texts in brackets with commas between them. -/
def bracketed (parts : List String) : String :=
  "[" ++ ", ".intercalate parts ++ "]"

mutual

/-- The text of a rule, given the names of the nonterminals. -/
def shown (name : ν → String) : Rule ν → String
  | .literal text _ => Text.escaped text
  | .keyword text => text
  | .word => "<word>"
  | .number => "<number>"
  | .quoted => "<quoted>"
  | .choice rules => bracketed (shownAll name rules)
  | .longest rules => bracketed (shownAll name rules)
  | .sequence rules => "Seq(" ++ bracketed (shownAll name rules) ++ ")"
  | .list item separator => "List(" ++ shown name item ++ ", " ++ shown name separator ++ ")"
  | .optional rule => "Opt(" ++ shown name rule ++ ")"
  | .many rule => "Many(" ++ shown name rule ++ ")"
  | .peek rule negate =>
    "Peek \x7b rule: " ++ shown name rule ++ ", negate: " ++ (if negate then "true" else "false")
      ++ " \x7d"
  | .required rule _ => "Req(" ++ shown name rule ++ ")"
  | .silent rule => "Silent(" ++ shown name rule ++ ")"
  | .action m => "<" ++ m.name ++ ">"
  | .nonterminal n => "Lazy(" ++ name n ++ ")"

/-- The texts of several rules. -/
def shownAll (name : ν → String) : List (Rule ν) → List String
  | [] => []
  | rule :: rest => shown name rule :: shownAll name rest

end

end Rule

end LinkQuery
