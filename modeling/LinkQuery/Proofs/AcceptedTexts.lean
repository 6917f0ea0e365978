import LinkQuery.Compiler
import LinkQuery.Proofs.FilterPositions
import LinkQuery.Proofs.FilterTexts
/-!
# Compiling accepted texts

A text that its rule accepts up to the end has a log, from some limits on, and what the log says
decides what the text compiles to.

Main statements:
- `TokenLog.ofText_of_accepts`: the log of an accepted text.
- `Compiler.filter_of_accepts`, `Compiler.filter_of_text`: what an accepted filter compiles to.
-/
namespace LinkQuery

open Language (Part)
open Rule (Accepts AcceptsAt State)

/-! ## Logs -/

namespace TokenLog

theorem pathDepth_unplaced (tokens : List Token) :
    pathDepth (tokens.map Token.unplaced) = pathDepth tokens := by
  unfold pathDepth
  rw [List.foldl_map]
  rfl

theorem pathDepth_of_lexemes {tokens : List Token} {l : List Lexeme}
    (h : tokens.map Token.lexeme = l) : pathDepth tokens = pathDepth (Lexeme.placed l) := by
  rw [← pathDepth_unplaced, unplaced_of_lexemes h]

/-- A text that its rule accepts up to the end within the limits has a log. -/
theorem ofText_of_acceptsAt {settings : Settings} {kind : ExpressionKind} {text : String}
    {l : List Lexeme} (hblank : Text.isBlankText text = false)
    (h : AcceptsAt Part.body settings.maxNesting kind.rule text.toList [] l)
    (hlength : text.length ≤ settings.maxLength)
    (hpaths : pathDepth (Lexeme.placed l) ≤ settings.maxNesting) :
    ∃ tokens, tokens.map Token.lexeme = l ∧ ofText settings kind text = .ok tokens := by
  obtain ⟨read, tokens, hread, hrun, hl⟩ :=
    h _ (State.start_before text.toList settings.maxNesting)
  rw [List.append_nil] at hread
  have hmatch : Rule.matchAt Part.body kind.rule (State.start text.toList settings.maxNesting) =
      .matched ((State.start text.toList settings.maxNesting).past read.length tokens) :=
    (Rule.runWithin_eq Part.body _ _ _).trans hrun
  have hrest : ((State.start text.toList settings.maxNesting).past read.length tokens).rest = [] := by
    simp [State.past, State.advance, State.start, hread]
  have hdepth := pathDepth_of_lexemes hl
  refine ⟨tokens, hl, ?_⟩
  have hcheck : settings.checkLength text = .ok () := by
    unfold Settings.checkLength Settings.checkLengthWithin
    rw [if_neg (by omega)]
  simp only [ofText, hcheck, hblank, scan, hmatch, finish, bind, Except.bind,
    Bool.false_eq_true, if_false]
  have hend : ((State.start text.toList settings.maxNesting).past read.length
      tokens).skipBlanks.atEnd = true := by
    rw [State.atEnd, Rule.State.skipBlanks_rest, hrest]
    rfl
  have hlog : ((State.start text.toList settings.maxNesting).past read.length
      tokens).skipBlanks.log.toList = tokens := by
    simp [State.skipBlanks, State.past, State.advance, State.start]
  rw [hend, hlog, if_pos rfl, if_neg (by omega)]

/-- A text that its rule accepts up to the end has a log, unless a limit is too narrow. -/
theorem ofText_of_accepts {kind : ExpressionKind} {text : String} {l : List Lexeme}
    (hblank : Text.isBlankText text = false) (h : Accepts Part.body kind.rule text.toList [] l) :
    ∃ enough, ∀ settings : Settings, enough ≤ settings.maxLength → enough ≤ settings.maxNesting →
      ∃ tokens, tokens.map Token.lexeme = l ∧ ofText settings kind text = .ok tokens := by
  obtain ⟨enough, h⟩ := h
  refine ⟨max text.length (max enough (pathDepth (Lexeme.placed l))),
    fun settings hlength hnesting => ?_⟩
  exact ofText_of_acceptsAt hblank (h settings.maxNesting (by omega)) (by omega) (by omega)

end TokenLog

/-! ## Filters -/

namespace Compiler

/-- The compiler with other limits on the length and the nesting of an expression. -/
def withLimits (c : Compiler) (length nesting : Nat) : Compiler :=
  { c with settings := { c.settings with maxLength := length, maxNesting := nesting } }

/-- What lexemes compile to as a filter of a table. -/
def filterOf (c : Compiler) (table : String) (l : List Lexeme) :
    Except QueryError (Option Query) := do
  let raw ← Filter.buildIn (← c.scope) table (Lexeme.placed l)
  some <$> raw.settle c.schema table

/-- Lexemes that build the same tree, or none, compile to the same. -/
theorem filterOf_congr {c : Compiler} {table : String} {a b : List Lexeme}
    (h : ∀ scope, c.scope = .ok scope →
      (Filter.buildIn scope table (Lexeme.placed a)).toOption =
        (Filter.buildIn scope table (Lexeme.placed b)).toOption) :
    (c.filterOf table a).toOption = (c.filterOf table b).toOption := by
  unfold filterOf
  cases hscope : c.scope with
  | error why => rfl
  | ok scope =>
    have hsame := h scope hscope
    show (Filter.buildIn scope table (Lexeme.placed a) >>= _).toOption =
      (Filter.buildIn scope table (Lexeme.placed b) >>= _).toOption
    cases ha : Filter.buildIn scope table (Lexeme.placed a) <;>
      cases hb : Filter.buildIn scope table (Lexeme.placed b) <;> rw [ha, hb] at hsame
    · rfl
    · cases hsame
    · cases hsame
    · obtain rfl := Option.some.inj hsame
      rfl

/-- What an accepted text compiles to is up to what its log says. -/
theorem filter_of_accepts {text : String} {l : List Lexeme}
    (hblank : Text.isBlankText text = false) (hl : l ≠ [])
    (h : Accepts Part.body Language.filter text.toList [] l) :
    ∃ enough, ∀ (c : Compiler) (table : String) (length nesting : Nat), enough ≤ length →
      enough ≤ nesting →
      ((c.withLimits length nesting).filter table text).toOption =
        (c.filterOf table l).toOption := by
  have hname : Accepts Part.body ExpressionKind.filter.rule text.toList [] l := h.nonterminal
  obtain ⟨enough, htext⟩ := TokenLog.ofText_of_accepts hblank hname
  refine ⟨enough, fun c table length nesting hlength hnesting => ?_⟩
  obtain ⟨tokens, hlexemes, htokens⟩ :=
    htext (c.withLimits length nesting).settings hlength hnesting
  have hlog : (c.withLimits length nesting).log .filter text = .ok tokens := htokens
  have hempty : tokens.isEmpty = false := by
    rw [List.isEmpty_eq_false_iff]
    rintro rfl
    exact hl hlexemes.symm
  unfold Compiler.filter filterOf
  rw [hlog]
  show ((c.withLimits length nesting).buildFilter table tokens >>= _).toOption = _
  have hscope : (c.withLimits length nesting).scope = c.scope := rfl
  unfold buildFilter
  rw [hscope]
  cases c.scope with
  | error why => rfl
  | ok scope =>
    have hagree := @Filter.buildIn_agrees scope table tokens
    rw [unplaced_of_lexemes hlexemes] at hagree
    show (Filter.build scope table tokens >>= _).toOption =
      (Filter.buildIn scope table (Lexeme.placed l) >>= _).toOption
    unfold Filter.build
    rw [hempty]
    obtain ⟨_, _, hraw, hplaced⟩ | ⟨raw, hraw, hplaced⟩ := hagree.cases
    · rw [hraw, hplaced]
      rfl
    · rw [hraw, hplaced]
      rfl

/-- What the text of a filter compiles to is up to what it says. -/
theorem filter_of_text {text : String} {l : List Lexeme} (hl : l ≠ [])
    (h : Rule.IsText .disjunction text.toList l) :
    ∃ enough, ∀ (c : Compiler) (table : String) (length nesting : Nat), enough ≤ length →
      enough ≤ nesting →
      ((c.withLimits length nesting).filter table text).toOption =
        (c.filterOf table l).toOption := by
  have haccepts := h.accepts text.toList []
    (by simpa using Rule.dropBlanks_solid h.solid []) Rule.EndsLevel.finish
  obtain ⟨first, more, htext, hfirst⟩ := h.solid
  refine filter_of_accepts ?_ hl haccepts
  rw [Text.isBlankText, htext, List.all_cons, hfirst, Bool.false_and]

end Compiler

end LinkQuery
