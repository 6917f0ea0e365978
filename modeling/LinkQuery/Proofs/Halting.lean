import LinkQuery.Proofs.AcceptedTexts
import LinkQuery.Proofs.NestingLimit
/-!
# Texts that halt a match

Where a rule that is required does not match, the whole match halts. `Halts body rule cs` says that
a rule of a grammar halts on the text `cs`, from some number of levels on. What is tried in front of
it fails or is read, and nothing that stands behind it is tried any more.

Main statements:
- `Rejects.demanded`: where matches begin to halt.
- `Halts.choiceTail`, `Halts.seqTail`, `Halts.many`, `Halts.list`: the combinations of rules.
- `TokenLog.ofText_accepted`, `TokenLog.ofText_halted`: texts that no limit refuses.
-/
namespace LinkQuery

namespace Rule

variable {ν : Type}

/-- The rule halts on the text, from some level on. -/
def Halts (body : ν → Rule ν) (rule : Rule ν) (cs : List Char) : Prop :=
  ∃ enough, ∀ levels ≥ enough, ∀ s : State, s.Before levels cs →
    ∃ why t, run (calls body levels) rule s = .halted why t

variable {body : ν → Rule ν} {rule : Rule ν} {rules : List (Rule ν)} {cs mid : List Char}
  {a : List Lexeme}

theorem runAll_halted {call : ν → State → Outcome} {m : Mark} (other : Mark) {s t : State}
    {why : Halt} (h : runAll call m rules s = .halted why t) :
    runAll call other rules s = .halted why t := by
  have hmark := runAll_mark call m other rules s
  rwa [h] at hmark

/-- A rule that is required and fails. -/
theorem Rejects.demanded {expected : String} (h : Rejects body rule cs) :
    Halts body (.required rule expected) cs := by
  obtain ⟨enough, h⟩ := h
  refine ⟨enough, fun levels hlevels s hs => ?_⟩
  simp only [run, h levels hlevels s hs, demand, Outcome.orElse]
  exact ⟨_, _, rfl⟩

namespace Halts

theorem required {expected : String} (h : Halts body rule cs) :
    Halts body (.required rule expected) cs := by
  obtain ⟨enough, h⟩ := h
  refine ⟨enough, fun levels hlevels s hs => ?_⟩
  obtain ⟨why, t, hhalt⟩ := h levels hlevels s hs
  exact ⟨why, t, by simp only [run, hhalt, demand, Outcome.orElse]⟩

theorem choiceHead (h : Halts body rule cs) : Halts body (.choice (rule :: rules)) cs := by
  obtain ⟨enough, h⟩ := h
  refine ⟨enough, fun levels hlevels s hs => ?_⟩
  obtain ⟨why, t, hhalt⟩ := h levels hlevels s hs
  exact ⟨why, t, by simp only [run, runFirst, hhalt, Outcome.orElse]⟩

theorem choiceTail (h : Rejects body rule cs) (hrest : Halts body (.choice rules) cs) :
    Halts body (.choice (rule :: rules)) cs := by
  obtain ⟨enough, h⟩ := h
  obtain ⟨enough', hrest⟩ := hrest
  refine ⟨max enough enough', fun levels hlevels s hs => ?_⟩
  have hone := h levels (by omega) s hs
  obtain ⟨why, t, hhalt⟩ := hrest levels (by omega) s hs
  exact ⟨why, t, by simpa only [run, runFirst, hone, Outcome.orElse] using hhalt⟩

theorem seqHead (h : Halts body rule cs) : Halts body (.sequence (rule :: rules)) cs := by
  obtain ⟨enough, h⟩ := h
  refine ⟨enough, fun levels hlevels s hs => ?_⟩
  obtain ⟨why, t, hhalt⟩ := h levels hlevels s hs
  exact ⟨why, t, by simp only [run, runAll, hhalt]⟩

theorem seqTail (h : Accepts body rule cs mid a) (hrest : Halts body (.sequence rules) mid) :
    Halts body (.sequence (rule :: rules)) cs := by
  obtain ⟨enough, h⟩ := h
  obtain ⟨enough', hrest⟩ := hrest
  refine ⟨max enough enough', fun levels hlevels s hs => ?_⟩
  obtain ⟨read, tokens, rfl, hone, -⟩ := h levels (by omega) s hs
  obtain ⟨why, t, hhalt⟩ := hrest levels (by omega) _ (hs.past tokens)
  refine ⟨why, t, ?_⟩
  simp only [run, runAll, hone] at hhalt ⊢
  exact runAll_halted _ hhalt

theorem many (h : Halts body rule cs) : Halts body (.many rule) cs := by
  obtain ⟨enough, h⟩ := h
  refine ⟨enough, fun levels hlevels s hs => ?_⟩
  obtain ⟨why, t, hhalt⟩ := h levels hlevels s hs
  exact ⟨why, t, by simp only [run, iterate, hhalt]⟩

theorem list {separator : Rule ν} (h : Halts body rule cs) :
    Halts body (.list rule separator) cs := by
  obtain ⟨enough, h⟩ := h
  refine ⟨enough, fun levels hlevels s hs => ?_⟩
  obtain ⟨why, t, hhalt⟩ := h levels hlevels s hs
  exact ⟨why, t, by simp only [run, hhalt, Outcome.andThen]⟩

theorem nonterminal {name : ν} (h : Halts body (body name) cs) :
    Halts body (.nonterminal name) cs := by
  obtain ⟨enough, h⟩ := h
  refine ⟨enough + 1, fun levels hlevels s hs => ?_⟩
  obtain ⟨levels, rfl⟩ : ∃ n, levels = n + 1 := ⟨levels - 1, by omega⟩
  obtain ⟨why, t, hhalt⟩ := h levels (by omega) _ hs.enter.2
  simp only [run, calls, runWithin_eq]
  rw [hhalt]
  exact ⟨_, _, rfl⟩

end Halts

end Rule

/-! ## Texts that no limit refuses -/

/-- The expression is refused because it is too long or nests too deeply. -/
def QueryError.isLimit : QueryError → Bool
  | .invalid (.tooLong _ _) => true
  | .invalid (.tooDeep _) => true
  | _ => false

/-- No limit refuses the expression. -/
def Unlimited {α : Type} (r : Except QueryError α) : Prop := ∀ e, r = .error e → e.isLimit = false

namespace TokenLog

open Language (Part)
open Rule (Accepts Halts State)

variable {settings : Settings} {kind : ExpressionKind} {text : String} {l : List Lexeme}

/-- A text that no limit refuses has the same log or error within wider limits. -/
theorem ofText_widened (h : Unlimited (ofText settings kind text)) (enough : Nat) :
    ∃ wide : Settings, enough ≤ wide.maxLength ∧ enough ≤ wide.maxNesting ∧
      ofText wide kind text = ofText settings kind text := by
  refine ⟨⟨settings.timeZone, settings.now, max settings.maxLength enough,
    max settings.maxNesting enough⟩, Nat.le_max_right _ _, Nat.le_max_right _ _, ?_⟩
  have hdeep : ofText settings kind text ≠ invalid (.tooDeep settings.maxNesting) := by
    intro heq
    cases h _ heq
  have hraised := tooDeep_or_raised settings kind text (Nat.le_max_left _ enough)
  rw [← hraised.resolve_left hdeep]
  have hshort : text.length ≤ settings.maxLength := by
    by_contra hlong
    have hrefused : ofText settings kind text =
        invalid (.tooLong text.length settings.maxLength) := by
      simp only [ofText, Settings.checkLength, Settings.checkLengthWithin]
      rw [if_pos (by omega)]
      rfl
    cases h _ hrefused
  have hcheck : ∀ limit, text.length ≤ limit → Settings.checkLengthWithin limit text = .ok () := by
    intro limit hlimit
    rw [Settings.checkLengthWithin, if_neg (by omega)]
  simp only [ofText, Settings.checkLength]
  rw [hcheck _ hshort, hcheck _ (by omega)]

/-- A text that its rule accepts up to the end has a log, if no limit refuses it. -/
theorem ofText_accepted (hblank : Text.isBlankText text = false)
    (h : Accepts Part.body kind.rule text.toList [] l)
    (hlimit : Unlimited (ofText settings kind text)) :
    ∃ tokens, tokens.map Token.lexeme = l ∧ ofText settings kind text = .ok tokens := by
  obtain ⟨enough, h⟩ := ofText_of_accepts hblank h
  obtain ⟨wide, hlength, hnesting, hsame⟩ := ofText_widened hlimit enough
  rw [← hsame]
  exact h wide hlength hnesting

/-- A text that its rule halts on is refused. -/
theorem ofText_halted (hblank : Text.isBlankText text = false)
    (h : Halts Part.body kind.rule text.toList)
    (hlimit : Unlimited (ofText settings kind text)) :
    ∃ e, ofText settings kind text = .error e := by
  obtain ⟨enough, h⟩ := h
  obtain ⟨wide, -, hnesting, hsame⟩ := ofText_widened hlimit enough
  obtain ⟨why, t, hhalt⟩ :=
    h wide.maxNesting hnesting _ (State.start_before text.toList wide.maxNesting)
  have hmatch : Rule.matchAt Part.body kind.rule (State.start text.toList wide.maxNesting) =
      .halted why t := (Rule.runWithin_eq Part.body _ _ _).trans hhalt
  rw [← hsame]
  simp only [ofText, scan, hmatch, hblank]
  cases wide.checkLength text with
  | error e => exact ⟨e, rfl⟩
  | ok u => exact ⟨_, rfl⟩

end TokenLog

end LinkQuery
