import LinkQuery.Proofs.Lockstep
import LinkQuery.TokenLog
/-!
# Raising the nesting limit

The nesting limit only stops a match, or refuses the log that it has found. A text that is read or
refused for another reason within one limit is read or refused alike within every larger one.

Main statements:
- `Rule.matchAt_raised`: a match within two limits.
- `TokenLog.ofText_raised`: the log of a text, or its error, within two limits.
-/
namespace LinkQuery

namespace Rule

/-! ## One text within two limits -/

/-- The first state has the limit, and both are in front of the same text with the same log. -/
structure SameText (limit : Nat) (s s' : State) : Prop where
  limit : s.maxDepth = limit
  input : s'.input = s.input
  rest : s'.rest = s.rest
  cursor : s'.cursor = s.cursor
  log : s'.log = s.log
  left : s.rest.length ≤ s.remaining

namespace SameText

variable {limit : Nat} {s s' : State}

theorem past (h : SameText limit s s') (count : Nat) (tokens : List Token) :
    SameText limit (s.past count tokens) (s'.past count tokens) := by
  have hleft := h.left
  refine ⟨h.limit, h.input, ?_, ?_, ?_, ?_⟩
  · simp [h.rest]
  · simp [State.past, State.advance, h.rest, h.cursor]
  · simp [State.past, h.log]
  · simp only [State.remaining, State.past, State.advance, List.length_drop,
      List.length_take] at hleft ⊢
    omega

theorem skipBlanks (h : SameText limit s s') : SameText limit s.skipBlanks s'.skipBlanks := by
  rw [State.skipBlanks_eq_past, State.skipBlanks_eq_past, h.rest]
  exact h.past _ []

theorem isBoundary (h : SameText limit s s') (offset : Nat) :
    s'.isBoundary offset = s.isBoundary offset := by
  simp only [State.isBoundary, State.peek?, h.rest]

theorem remaining (h : SameText limit s s') : s'.remaining = s.remaining := by
  simp only [State.remaining, h.input, h.cursor]

end SameText

/-- The match halts at the nesting limit. -/
def AtLimit (limit : Nat) (why : Halt) : Prop := why.cause = .nestingLimit limit

theorem sameText_lockstep (limit : Nat) : Lockstep (SameText limit) (AtLimit limit) where
  left h := by
    have hleft := h.left
    rw [h.rest, h.remaining]
    exact ⟨hleft, hleft⟩
  order hs ht := by rw [hs.cursor, ht.cursor]
  discard hs ht := by
    refine ⟨ht.limit, ht.input, ht.rest, ht.cursor, ?_, ht.left⟩
    simp [State.past, hs.log]
  marker m h := by
    rw [h.cursor]
    exact h.past 0 _
  depth _ _ h := ⟨h.limit, h.input, h.rest, h.cursor, h.log, h.left⟩
  halt _ h := ⟨Or.inr h.cursor, Or.inr h.skipBlanks.cursor⟩
  limit h := by rw [AtLimit, h.limit]

section Tokens

variable {limit : Nat} {s s' : State} (h : SameText limit s s')
include h

theorem matched_inStep (count : Nat) (tokens : List Token) :
    Outcome.InStep (SameText limit) (AtLimit limit) s s'
      (.matched (s.skipBlanks.past count tokens)) (.matched (s'.skipBlanks.past count tokens)) := by
  rw [State.skipBlanks_eq_past, State.skipBlanks_eq_past, State.past_past, State.past_past, h.rest]
  exact .matched (h.past _ _)

theorem literal_inStep (text : String) (logged : Bool) :
    Outcome.InStep (SameText limit) (AtLimit limit) s s'
      (s.literal text logged) (s'.literal text logged) := by
  simp only [State.literal, State.lookingAt, State.take_eq_past, State.advance_eq_past,
    h.skipBlanks.rest, h.skipBlanks.cursor]
  split
  · split
    · exact matched_inStep h _ _
    · exact matched_inStep h _ _
  · exact .failed

theorem keyword_inStep (word : String) :
    Outcome.InStep (SameText limit) (AtLimit limit) s s' (s.keyword word) (s'.keyword word) := by
  simp only [State.keyword, State.lookingAt, State.take_eq_past, h.skipBlanks.isBoundary,
    h.skipBlanks.rest, h.skipBlanks.cursor]
  split
  · exact matched_inStep h _ _
  · exact .failed

theorem name_inStep :
    Outcome.InStep (SameText limit) (AtLimit limit) s s' s.name s'.name := by
  simp only [State.name, State.take_eq_past, h.skipBlanks.rest, h.skipBlanks.cursor]
  split
  · exact .failed
  · exact matched_inStep h _ _

theorem number_inStep :
    Outcome.InStep (SameText limit) (AtLimit limit) s s' s.number s'.number := by
  simp only [State.number, State.take_eq_past, h.skipBlanks.isBoundary, h.skipBlanks.rest,
    h.skipBlanks.cursor]
  split
  · exact matched_inStep h _ _
  · exact .failed

theorem quotedText_inStep :
    Outcome.InStep (SameText limit) (AtLimit limit) s s' s.quotedText s'.quotedText := by
  simp only [State.quotedText, State.take_eq_past, h.skipBlanks.rest, h.skipBlanks.cursor]
  split
  · exact .failed
  · split
    · exact .failed
    · split
      · exact matched_inStep h _ _
      · exact .stopped (Or.inr rfl)
      · exact .stopped (Or.inr rfl)

theorem read_inStep (token : TokenRule) :
    Outcome.InStep (SameText limit) (AtLimit limit) s s' (token.read s) (token.read s') := by
  cases token with
  | literal text logged => exact literal_inStep h text logged
  | keyword text => exact keyword_inStep h text
  | word => exact name_inStep h
  | number => exact number_inStep h
  | quoted => exact quotedText_inStep h

end Tokens

/-- A match within a limit goes on alike within a larger one, unless it halts at the limit. -/
theorem matchAt_raised {ν : Type} (body : ν → Rule ν) (rule : Rule ν) {limit : Nat} {s s' : State}
    (h : SameText limit s s') (hdepth : s'.depth = s.depth) (hle : s.maxDepth ≤ s'.maxDepth) :
    Outcome.InStep (SameText limit) (AtLimit limit) s s' (matchAt body rule s)
      (matchAt body rule s') := by
  have htokens : ∀ tokens : List TokenRule,
      TokensInStep (SameText limit) (AtLimit limit) tokens := by
    intro tokens token _ t t' ht
    exact read_inStep ht token
  have hlevels : s.maxDepth - s.depth ≤ s'.maxDepth - s'.depth := by omega
  exact runWithin_inStep (sameText_lockstep limit) (fun name => htokens _) _ _ hlevels rule
    (htokens _) ⟨h, Nat.le_refl _, Nat.le_refl _⟩

end Rule

namespace TokenLog

open Rule (State AtLimit SameText)

/-! ## Logs within two limits -/

/-- A match that ends the text is read within the larger limit, unless its log is too deep. -/
theorem finish_raised (input : List Char) {low high : Nat} (hle : low ≤ high) {s s' : State}
    (h : SameText low s s') :
    finish input low s = invalid (.tooDeep low) ∨ finish input high s' = finish input low s := by
  have hend : s'.skipBlanks.atEnd = s.skipBlanks.atEnd := by
    simp only [State.atEnd, h.skipBlanks.rest]
  simp only [finish, hend, h.skipBlanks.cursor, h.skipBlanks.log]
  cases s.skipBlanks.atEnd with
  | false => exact Or.inr rfl
  | true =>
    by_cases hdeep : pathDepth s.skipBlanks.log.toList > low
    · simp only [if_pos hdeep, if_true]
      exact Or.inl trivial
    · have hhigh : ¬ pathDepth s.skipBlanks.log.toList > high := by omega
      simp only [if_neg hdeep, if_neg hhigh, if_true]
      exact Or.inr trivial

theorem scan_raised (kind : ExpressionKind) (input : List Char) {low high : Nat}
    (hle : low ≤ high) :
    scan kind low input = invalid (.tooDeep low) ∨ scan kind high input = scan kind low input := by
  have hstart : SameText low (State.start input low) (State.start input high) :=
    ⟨rfl, rfl, rfl, rfl, rfl, by simp [State.start, State.remaining]⟩
  have hmatch := Rule.matchAt_raised Language.Part.body kind.rule hstart rfl hle
  simp only [scan]
  generalize Rule.matchAt Language.Part.body kind.rule (State.start input low) = o at hmatch
  generalize Rule.matchAt Language.Part.body kind.rule (State.start input high) = o' at hmatch
  cases hmatch with
  | matched h => exact finish_raised input hle h
  | failed => exact Or.inr rfl
  | halted h =>
    rcases h with hlimit | ⟨t', rfl⟩
    · rw [AtLimit] at hlimit
      refine Or.inl ?_
      simp only [haltError, hlimit]
      rfl
    · exact Or.inr rfl

/-- A text nests too deeply, or it has the same log or error within every larger nesting limit. -/
theorem tooDeep_or_raised (settings : Settings) (kind : ExpressionKind) (input : String)
    {high : Nat} (hle : settings.maxNesting ≤ high) :
    ofText settings kind input = invalid (.tooDeep settings.maxNesting) ∨
      ofText { settings with maxNesting := high } kind input = ofText settings kind input := by
  have hscan := scan_raised kind input.toList hle
  simp only [ofText, Settings.checkLength]
  cases hlength : Settings.checkLengthWithin settings.maxLength input with
  | error e => exact Or.inr rfl
  | ok u =>
    by_cases hblank : Text.isBlankText input = true
    · exact Or.inr (by simp [hblank])
    · simp only [hblank, Bool.false_eq_true, if_false]
      exact hscan

/--
A text whose log or error is not the error for the nesting limit has the same log or error within
every larger nesting limit.
-/
theorem ofText_raised (settings : Settings) (kind : ExpressionKind) (input : String) {high : Nat}
    (hle : settings.maxNesting ≤ high)
    (h : ofText settings kind input ≠ invalid (.tooDeep settings.maxNesting)) :
    ofText { settings with maxNesting := high } kind input = ofText settings kind input :=
  (tooDeep_or_raised settings kind input hle).resolve_left h

/-- Two pairs of parentheses are read within four levels, and so within the usual limit. -/
theorem ofText_raised_parentheses :
    ofText ⟨"UTC", ⟨0, 0, 0⟩, 100, 4⟩ .filter "((Age >= 5))" ≠ invalid (.tooDeep 4) ∧
      ofText ⟨"UTC", ⟨0, 0, 0⟩, 100, 64⟩ .filter "((Age >= 5))" =
        ofText ⟨"UTC", ⟨0, 0, 0⟩, 100, 4⟩ .filter "((Age >= 5))" := by
  have hread : (ofText ⟨"UTC", ⟨0, 0, 0⟩, 100, 4⟩ .filter "((Age >= 5))").isOk = true := by
    decide +kernel
  have hlimit : ofText ⟨"UTC", ⟨0, 0, 0⟩, 100, 4⟩ .filter "((Age >= 5))" ≠
      invalid (.tooDeep 4) := by
    intro h
    rw [h] at hread
    cases hread
  exact ⟨hlimit, ofText_raised ⟨"UTC", ⟨0, 0, 0⟩, 100, 4⟩ .filter "((Age >= 5))" (by decide) hlimit⟩

end TokenLog

end LinkQuery
