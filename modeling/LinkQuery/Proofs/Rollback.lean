import LinkQuery.Language.Kind
import LinkQuery.Proofs.Acceptance
/-!
# What a match leaves behind

Rules are transactional: one that fails leaves no trace, and one that matches only moves the cursor
on, inside the input, and only adds to the log. A look ahead that matches or fails leaves cursor
and log where they were. A match that halts is over, and nothing is undone for it.

Main statements:
- `Rule.matchAt_transactional`: what every rule of every grammar leaves behind, from every state.
- `Rule.halted_lookAhead_moves`: a look ahead that halts leaves the cursor where it halted.
-/
namespace LinkQuery.Rule

variable {ν : Type}

namespace State

/-- The cursor stands in the input, in front of the characters that are left. -/
structure InInput (s : State) : Prop where
  cursor_le : s.cursor ≤ s.input.size
  rest_eq : s.rest = s.input.toList.drop s.cursor

theorem start_inInput (input : List Char) (maxDepth : Nat) : (start input maxDepth).InInput :=
  ⟨Nat.zero_le _, rfl⟩

/-- The state further on that a match may leave: the log has grown at its end only. -/
structure Extends (s t : State) : Prop where
  forward : s.cursor ≤ t.cursor
  inInput : t.InInput
  input_eq : t.input = s.input
  log_prefix : s.log.toList <+: t.log.toList
  depth_eq : t.depth = s.depth

theorem InInput.past {s : State} (h : s.InInput) (count : Nat) (tokens : List Token) :
    (s.past count tokens).InInput := by
  have hlength : s.rest.length = s.input.size - s.cursor := by
    rw [h.rest_eq, List.length_drop, Array.length_toList]
  have hcursor : (s.past count tokens).cursor = s.cursor + min count s.rest.length := by
    simp only [State.past, advance, List.length_take]
  have hinput : (s.past count tokens).input = s.input := rfl
  have hinside := h.cursor_le
  refine ⟨?_, ?_⟩
  · rw [hcursor, hinput]
    omega
  · rw [past_rest, hcursor, hinput]
    by_cases hcount : count ≤ s.rest.length
    · rw [Nat.min_eq_left hcount, h.rest_eq, List.drop_drop]
    · -- Both reach behind the last character.
      rw [List.drop_eq_nil_of_le (by omega), List.drop_eq_nil_of_le]
      rw [Array.length_toList]
      omega

theorem InInput.extends_past {s : State} (h : s.InInput) (count : Nat) (tokens : List Token) :
    s.Extends (s.past count tokens) := by
  refine ⟨Nat.le_add_right .., h.past count tokens, rfl, ?_, rfl⟩
  simp [State.past]

end State

/-- A match within the nesting limit of its state is tidy, whatever has been entered before. -/
theorem matchAt_tidy (body : ν → Rule ν) (rule : Rule ν) (s : State) :
    (matchAt body rule s).Tidy (Produces (Generates body (s.maxDepth - s.depth)) rule) s :=
  runWithin_tidy body _ rule s (Nat.le_refl _)

/-- A look ahead that matches goes back to where it started. -/
theorem lookAhead_matched {A : LogSet} {s t : State} {o : Outcome} {negate : Bool} (h : o.Tidy A s)
    (hmatched : lookAhead negate s.mark o = .matched t) : t = s := by
  cases o with
  | halted why u => simp [lookAhead] at hmatched
  | failed u =>
    obtain rfl : u = s := h
    cases negate with
    | false => simp [lookAhead] at hmatched
    | true =>
      simp only [lookAhead, if_true, Outcome.matched.injEq, State.reset_mark] at hmatched
      exact hmatched.symm
  | matched u =>
    obtain ⟨count, tokens, -, rfl⟩ := h
    cases negate with
    | true => simp [lookAhead] at hmatched
    | false =>
      simp only [lookAhead, Bool.false_eq_true, if_false, Outcome.matched.injEq,
        State.past_reset] at hmatched
      exact hmatched.symm

/-- A match leaves a state further on. -/
theorem extends_of_matched {body : ν → Rule ν} {rule : Rule ν} {s t : State} (hs : s.InInput)
    (h : matchAt body rule s = .matched t) : s.Extends t := by
  have htidy := matchAt_tidy body rule s
  rw [h] at htidy
  obtain ⟨count, tokens, -, rfl⟩ := htidy
  exact hs.extends_past count tokens

/-- Every rule of every grammar is transactional from every state whose cursor stands in its
input: a failure leaves the state as it was, a match leaves one further on, and a look ahead that
matches or fails leaves the state as it was. -/
theorem matchAt_transactional (body : ν → Rule ν) (rule : Rule ν) (s : State) (hs : s.InInput) :
    (∀ t, matchAt body rule s = .failed t → t = s) ∧
    (∀ t, matchAt body rule s = .matched t → s.Extends t) ∧
    ∀ negate t, matchAt body (.peek rule negate) s = .failed t ∨
      matchAt body (.peek rule negate) s = .matched t → t = s := by
  have hfailed : ∀ rule t, matchAt body rule s = .failed t → t = s := by
    intro rule t h
    have htidy := matchAt_tidy body rule s
    rw [h] at htidy
    exact htidy
  refine ⟨hfailed rule, fun t h => extends_of_matched hs h, fun negate t h => ?_⟩
  cases h with
  | inl h => exact hfailed (.peek rule negate) t h
  | inr h =>
    unfold matchAt at h
    rw [runWithin_eq, run] at h
    have htidy := matchAt_tidy body rule s
    rw [matchAt, runWithin_eq] at htidy
    exact lookAhead_matched htidy h

/-- The comma that no item follows is not consumed. -/
theorem matchAt_transactional_list :
    (State.start "A, B, 1".toList 64).InInput ∧
      ∃ t, matchAt Language.Part.body (.list .word (symbol ",")) (State.start "A, B, 1".toList 64) =
        .matched t ∧ t.cursor = 4 ∧ (State.start "A, B, 1".toList 64).Extends t := by
  have hstart := State.start_inInput "A, B, 1".toList 64
  have hcursor : (match matchAt Language.Part.body (.list .word (symbol ","))
      (State.start "A, B, 1".toList 64) with
      | .matched t => t.cursor
      | _ => 0) = 4 := by decide +kernel
  split at hcursor
  · rename_i t hmatched
    exact ⟨hstart, t, hmatched, hcursor,
      (matchAt_transactional Language.Part.body _ _ hstart).2.1 _ hmatched⟩
  · cases hcursor

/-- An `a` that a `b` has to follow. -/
def letterPair : Rule Empty :=
  .sequence [symbol "a", .required (symbol "b") "b"]

/-- A look ahead that halts leaves the cursor where it halted. -/
theorem halted_lookAhead_moves :
    ¬ ∀ (body : Empty → Rule Empty) (rule : Rule Empty) (negate : Bool) (s : State), s.InInput →
      (matchAt body (.peek rule negate) s).state.cursor = s.cursor ∧
        (matchAt body (.peek rule negate) s).state.log = s.log := by
  intro h
  have hsame := h Empty.elim letterPair false (State.start "ac".toList 64) (State.start_inInput _ _)
  have hcursor : (matchAt Empty.elim (.peek letterPair false)
      (State.start "ac".toList 64)).state.cursor = 1 := by decide
  rw [hcursor] at hsame
  exact absurd hsame.1 (by decide)

end LinkQuery.Rule
