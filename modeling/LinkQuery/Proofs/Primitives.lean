import LinkQuery.Proofs.Rollback
/-!
# What the primitive parts of a rule decide

A match is made of the matches of tokens, markers and silent rules. A relation between the states in
front of and behind a match that holds of each of these, of no step at all and of one step behind
another holds of every match of the rule.

Main statements:
- `Rule.run_related`: from the primitive rules to a rule, given the nonterminals.
- `Rule.runWithin_related`: from the primitive rules of a grammar to its matches.
-/
namespace LinkQuery.Rule

variable {ν : Type}

mutual

/-- The rules that consume input or log a token themselves when a rule is matched. -/
def primitives : Rule ν → List (Rule ν)
  | .choice rules => primitivesOfAll rules
  | .longest rules => primitivesOfAll rules
  | .sequence rules => primitivesOfAll rules
  | .list item separator => primitives item ++ primitives separator
  | .optional rule => primitives rule
  | .many rule => primitives rule
  | .required rule _ => primitives rule
  | .peek _ _ => []
  | .nonterminal _ => []
  | rule => [rule]

/-- The rules that consume input or log a token themselves when several rules are matched. -/
def primitivesOfAll : List (Rule ν) → List (Rule ν)
  | [] => []
  | rule :: rest => primitives rule ++ primitivesOfAll rest

end

/-- A relation of states that holds of no step at all and of one step behind another. -/
structure Chains (R : State → State → Prop) : Prop where
  refl : ∀ s, R s s
  trans : ∀ s t u, R s t → R t u → R s u

section Related

variable {R : State → State → Prop} {levels : Nat}

theorem iterate_related {A : LogSet} {onStall step : State → Outcome} (hR : Chains R)
    (hstall : ∀ s t, onStall s = .matched t → t = s)
    (htidy : ∀ s, s.HasRoom levels → (step s).Tidy A s)
    (hstep : ∀ s t, s.HasRoom levels → step s = .matched t → R s t) :
    ∀ (n : Nat) (s t : State), s.HasRoom levels → iterate onStall step n s = .matched t → R s t := by
  intro n
  induction n with
  | zero => simp [iterate]
  | succ n ih =>
    intro s t hs h
    have hone := htidy s hs
    simp only [iterate] at h
    cases hout : step s with
    | halted why u => simp [hout] at h
    | failed u =>
      rw [hout] at hone h
      obtain rfl : u = s := hone
      obtain rfl : u = t := by simpa using h
      exact hR.refl u
    | matched u =>
      have hu := hstep s u hs hout
      rw [hout] at hone h
      obtain ⟨count, tokens, -, rfl⟩ := hone
      dsimp only at h
      split at h
      · rwa [hstall _ t h]
      · exact hR.trans _ _ _ hu (ih _ t (hs.past count tokens) h)

/-- Matching the nonterminals is tidy and keeps to a relation that chains. -/
structure Relates (R : State → State → Prop) (levels : Nat) (call : ν → State → Outcome) : Prop
    extends Chains R where
  tidy : ∀ name s, s.HasRoom levels → (call name s).Tidy (fun _ => True) s
  name : ∀ name s t, s.HasRoom levels → call name s = .matched t → R s t

variable {call : ν → State → Outcome}

mutual

/-- What holds of the matches of its primitive rules and of the nonterminals holds of the matches
of a rule. -/
theorem run_related (hR : Relates R levels call) : ∀ (rule : Rule ν),
    (∀ p ∈ rule.primitives, ∀ s t, run call p s = .matched t → R s t) →
    ∀ s t, s.HasRoom levels → run call rule s = .matched t → R s t
  | .literal text logged, hp, s, t, _, h => hp _ (List.mem_singleton_self _) s t h
  | .keyword text, hp, s, t, _, h => hp _ (List.mem_singleton_self _) s t h
  | .word, hp, s, t, _, h => hp _ (List.mem_singleton_self _) s t h
  | .number, hp, s, t, _, h => hp _ (List.mem_singleton_self _) s t h
  | .quoted, hp, s, t, _, h => hp _ (List.mem_singleton_self _) s t h
  | .silent rule, hp, s, t, _, h => hp _ (List.mem_singleton_self _) s t h
  | .action m, hp, s, t, _, h => hp _ (List.mem_singleton_self _) s t h
  | .nonterminal name, _, s, t, hs, h => hR.name name s t hs h
  | .choice rules, hp, s, t, hs, h => runFirst_related hR rules hp s t hs h
  | .longest rules, hp, s, t, hs, h => by
    have heach := runEach_state hR.tidy s hs rules 0 none
    simp only [run] at h
    cases hout : runEach call s.mark rules 0 none s with
    | error why => simp [hout] at h
    | ok found =>
      obtain ⟨best, u⟩ := found
      obtain rfl : u = s := heach best u hout
      cases best with
      | none => simp [hout] at h
      | some best =>
        rw [hout] at h
        exact runNth_related hR rules hp best.index u t hs h
  | .sequence rules, hp, s, t, hs, h => runAll_related hR rules hp s.mark s t hs h
  | .list item separator, hp, s, t, hs, h => by
    have hitem := run_related hR item fun p hmem => hp p (List.mem_append_left _ hmem)
    have hsep := run_related hR separator fun p hmem => hp p (List.mem_append_right _ hmem)
    have hfirst := run_tidy hR.tidy item s hs
    simp only [run] at h
    cases hout : run call item s with
    | halted why u => simp [hout, Outcome.andThen] at h
    | failed u => simp [hout, Outcome.andThen] at h
    | matched u =>
      have hu := hitem s u hs hout
      rw [hout] at hfirst h
      obtain ⟨count, tokens, -, rfl⟩ := hfirst
      refine hR.trans _ _ _ hu (iterate_related hR.toChains (fun v w hvw => by simp [stall] at hvw)
        (fun v hv => separated_tidy hv (run_tidy hR.tidy separator v hv) (run_tidy hR.tidy item)) ?_ _ _ t
        (hs.past count tokens) h)
      intro v w hv hvw
      have hstep := run_tidy hR.tidy separator v hv
      cases hout : run call separator v with
      | halted why x => simp [hout, Outcome.andThen] at hvw
      | failed x => simp [hout, Outcome.andThen] at hvw
      | matched x =>
        have hx := hsep v x hv hout
        rw [hout] at hstep hvw
        obtain ⟨count, tokens, -, rfl⟩ := hstep
        simp only [Outcome.andThen] at hvw
        cases hlast : run call item (v.past count tokens) with
        | halted why y => simp [hlast, Outcome.orElse] at hvw
        | failed y => simp [hlast, Outcome.orElse] at hvw
        | matched y =>
          obtain rfl : y = w := by simpa [hlast, Outcome.orElse] using hvw
          exact hR.trans _ _ _ hx (hitem _ y (hv.past count tokens) hlast)
  | .optional rule, hp, s, t, hs, h => by
    have hone := run_tidy hR.tidy rule s hs
    simp only [run] at h
    cases hout : run call rule s with
    | halted why u => simp [hout, Outcome.orElse] at h
    | matched u =>
      obtain rfl : u = t := by simpa [hout, Outcome.orElse] using h
      exact run_related hR rule hp s u hs hout
    | failed u =>
      rw [hout] at hone
      obtain rfl : u = s := hone
      obtain rfl : u = t := by simpa [hout, Outcome.orElse] using h
      exact hR.refl u
  | .many rule, hp, s, t, hs, h =>
    iterate_related hR.toChains (fun u v huv => by simpa using huv.symm)
      (fun u hu => run_tidy hR.tidy rule u hu) (run_related hR rule hp) _ s t hs h
  | .peek rule negate, _, s, t, hs, h => by
    rw [lookAhead_matched (run_tidy hR.tidy rule s hs) h]
    exact hR.refl s
  | .required rule expected, hp, s, t, hs, h => by
    simp only [run, demand] at h
    cases hout : run call rule s with
    | halted why u => simp [hout, Outcome.orElse] at h
    | failed u => simp [hout, Outcome.orElse] at h
    | matched u =>
      obtain rfl : u = t := by simpa [hout, Outcome.orElse] using h
      exact run_related hR rule hp s u hs hout

theorem runFirst_related (hR : Relates R levels call) : ∀ (rules : List (Rule ν)),
    (∀ p ∈ primitivesOfAll rules, ∀ s t, run call p s = .matched t → R s t) →
    ∀ s t, s.HasRoom levels → runFirst call rules s = .matched t → R s t
  | [], _, s, t, _, h => by simp [runFirst] at h
  | rule :: rest, hp, s, t, hs, h => by
    have hone := run_tidy hR.tidy rule s hs
    simp only [runFirst] at h
    cases hout : run call rule s with
    | halted why u => simp [hout, Outcome.orElse] at h
    | matched u =>
      obtain rfl : u = t := by simpa [hout, Outcome.orElse] using h
      exact run_related hR rule (fun p hmem => hp p (List.mem_append_left _ hmem)) s u hs hout
    | failed u =>
      rw [hout] at hone h
      obtain rfl : u = s := hone
      exact runFirst_related hR rest (fun p hmem => hp p (List.mem_append_right _ hmem)) u t hs h

theorem runNth_related (hR : Relates R levels call) : ∀ (rules : List (Rule ν)),
    (∀ p ∈ primitivesOfAll rules, ∀ s t, run call p s = .matched t → R s t) →
    ∀ index s t, s.HasRoom levels → runNth call rules index s = .matched t → R s t
  | [], _, index, s, t, _, h => by simp [runNth] at h
  | rule :: _, hp, 0, s, t, hs, h =>
    run_related hR rule (fun p hmem => hp p (List.mem_append_left _ hmem)) s t hs h
  | _ :: rest, hp, n + 1, s, t, hs, h =>
    runNth_related hR rest (fun p hmem => hp p (List.mem_append_right _ hmem)) n s t hs h

theorem runAll_related (hR : Relates R levels call) : ∀ (rules : List (Rule ν)),
    (∀ p ∈ primitivesOfAll rules, ∀ s t, run call p s = .matched t → R s t) →
    ∀ m s t, s.HasRoom levels → runAll call m rules s = .matched t → R s t
  | [], _, m, s, t, _, h => by
    obtain rfl : s = t := by simpa [runAll] using h
    exact hR.refl s
  | rule :: rest, hp, m, s, t, hs, h => by
    have hone := run_tidy hR.tidy rule s hs
    simp only [runAll] at h
    cases hout : run call rule s with
    | halted why u => simp [hout] at h
    | failed u => simp [hout] at h
    | matched u =>
      have hu := run_related hR rule (fun p hmem => hp p (List.mem_append_left _ hmem)) s u hs hout
      rw [hout] at hone h
      obtain ⟨count, tokens, -, rfl⟩ := hone
      exact hR.trans _ _ _ hu (runAll_related hR rest
        (fun p hmem => hp p (List.mem_append_right _ hmem)) m _ t (hs.past count tokens) h)

end

end Related

/-- What holds of the matches of the primitive rules of a grammar, wherever nonterminals lead,
holds of its matches. -/
theorem runWithin_related {R : State → State → Prop} (hR : Chains R) (body : ν → Rule ν)
    (henter : ∀ s t, R s.enter.2 t → R s t.leave)
    (hbody : ∀ name, ∀ p ∈ (body name).primitives, ∀ call s t,
      run call p s = .matched t → R s t) :
    ∀ (levels : Nat) (rule : Rule ν), (∀ p ∈ rule.primitives, ∀ call s t,
      run call p s = .matched t → R s t) →
      ∀ s t, s.HasRoom levels → runWithin body levels rule s = .matched t → R s t := by
  intro levels
  induction levels with
  | zero =>
    intro rule hp s t hs h
    have htidy : ∀ (name : ν) (s : State), s.HasRoom 0 → (refuse s).Tidy (fun _ => True) s :=
      fun _ _ _ => trivial
    have hnone : Relates R 0 fun (_ : ν) s => refuse s :=
      ⟨hR, htidy, fun _ s t _ h => by simp [refuse] at h⟩
    exact run_related hnone rule (fun p hmem => hp p hmem _) s t hs h
  | succ levels ih =>
    intro rule hp s t hs h
    have htidy : ∀ name (s : State), s.HasRoom (levels + 1) →
        ((runWithin body levels (body name) s.enter.2).mapState .leave).Tidy (fun _ => True) s :=
      fun name s hs =>
        (runWithin_tidy body (levels + 1) (.nonterminal name) s hs).mono fun _ _ => trivial
    refine run_related ⟨hR, htidy, ?_⟩ rule (fun p hmem => hp p hmem _) s t hs h
    · intro name s t hs h
      have hroom : s.enter.2.HasRoom levels := by
        rw [enter_of_room hs]
        simp only [State.HasRoom] at hs ⊢
        omega
      cases hout : runWithin body levels (body name) s.enter.2 with
      | halted why u => simp [hout, Outcome.mapState] at h
      | failed u => simp [hout, Outcome.mapState] at h
      | matched u =>
        obtain rfl : u.leave = t := by simpa [hout, Outcome.mapState] using h
        exact henter s u (ih (body name) (hbody name) _ u hroom hout)

end LinkQuery.Rule
