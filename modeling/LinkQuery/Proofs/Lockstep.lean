import LinkQuery.Proofs.Acceptance
/-!
# Matches in lockstep

Two matches of one rule, from two states that are related, take the same alternatives and end in
related states, if each single token does. Only a halt that is excused may set them apart: then the
first match ends there, and nothing is said about the second.

Main statements:
- `Rule.run_inStep`: from the tokens of a rule to the rule, given the nonterminals.
- `Rule.runWithin_inStep`: from the tokens of a grammar to its matches.
-/
namespace LinkQuery.Rule

variable {ν : Type}

/-! ## Tokens of a rule -/

/-- A rule that reads one token. -/
inductive TokenRule where
  | literal (text : String) (logged : Bool)
  | keyword (text : String)
  | word
  | number
  | quoted

/-- Reads one token. -/
def TokenRule.read : TokenRule → State → Outcome
  | .literal text logged, s => s.literal text logged
  | .keyword text, s => s.keyword text
  | .word, s => s.name
  | .number, s => s.number
  | .quoted, s => s.quotedText

mutual

/-- The tokens that a rule may read itself, those that are looked ahead to or not logged included. -/
def tokenRules : Rule ν → List TokenRule
  | .literal text logged => [.literal text logged]
  | .keyword text => [.keyword text]
  | .word => [.word]
  | .number => [.number]
  | .quoted => [.quoted]
  | .choice rules => tokenRulesOfAll rules
  | .longest rules => tokenRulesOfAll rules
  | .sequence rules => tokenRulesOfAll rules
  | .list item separator => tokenRules item ++ tokenRules separator
  | .optional rule => tokenRules rule
  | .many rule => tokenRules rule
  | .peek rule _ => tokenRules rule
  | .required rule _ => tokenRules rule
  | .silent rule => tokenRules rule
  | .action _ => []
  | .nonterminal _ => []

/-- The tokens that several rules may read themselves. -/
def tokenRulesOfAll : List (Rule ν) → List TokenRule
  | [] => []
  | rule :: rest => tokenRules rule ++ tokenRulesOfAll rest

end

/-! ## Related states -/

/--
A relation of two states that matches in lockstep keep. It is about the text in front of the
cursors and the logs, and not about how deeply nonterminals are entered.
-/
structure Lockstep (R : State → State → Prop) (excused : Halt → Prop) : Prop where
  /-- Loops have enough rounds. -/
  left : ∀ {s s'}, R s s' → s.rest.length ≤ s.remaining ∧ s'.rest.length ≤ s'.remaining
  /-- One alternative ends behind another in both matches or in none. -/
  order : ∀ {s s' t t'}, R s s' → R t t' → (s.cursor < t.cursor ↔ s'.cursor < t'.cursor)
  discard : ∀ {s s' count count' tokens tokens'}, R s s' →
    R (s.past count tokens) (s'.past count' tokens') → R (s.past count []) (s'.past count' [])
  marker : ∀ {s s'} (m : Marker), R s s' →
    R (s.past 0 [.ofMarker m s.cursor]) (s'.past 0 [.ofMarker m s'.cursor])
  depth : ∀ {s s'} (depth depth' : Nat), R s s' →
    R { s with depth := depth } { s' with depth := depth' }
  /-- Both matches halt in the same way, unless the first is excused. -/
  halt : ∀ {s s'} (cause : HaltCause), R s s' →
    (excused ⟨s.cursor, cause⟩ ∨ s'.cursor = s.cursor) ∧
    (excused ⟨s.skipBlanks.cursor, cause⟩ ∨ s'.skipBlanks.cursor = s.skipBlanks.cursor)
  /-- A halt at the nesting limit is excused. -/
  limit : ∀ {s s'}, R s s' → excused ⟨s.cursor, .nestingLimit s.maxDepth⟩

/-- Related states with room for nonterminals. -/
structure RelatedWithin (R : State → State → Prop) (levels levels' : Nat) (s s' : State) : Prop where
  related : R s s'
  room : s.HasRoom levels
  room' : s'.HasRoom levels'

namespace Outcome

/-- The outcomes of a rule from two states, when the matches are in lockstep. -/
inductive InStep (R : State → State → Prop) (excused : Halt → Prop) (s s' : State) :
    Outcome → Outcome → Prop
  | matched {count count' : Nat} {tokens tokens' : List Token}
    (h : R (s.past count tokens) (s'.past count' tokens')) :
    InStep R excused s s' (.matched (s.past count tokens)) (.matched (s'.past count' tokens'))
  | failed : InStep R excused s s' (.failed s) (.failed s')
  | halted {why : Halt} {t : State} {o : Outcome} (h : excused why ∨ ∃ t', o = .halted why t') :
    InStep R excused s s' (.halted why t) o

namespace InStep

variable {R : State → State → Prop} {excused : Halt → Prop} {s s' : State} {o o' : Outcome}

theorem nothing (h : R s s') : InStep R excused s s' (.matched s) (.matched s') := by
  have hnone : InStep R excused s s' (.matched (s.past 0 [])) (.matched (s'.past 0 [])) := by
    refine .matched ?_
    rwa [State.past_zero, State.past_zero]
  rwa [State.past_zero, State.past_zero] at hnone

/-- A halt in the second match where the first halts. -/
theorem stopped {why why' : Halt} {t t' : State} (h : excused why ∨ why' = why) :
    InStep R excused s s' (.halted why t) (.halted why' t') := by
  refine .halted (h.imp_right ?_)
  intro hwhy
  rw [hwhy]
  exact ⟨t', rfl⟩

/-- What is done with an outcome that halts does not matter if it halts as well. -/
theorem haltedBy {why : Halt} {t : State} (f : Outcome → Outcome)
    (hf : ∀ t, f (.halted why t) = .halted why t)
    (h : excused why ∨ ∃ t', o = .halted why t') :
    InStep R excused s s' (.halted why t) (f o) := by
  refine .halted (h.imp_right ?_)
  rintro ⟨t', ho⟩
  rw [ho, hf]
  exact ⟨t', rfl⟩

theorem orElse {next next' : State → Outcome} (h : InStep R excused s s' o o')
    (hnext : InStep R excused s s' (next s) (next' s')) :
    InStep R excused s s' (o.orElse next) (o'.orElse next') := by
  cases h with
  | matched h => exact .matched h
  | failed => exact hnext
  | halted h => exact haltedBy (·.orElse next') (fun _ => rfl) h

variable (hR : Lockstep R excused) (hs : R s s')
include hR hs

theorem demand (h : InStep R excused s s' o o') (expected : String) :
    InStep R excused s s' (Rule.demand expected o) (Rule.demand expected o') := by
  refine h.orElse (stopped ?_)
  refine (hR.halt (.required expected) hs).2.imp_right ?_
  intro hcursor
  rw [hcursor]

omit hR in
theorem lookAhead (h : InStep R excused s s' o o') (negate : Bool) :
    InStep R excused s s' (Rule.lookAhead negate s.mark o) (Rule.lookAhead negate s'.mark o') := by
  cases h with
  | matched =>
    cases negate with
    | true =>
      simp only [Rule.lookAhead, if_true, State.past_reset]
      exact .failed
    | false =>
      simp only [Rule.lookAhead, Bool.false_eq_true, if_false, State.past_reset]
      exact nothing hs
  | failed =>
    cases negate with
    | true =>
      simp only [Rule.lookAhead, if_true, State.reset_mark]
      exact nothing hs
    | false =>
      simp only [Rule.lookAhead, Bool.false_eq_true, if_false, State.reset_mark]
      exact .failed
  | halted h => exact haltedBy (Rule.lookAhead negate s'.mark) (fun _ => rfl) h

theorem silent (h : InStep R excused s s' o o') :
    InStep R excused s s' (o.andThen fun t => .matched (t.discardSince s.mark))
      (o'.andThen fun t => .matched (t.discardSince s'.mark)) := by
  cases h with
  | matched h =>
    simp only [Outcome.andThen, State.past_discardSince]
    exact .matched (hR.discard hs h)
  | failed => exact .failed
  | halted h => exact haltedBy (·.andThen _) (fun _ => rfl) h

omit hR hs in
/-- What two matches do behind a first part, if a failure goes back in front of it. -/
theorem behind {count count' : Nat} {tokens tokens' : List Token}
    (h : InStep R excused (s.past count tokens) (s'.past count' tokens') o o') :
    InStep R excused s s' (o.orElse fun u => .failed (u.reset s.mark))
      (o'.orElse fun u => .failed (u.reset s'.mark)) := by
  cases h with
  | matched h =>
    simp only [Outcome.orElse, State.past_past] at h ⊢
    exact .matched h
  | failed =>
    simp only [Outcome.orElse, State.past_reset]
    exact .failed
  | halted h => exact haltedBy (·.orElse _) (fun _ => rfl) h

end InStep

end Outcome

/-! ## Repetitions -/

namespace Lockstep

variable {R : State → State → Prop} {excused : Halt → Prop} (hR : Lockstep R excused)
include hR

/-- The cursor has moved in both matches or in none. -/
theorem moved {s s' : State} {count count' : Nat} {tokens tokens' : List Token} (hs : R s s')
    (ht : R (s.past count tokens) (s'.past count' tokens')) :
    (s.past count tokens).cursor = s.cursor ↔ (s'.past count' tokens').cursor = s'.cursor := by
  have hone := hR.order hs ht
  have hback := hR.order ht hs
  omega

end Lockstep

theorem rest_of_moved {s : State} {count : Nat} {tokens : List Token}
    (h : (s.past count tokens).cursor ≠ s.cursor) :
    (s.past count tokens).rest.length < s.rest.length := by
  simp only [State.past, State.advance, List.length_take, List.length_drop] at h ⊢
  omega

section Repetitions

variable {R : State → State → Prop} {excused : Halt → Prop} {levels levels' : Nat}

theorem RelatedWithin.past {s s' : State} {count count' : Nat} {tokens tokens' : List Token}
    (h : RelatedWithin R levels levels' s s')
    (ht : R (s.past count tokens) (s'.past count' tokens')) :
    RelatedWithin R levels levels' (s.past count tokens) (s'.past count' tokens') :=
  ⟨ht, h.room.past count tokens, h.room'.past count' tokens'⟩

/-- What happens when a round of a loop consumes nothing is in lockstep. -/
theorem stall_inStep (hR : Lockstep R excused) {s s' t t' : State} (h : R t t') :
    Outcome.InStep R excused s s' (stall t) (stall t') := by
  refine Outcome.InStep.stopped ?_
  refine (hR.halt .stalled h).1.imp_right ?_
  intro hcursor
  rw [hcursor]

variable {onStall step step' : State → Outcome}

/-- A loop, behind what it has read so far. -/
theorem iterate_inStep (hR : Lockstep R excused)
    (hstall : ∀ {s s' count count' tokens tokens'},
      R (s.past count tokens) (s'.past count' tokens') → Outcome.InStep R excused s s'
        (onStall (s.past count tokens)) (onStall (s'.past count' tokens')))
    (hstep : ∀ s s', RelatedWithin R levels levels' s s' →
      Outcome.InStep R excused s s' (step s) (step' s')) :
    ∀ (fuel fuel' : Nat) {s s' : State} {count count' : Nat} {tokens tokens' : List Token},
      RelatedWithin R levels levels' (s.past count tokens) (s'.past count' tokens') →
      (s.past count tokens).rest.length < fuel → (s'.past count' tokens').rest.length < fuel' →
      Outcome.InStep R excused s s' (iterate onStall step fuel (s.past count tokens))
        (iterate onStall step' fuel' (s'.past count' tokens')) := by
  intro fuel
  induction fuel with
  | zero =>
    intro fuel' s s' count count' tokens tokens' _ hfuel
    exact absurd hfuel (Nat.not_lt_zero _)
  | succ fuel ih =>
    intro fuel' s s' count count' tokens tokens' hs hfuel hfuel'
    cases fuel' with
    | zero => exact absurd hfuel' (Nat.not_lt_zero _)
    | succ fuel' =>
      have hone := hstep _ _ hs
      simp only [iterate]
      generalize step (s.past count tokens) = o at hone
      generalize step' (s'.past count' tokens') = o' at hone
      cases hone with
      | failed => exact .matched hs.related
      | halted h =>
        refine .halted (h.imp_right ?_)
        rintro ⟨t', ho⟩
        rw [ho]
        exact ⟨t', rfl⟩
      | @matched more more' later later' h =>
        have hmoved := hR.moved hs.related h
        have hnext := hs.past h
        by_cases hstays : ((s.past count tokens).past more later).cursor =
          (s.past count tokens).cursor
        · simp only [if_pos hstays, if_pos (hmoved.mp hstays)]
          rw [State.past_past, State.past_past] at h ⊢
          exact hstall h
        · have hstays' := mt hmoved.mpr hstays
          simp only [if_neg hstays, if_neg hstays']
          have hshort := rest_of_moved hstays
          have hshort' := rest_of_moved hstays'
          rw [State.past_past, State.past_past] at hnext
          simp only [State.past_past] at hshort hshort' ⊢
          exact ih fuel' hnext (by omega) (by omega)

end Repetitions

/-! ## Rules -/

section Run

variable {R : State → State → Prop} {excused : Halt → Prop} {levels levels' : Nat}
  {call call' : ν → State → Outcome}

/-- The best alternatives so far are the same, and they end in related states. -/
inductive BestInStep (R : State → State → Prop) : Option Best → Option Best → Prop
  | none : BestInStep R none none
  | some {index : Nat} {t t' : State} (h : R t t') :
    BestInStep R (some ⟨index, t.cursor⟩) (some ⟨index, t'.cursor⟩)

theorem BestInStep.improve (hR : Lockstep R excused) {best best' : Option Best} {t t' : State}
    (index : Nat) (h : BestInStep R best best') (ht : R t t') :
    BestInStep R (Best.improve best index t.cursor) (Best.improve best' index t'.cursor) := by
  cases h with
  | none => exact .some ht
  | @some old u u' hold =>
    have horder := hR.order hold ht
    simp only [Best.improve]
    by_cases hless : u'.cursor < t'.cursor
    · rw [if_pos hless, if_pos (horder.mpr hless)]
      exact .some ht
    · rw [if_neg hless, if_neg (mt horder.mp hless)]
      exact .some hold

/-- The outcomes of trying all alternatives from two states. -/
inductive EachInStep (R : State → State → Prop) (excused : Halt → Prop) (s s' : State) :
    Except (Halt × State) (Option Best × State) → Except (Halt × State) (Option Best × State) → Prop
  | tried {best best' : Option Best} (h : BestInStep R best best') :
    EachInStep R excused s s' (.ok (best, s)) (.ok (best', s'))
  | halted {why : Halt} {t : State} {o : Except (Halt × State) (Option Best × State)}
    (h : excused why ∨ ∃ t', o = .error (why, t')) :
    EachInStep R excused s s' (.error (why, t)) o

/-- The relation is one for lockstep, and the nonterminals are matched so. -/
structure CallsInStep (R : State → State → Prop) (excused : Halt → Prop) (levels levels' : Nat)
    (call call' : ν → State → Outcome) : Prop extends Lockstep R excused where
  name : ∀ name s s', RelatedWithin R levels levels' s s' →
    Outcome.InStep R excused s s' (call name s) (call' name s')

/-- Each of the tokens is read in lockstep. -/
def TokensInStep (R : State → State → Prop) (excused : Halt → Prop) (tokens : List TokenRule) :
    Prop :=
  ∀ token ∈ tokens, ∀ s s', R s s' → Outcome.InStep R excused s s' (token.read s) (token.read s')

theorem TokensInStep.split {a b : List TokenRule} (h : TokensInStep R excused (a ++ b)) :
    TokensInStep R excused a ∧ TokensInStep R excused b := by
  constructor
  · intro token htoken
    exact h token (List.mem_append_left b htoken)
  · intro token htoken
    exact h token (List.mem_append_right a htoken)

theorem TokensInStep.one {token : TokenRule} (h : TokensInStep R excused [token]) {s s' : State}
    (hs : R s s') : Outcome.InStep R excused s s' (token.read s) (token.read s') :=
  h token (List.mem_singleton_self token) s s' hs

mutual

/-- Two matches of a rule are in lockstep when its tokens and the nonterminals are. -/
theorem run_inStep (hR : CallsInStep R excused levels levels' call call') :
    ∀ rule : Rule ν, TokensInStep R excused rule.tokenRules →
    ∀ {s s' : State}, RelatedWithin R levels levels' s s' →
      Outcome.InStep R excused s s' (run call rule s) (run call' rule s')
  | .literal text logged, ht, _, _, hs => ht.one hs.related
  | .keyword text, ht, _, _, hs => ht.one hs.related
  | .word, ht, _, _, hs => ht.one hs.related
  | .number, ht, _, _, hs => ht.one hs.related
  | .quoted, ht, _, _, hs => ht.one hs.related
  | .choice rules, ht, _, _, hs => runFirst_inStep hR rules ht hs
  | .longest rules, ht, s, s', hs => by
    have heach := runEach_inStep hR rules ht hs 0 .none
    simp only [run]
    generalize runEach call s.mark rules 0 none s = found at heach
    generalize runEach call' s'.mark rules 0 none s' = found' at heach
    cases heach with
    | tried h =>
      cases h with
      | none => exact .failed
      | some => exact runNth_inStep hR rules ht _ hs
    | halted h =>
      refine .halted (h.imp_right ?_)
      rintro ⟨t', ho⟩
      rw [ho]
      exact ⟨t', rfl⟩
  | .sequence rules, ht, s, s', hs => by
    have hstart : RelatedWithin R levels levels' (s.past 0 []) (s'.past 0 []) := by
      rwa [State.past_zero, State.past_zero]
    have hall := runAll_inStep hR rules ht hstart
    rwa [State.past_zero, State.past_zero] at hall
  | .list item separator, ht, s, s', hs => by
    obtain ⟨hitem, hseparator⟩ := ht.split
    have hfirst := run_inStep hR item hitem hs
    simp only [run]
    generalize run call item s = o at hfirst
    generalize run call' item s' = o' at hfirst
    cases hfirst with
    | failed => exact .failed
    | halted h => exact .haltedBy (·.andThen _) (fun _ => rfl) h
    | matched h =>
      have hleft := hR.left h
      refine iterate_inStep hR.toLockstep (fun hu => stall_inStep hR.toLockstep hu) ?_ _ _
        (hs.past h) (by omega) (by omega)
      intro t t' hts
      have hone := run_inStep hR separator hseparator hts
      generalize run call separator t = o at hone
      generalize run call' separator t' = o' at hone
      cases hone with
      | failed => exact .failed
      | halted h => exact .haltedBy (·.andThen _) (fun _ => rfl) h
      | matched h => exact (run_inStep hR item hitem (hts.past h)).behind
  | .optional rule, ht, _, _, hs => (run_inStep hR rule ht hs).orElse (.nothing hs.related)
  | .many rule, ht, s, s', hs => by
    have hleft := hR.left hs.related
    have hstart : RelatedWithin R levels levels' (s.past 0 []) (s'.past 0 []) := by
      rwa [State.past_zero, State.past_zero]
    have hall := iterate_inStep hR.toLockstep (fun h => .matched h)
      (fun t t' hts => run_inStep hR rule ht hts) (s.remaining + 1) (s'.remaining + 1) hstart
      (by rw [State.past_zero]; omega) (by rw [State.past_zero]; omega)
    rwa [State.past_zero, State.past_zero] at hall
  | .peek rule negate, ht, _, _, hs => (run_inStep hR rule ht hs).lookAhead hs.related negate
  | .required rule expected, ht, _, _, hs =>
    (run_inStep hR rule ht hs).demand hR.toLockstep hs.related expected
  | .silent rule, ht, _, _, hs => (run_inStep hR rule ht hs).silent hR.toLockstep hs.related
  | .action m, _, s, s', hs => by
    simp only [run, State.pushMarker_eq_past]
    exact .matched (hR.marker m hs.related)
  | .nonterminal name, _, _, _, hs => hR.name name _ _ hs

theorem runFirst_inStep (hR : CallsInStep R excused levels levels' call call') :
    ∀ rules : List (Rule ν), TokensInStep R excused (tokenRulesOfAll rules) →
    ∀ {s s' : State}, RelatedWithin R levels levels' s s' →
      Outcome.InStep R excused s s' (runFirst call rules s) (runFirst call' rules s')
  | [], _, _, _, _ => .failed
  | rule :: rest, ht, _, _, hs =>
    (run_inStep hR rule ht.split.1 hs).orElse (runFirst_inStep hR rest ht.split.2 hs)

theorem runNth_inStep (hR : CallsInStep R excused levels levels' call call') :
    ∀ rules : List (Rule ν), TokensInStep R excused (tokenRulesOfAll rules) →
    ∀ (index : Nat) {s s' : State}, RelatedWithin R levels levels' s s' →
      Outcome.InStep R excused s s' (runNth call rules index s) (runNth call' rules index s')
  | [], _, _, _, _, _ => .failed
  | rule :: _, ht, 0, _, _, hs => run_inStep hR rule ht.split.1 hs
  | _ :: rest, ht, index + 1, _, _, hs => runNth_inStep hR rest ht.split.2 index hs

/-- All alternatives, behind the best so far. -/
theorem runEach_inStep (hR : CallsInStep R excused levels levels' call call') :
    ∀ rules : List (Rule ν), TokensInStep R excused (tokenRulesOfAll rules) →
    ∀ {s s' : State}, RelatedWithin R levels levels' s s' →
    ∀ (index : Nat) {best best' : Option Best}, BestInStep R best best' →
      EachInStep R excused s s' (runEach call s.mark rules index best s)
        (runEach call' s'.mark rules index best' s')
  | [], _, _, _, _, _, _, _, hbest => .tried hbest
  | rule :: rest, ht, s, s', hs, index, best, best', hbest => by
    have hone := run_inStep hR rule ht.split.1 hs
    simp only [runEach]
    generalize run call rule s = o at hone
    generalize run call' rule s' = o' at hone
    cases hone with
    | matched h =>
      simp only [State.past_reset]
      exact runEach_inStep hR rest ht.split.2 hs (index + 1) (hbest.improve hR.toLockstep index h)
    | failed =>
      simp only [State.reset_mark]
      exact runEach_inStep hR rest ht.split.2 hs (index + 1) hbest
    | halted h =>
      refine .halted (h.imp_right ?_)
      rintro ⟨t', ho⟩
      rw [ho]
      exact ⟨t', rfl⟩

/-- The rules of a sequence, behind what has been read since the mark. -/
theorem runAll_inStep (hR : CallsInStep R excused levels levels' call call') :
    ∀ rules : List (Rule ν), TokensInStep R excused (tokenRulesOfAll rules) →
    ∀ {s s' : State} {count count' : Nat} {tokens tokens' : List Token},
      RelatedWithin R levels levels' (s.past count tokens) (s'.past count' tokens') →
      Outcome.InStep R excused s s' (runAll call s.mark rules (s.past count tokens))
        (runAll call' s'.mark rules (s'.past count' tokens'))
  | [], _, _, _, _, _, _, _, hs => .matched hs.related
  | rule :: rest, ht, s, s', count, count', tokens, tokens', hs => by
    have hone := run_inStep hR rule ht.split.1 hs
    simp only [runAll]
    generalize run call rule (s.past count tokens) = o at hone
    generalize run call' rule (s'.past count' tokens') = o' at hone
    cases hone with
    | matched h =>
      have hnext := hs.past h
      simp only [State.past_past] at hnext ⊢
      exact runAll_inStep hR rest ht.split.2 hnext
    | failed =>
      simp only [State.past_reset]
      exact .failed
    | halted h =>
      refine .halted (h.imp_right ?_)
      rintro ⟨t', ho⟩
      rw [ho]
      exact ⟨t', rfl⟩

end

end Run

/-! ## Grammars -/

section Grammar

variable {R : State → State → Prop} {excused : Halt → Prop} {body : ν → Rule ν}

theorem RelatedWithin.enter (hR : Lockstep R excused) {levels levels' : Nat} {s s' : State}
    (hs : RelatedWithin R (levels + 1) (levels' + 1) s s') :
    RelatedWithin R levels levels' s.enter.2 s'.enter.2 := by
  have hroom := hs.room
  have hroom' := hs.room'
  rw [enter_of_room hroom, enter_of_room hroom']
  refine ⟨hR.depth _ _ hs.related, ?_, ?_⟩
  · simp only [State.HasRoom] at hroom ⊢
    omega
  · simp only [State.HasRoom] at hroom' ⊢
    omega

/-- Leaving a nonterminal restores the depth. -/
theorem enter_past_leave {levels : Nat} {s : State} (hs : s.HasRoom (levels + 1)) (count : Nat)
    (tokens : List Token) : (s.enter.2.past count tokens).leave = s.past count tokens := by
  rw [enter_of_room hs]
  simp [State.leave, State.past, State.advance]

theorem Outcome.InStep.leave (hR : Lockstep R excused) {levels levels' : Nat} {s s' : State}
    {o o' : Outcome} (hroom : s.HasRoom (levels + 1)) (hroom' : s'.HasRoom (levels' + 1))
    (h : InStep R excused s.enter.2 s'.enter.2 o o') :
    InStep R excused s s' (o.mapState .leave) (o'.mapState .leave) := by
  cases h with
  | matched h =>
    simp only [Outcome.mapState]
    have hleft := hR.depth s.depth s'.depth h
    rw [enter_past_leave hroom, enter_past_leave hroom']
    refine .matched ?_
    rwa [enter_of_room hroom, enter_of_room hroom'] at hleft
  | failed =>
    have hback := enter_past_leave hroom 0 []
    have hback' := enter_past_leave hroom' 0 []
    simp only [State.past_zero] at hback hback'
    simp only [Outcome.mapState, hback, hback']
    exact .failed
  | halted h =>
    refine .halted (h.imp_right ?_)
    rintro ⟨t', ho⟩
    rw [ho]
    exact ⟨_, rfl⟩

/-- Two matches of a grammar are in lockstep when its tokens are, and the second has at least as
many levels. -/
theorem runWithin_inStep (hR : Lockstep R excused)
    (hbody : ∀ name, TokensInStep R excused (body name).tokenRules) :
    ∀ (levels levels' : Nat), levels ≤ levels' → ∀ rule : Rule ν,
      TokensInStep R excused rule.tokenRules → ∀ {s s' : State},
      RelatedWithin R levels levels' s s' → Outcome.InStep R excused s s'
        (runWithin body levels rule s) (runWithin body levels' rule s') := by
  intro levels
  induction levels with
  | zero =>
    intro levels' _ rule ht s s' hs
    rw [runWithin_eq, runWithin_eq]
    refine run_inStep ⟨hR, ?_⟩ rule ht hs
    intro name t t' hts
    exact .halted (Or.inl (hR.limit hts.related))
  | succ levels ih =>
    intro levels' hle rule ht s s' hs
    cases levels' with
    | zero => exact absurd hle (Nat.not_succ_le_zero _)
    | succ levels' =>
      refine run_inStep ⟨hR, ?_⟩ rule ht hs
      intro name t t' hts
      have hname := ih levels' (Nat.le_of_succ_le_succ hle) (body name) (hbody name) (hts.enter hR)
      exact hname.leave hR hts.room hts.room'

end Grammar

end LinkQuery.Rule
