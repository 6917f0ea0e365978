import LinkQuery.Proofs.Matching
/-!
# Runs

`Runs` says how a rule is matched without counting rounds or levels: a loop goes round as long as
its round matches, and a nonterminal is refused only where the state is at its nesting limit. A
round that is followed by another has to consume input, so a run cannot go on for ever, and no run
ends because a loop has no rounds left.

Main statements:
- `Rule.Runs.unique`: a run has one outcome.
- `Rule.Runs.notStalled`: the outcome is not a loop that has come to a standstill.
-/
namespace LinkQuery

namespace Rule

variable {ν : Type}

/-! ## Runs -/

mutual

/-- Matching the rule from the state leads to the outcome. -/
inductive Runs (body : ν → Rule ν) : Rule ν → State → Outcome → Prop
  | literal {text logged s} : Runs body (.literal text logged) s (s.literal text logged)
  | keyword {text s} : Runs body (.keyword text) s (s.keyword text)
  | word {s} : Runs body .word s s.name
  | number {s} : Runs body .number s s.number
  | quoted {s} : Runs body .quoted s s.quotedText
  | choice {rules s o} (h : RunsFirst body rules s o) : Runs body (.choice rules) s o
  | longestHalted {rules s why t} (h : RunsEach body s.mark rules 0 none s (.error (why, t))) :
    Runs body (.longest rules) s (.halted why t)
  | longestFailed {rules s t} (h : RunsEach body s.mark rules 0 none s (.ok (none, t))) :
    Runs body (.longest rules) s (.failed t)
  | longest {rules s best t o} (h : RunsEach body s.mark rules 0 none s (.ok (some best, t)))
    (hbest : RunsNth body rules best.index t o) : Runs body (.longest rules) s o
  | sequence {rules s o} (h : RunsAll body s.mark rules s o) : Runs body (.sequence rules) s o
  | list {item separator s t o} (hfirst : Runs body item s (.matched t))
    (h : RunsRounds body (.sequence [separator, item]) t o) : Runs body (.list item separator) s o
  | listFailed {item separator s t} (hfirst : Runs body item s (.failed t)) :
    Runs body (.list item separator) s (.failed t)
  | listHalted {item separator s why t} (hfirst : Runs body item s (.halted why t)) :
    Runs body (.list item separator) s (.halted why t)
  | optional {rule s o} (h : Runs body rule s o) :
    Runs body (.optional rule) s (o.orElse .matched)
  | many {rule s o} (h : RunsRounds body rule s o) : Runs body (.many rule) s o
  | peek {rule negate s o} (h : Runs body rule s o) :
    Runs body (.peek rule negate) s (lookAhead negate s.mark o)
  | required {rule expected s o} (h : Runs body rule s o) :
    Runs body (.required rule expected) s (demand expected o)
  | silent {rule s o} (h : Runs body rule s o) :
    Runs body (.silent rule) s (o.andThen fun t => .matched (t.discardSince s.mark))
  | action {m s} : Runs body (.action m) s (.matched (s.pushMarker m))
  | entered {name s o} (hroom : s.depth < s.maxDepth) (h : Runs body (body name) s.enter.2 o) :
    Runs body (.nonterminal name) s (o.mapState .leave)
  | refused {name s} (hfull : s.maxDepth ≤ s.depth) : Runs body (.nonterminal name) s (refuse s)

/-- Trying the alternatives in turn leads to the outcome. -/
inductive RunsFirst (body : ν → Rule ν) : List (Rule ν) → State → Outcome → Prop
  | none {s} : RunsFirst body [] s (.failed s)
  | matched {rule rest s t} (h : Runs body rule s (.matched t)) :
    RunsFirst body (rule :: rest) s (.matched t)
  | halted {rule rest s why t} (h : Runs body rule s (.halted why t)) :
    RunsFirst body (rule :: rest) s (.halted why t)
  | next {rule rest s t o} (h : Runs body rule s (.failed t)) (hrest : RunsFirst body rest t o) :
    RunsFirst body (rule :: rest) s o

/-- Trying every alternative from the mark leads to the best of them. -/
inductive RunsEach (body : ν → Rule ν) : Mark → List (Rule ν) → Nat → Option Best → State →
    Except (Halt × State) (Option Best × State) → Prop
  | none {m index best s} : RunsEach body m [] index best s (.ok (best, s))
  | matched {m rule rest index best s t o} (h : Runs body rule s (.matched t))
    (hrest : RunsEach body m rest (index + 1) (Best.improve best index t.cursor) (t.reset m) o) :
    RunsEach body m (rule :: rest) index best s o
  | failed {m rule rest index best s t o} (h : Runs body rule s (.failed t))
    (hrest : RunsEach body m rest (index + 1) best (t.reset m) o) :
    RunsEach body m (rule :: rest) index best s o
  | halted {m rule rest index best s why t} (h : Runs body rule s (.halted why t)) :
    RunsEach body m (rule :: rest) index best s (.error (why, t))

/-- Matching the alternative at an index leads to the outcome. -/
inductive RunsNth (body : ν → Rule ν) : List (Rule ν) → Nat → State → Outcome → Prop
  | none {index s} : RunsNth body [] index s (.failed s)
  | here {rule rest s o} (h : Runs body rule s o) : RunsNth body (rule :: rest) 0 s o
  | later {rule rest index s o} (h : RunsNth body rest index s o) :
    RunsNth body (rule :: rest) (index + 1) s o

/-- Matching the rules in order, with a mark to go back to, leads to the outcome. -/
inductive RunsAll (body : ν → Rule ν) : Mark → List (Rule ν) → State → Outcome → Prop
  | done {m s} : RunsAll body m [] s (.matched s)
  | next {m rule rest s t o} (h : Runs body rule s (.matched t)) (hrest : RunsAll body m rest t o) :
    RunsAll body m (rule :: rest) s o
  | failed {m rule rest s t} (h : Runs body rule s (.failed t)) :
    RunsAll body m (rule :: rest) s (.failed (t.reset m))
  | halted {m rule rest s why t} (h : Runs body rule s (.halted why t)) :
    RunsAll body m (rule :: rest) s (.halted why t)

/-- Going round with the rule as long as it matches, and consumes, leads to the outcome. -/
inductive RunsRounds (body : ν → Rule ν) : Rule ν → State → Outcome → Prop
  | more {rule s t o} (h : Runs body rule s (.matched t)) (hconsumes : s.cursor < t.cursor)
    (hrest : RunsRounds body rule t o) : RunsRounds body rule s o
  | done {rule s t} (h : Runs body rule s (.failed t)) : RunsRounds body rule s (.matched t)
  | halted {rule s why t} (h : Runs body rule s (.halted why t)) :
    RunsRounds body rule s (.halted why t)

end

/-! ### A run has one outcome -/

section Unique

variable {body : ν → Rule ν}

mutual

theorem Runs.unique {rule : Rule ν} {s : State} {o : Outcome} :
    Runs body rule s o → ∀ {o' : Outcome}, Runs body rule s o' → o' = o
  | .literal, _, h' => by cases h'; rfl
  | .keyword, _, h' => by cases h'; rfl
  | .word, _, h' => by cases h'; rfl
  | .number, _, h' => by cases h'; rfl
  | .quoted, _, h' => by cases h'; rfl
  | .action, _, h' => by cases h'; rfl
  | .choice h, _, h' => by
    cases h' with
    | choice hone => exact h.unique hone
  | .longestHalted h, _, h' => by
    cases h' with
    | longestHalted hone => cases h.unique hone; rfl
    | longestFailed hone => cases h.unique hone
    | longest hone _ => cases h.unique hone
  | .longestFailed h, _, h' => by
    cases h' with
    | longestHalted hone => cases h.unique hone
    | longestFailed hone => cases h.unique hone; rfl
    | longest hone _ => cases h.unique hone
  | .longest h hbest, _, h' => by
    cases h' with
    | longestHalted hone => cases h.unique hone
    | longestFailed hone => cases h.unique hone
    | longest hone hnth =>
      cases h.unique hone
      exact hbest.unique hnth
  | .sequence h, _, h' => by
    cases h' with
    | sequence hone => exact h.unique hone
  | .list hfirst h, _, h' => by
    cases h' with
    | list hone hrounds =>
      cases hfirst.unique hone
      exact h.unique hrounds
    | listFailed hone => cases hfirst.unique hone
    | listHalted hone => cases hfirst.unique hone
  | .listFailed hfirst, _, h' => by
    cases h' with
    | list hone _ => cases hfirst.unique hone
    | listFailed hone => exact hfirst.unique hone
    | listHalted hone => exact hfirst.unique hone
  | .listHalted hfirst, _, h' => by
    cases h' with
    | list hone _ => cases hfirst.unique hone
    | listFailed hone => exact hfirst.unique hone
    | listHalted hone => exact hfirst.unique hone
  | .optional h, _, h' => by
    cases h' with
    | optional hone => rw [h.unique hone]
  | .many h, _, h' => by
    cases h' with
    | many hone => exact h.unique hone
  | .peek h, _, h' => by
    cases h' with
    | peek hone => rw [h.unique hone]
  | .required h, _, h' => by
    cases h' with
    | required hone => rw [h.unique hone]
  | .silent h, _, h' => by
    cases h' with
    | silent hone => rw [h.unique hone]
  | .entered hroom h, _, h' => by
    cases h' with
    | entered _ hone => rw [h.unique hone]
    | refused hfull => omega
  | .refused hfull, _, h' => by
    cases h' with
    | entered hroom _ => omega
    | refused _ => rfl
termination_by structural h => h

theorem RunsFirst.unique {rules : List (Rule ν)} {s : State} {o : Outcome} :
    RunsFirst body rules s o → ∀ {o' : Outcome}, RunsFirst body rules s o' → o' = o
  | .none, _, h' => by cases h'; rfl
  | .matched h, _, h' => by
    cases h' with
    | matched hone => exact h.unique hone
    | halted hone => exact h.unique hone
    | next hone _ => cases h.unique hone
  | .halted h, _, h' => by
    cases h' with
    | matched hone => exact h.unique hone
    | halted hone => exact h.unique hone
    | next hone _ => cases h.unique hone
  | .next h hrest, _, h' => by
    cases h' with
    | matched hone => cases h.unique hone
    | halted hone => cases h.unique hone
    | next hone hmore =>
      cases h.unique hone
      exact hrest.unique hmore
termination_by structural h => h

theorem RunsEach.unique {m : Mark} {rules : List (Rule ν)} {index : Nat} {best : Option Best}
    {s : State} {o : Except (Halt × State) (Option Best × State)} :
    RunsEach body m rules index best s o →
      ∀ {o' : Except (Halt × State) (Option Best × State)},
        RunsEach body m rules index best s o' → o' = o
  | .none, _, h' => by cases h'; rfl
  | .matched h hrest, _, h' => by
    cases h' with
    | matched hone hmore =>
      cases h.unique hone
      exact hrest.unique hmore
    | failed hone _ => cases h.unique hone
    | halted hone => cases h.unique hone
  | .failed h hrest, _, h' => by
    cases h' with
    | matched hone _ => cases h.unique hone
    | failed hone hmore =>
      cases h.unique hone
      exact hrest.unique hmore
    | halted hone => cases h.unique hone
  | .halted h, _, h' => by
    cases h' with
    | matched hone _ => cases h.unique hone
    | failed hone _ => cases h.unique hone
    | halted hone => cases h.unique hone; rfl
termination_by structural h => h

theorem RunsNth.unique {rules : List (Rule ν)} {index : Nat} {s : State} {o : Outcome} :
    RunsNth body rules index s o → ∀ {o' : Outcome}, RunsNth body rules index s o' → o' = o
  | .none, _, h' => by cases h'; rfl
  | .here h, _, h' => by
    cases h' with
    | here hone => exact h.unique hone
  | .later h, _, h' => by
    cases h' with
    | later hone => exact h.unique hone
termination_by structural h => h

theorem RunsAll.unique {m : Mark} {rules : List (Rule ν)} {s : State} {o : Outcome} :
    RunsAll body m rules s o → ∀ {o' : Outcome}, RunsAll body m rules s o' → o' = o
  | .done, _, h' => by cases h'; rfl
  | .next h hrest, _, h' => by
    cases h' with
    | next hone hmore =>
      cases h.unique hone
      exact hrest.unique hmore
    | failed hone => cases h.unique hone
    | halted hone => cases h.unique hone
  | .failed h, _, h' => by
    cases h' with
    | next hone _ => cases h.unique hone
    | failed hone => cases h.unique hone; rfl
    | halted hone => cases h.unique hone
  | .halted h, _, h' => by
    cases h' with
    | next hone _ => cases h.unique hone
    | failed hone => cases h.unique hone
    | halted hone => exact h.unique hone
termination_by structural h => h

theorem RunsRounds.unique {rule : Rule ν} {s : State} {o : Outcome} :
    RunsRounds body rule s o → ∀ {o' : Outcome}, RunsRounds body rule s o' → o' = o
  | .more h _ hrest, _, h' => by
    cases h' with
    | more hone _ hmore =>
      cases h.unique hone
      exact hrest.unique hmore
    | done hone => cases h.unique hone
    | halted hone => cases h.unique hone
  | .done h, _, h' => by
    cases h' with
    | more hone _ _ => cases h.unique hone
    | done hone => cases h.unique hone; rfl
    | halted hone => cases h.unique hone
  | .halted h, _, h' => by
    cases h' with
    | more hone _ _ => cases h.unique hone
    | done hone => cases h.unique hone
    | halted hone => exact h.unique hone
termination_by structural h => h

end

end Unique

/-! ### A run never stalls -/

/-- The outcome is not that a loop has used up its rounds, or went on without consuming input. -/
def Outcome.NotStalled : Outcome → Prop
  | .halted why _ => why.cause ≠ .stalled
  | _ => True

section NotStalled

variable {body : ν → Rule ν}

theorem quotedText_notStalled (s : State) : s.quotedText.NotStalled := by
  simp only [State.quotedText]
  split
  · trivial
  · split
    · trivial
    · split
      · trivial
      · simp [Outcome.NotStalled]
      · simp [Outcome.NotStalled]

theorem Outcome.NotStalled.orElse {o : Outcome} {next : State → Outcome} (h : o.NotStalled)
    (hnext : ∀ t, (next t).NotStalled) : (o.orElse next).NotStalled := by
  cases o with
  | matched t => trivial
  | failed t => exact hnext t
  | halted why t => exact h

theorem lookAhead_notStalled {o : Outcome} (negate : Bool) (m : Mark) (h : o.NotStalled) :
    (lookAhead negate m o).NotStalled := by
  cases o with
  | matched t => cases negate <;> trivial
  | failed t => cases negate <;> trivial
  | halted why t => exact h

theorem tokens_notStalled (s : State) : (∀ text logged, (s.literal text logged).NotStalled) ∧
    (∀ text, (s.keyword text).NotStalled) ∧ s.name.NotStalled ∧ s.number.NotStalled := by
  refine ⟨fun text logged => ?_, fun text => ?_, ?_, ?_⟩
  · simp only [State.literal]
    split
    · split <;> trivial
    · trivial
  · simp only [State.keyword]
    split <;> trivial
  · simp only [State.name]
    split <;> trivial
  · simp only [State.number]
    split <;> trivial

mutual

theorem Runs.notStalled {rule : Rule ν} {s : State} {o : Outcome} :
    Runs body rule s o → o.NotStalled
  | .literal => (tokens_notStalled s).1 _ _
  | .keyword => (tokens_notStalled s).2.1 _
  | .word => (tokens_notStalled s).2.2.1
  | .number => (tokens_notStalled s).2.2.2
  | .quoted => quotedText_notStalled s
  | .choice h => h.notStalled
  | .longestHalted h => h.notStalled _ _ rfl
  | .longestFailed _ => trivial
  | .longest _ hbest => hbest.notStalled
  | .sequence h => h.notStalled
  | .list _ h => h.notStalled
  | .listFailed _ => trivial
  | .listHalted hfirst => hfirst.notStalled
  | .optional h => h.notStalled.orElse fun _ => trivial
  | .many h => h.notStalled
  | .peek h => lookAhead_notStalled _ _ h.notStalled
  | .required h => h.notStalled.orElse fun _ => by simp [Outcome.NotStalled]
  | .silent h => by
    have hone := h.notStalled
    revert hone
    cases ‹Outcome› <;> exact id
  | .action => trivial
  | .entered _ h => by
    have hone := h.notStalled
    revert hone
    cases ‹Outcome› <;> exact id
  | .refused _ => by simp [Outcome.NotStalled, refuse]
termination_by structural h => h

theorem RunsFirst.notStalled {rules : List (Rule ν)} {s : State} {o : Outcome} :
    RunsFirst body rules s o → o.NotStalled
  | .none => trivial
  | .matched _ => trivial
  | .halted h => h.notStalled
  | .next _ hrest => hrest.notStalled
termination_by structural h => h

theorem RunsEach.notStalled {m : Mark} {rules : List (Rule ν)} {index : Nat} {best : Option Best}
    {s : State} {o : Except (Halt × State) (Option Best × State)} :
    RunsEach body m rules index best s o → ∀ why t, o = .error (why, t) → why.cause ≠ .stalled
  | .none, _, _, ho => by cases ho
  | .matched _ hrest, why, t, ho => hrest.notStalled why t ho
  | .failed _ hrest, why, t, ho => hrest.notStalled why t ho
  | .halted h, _, _, ho => by
    cases ho
    exact h.notStalled
termination_by structural h => h

theorem RunsNth.notStalled {rules : List (Rule ν)} {index : Nat} {s : State} {o : Outcome} :
    RunsNth body rules index s o → o.NotStalled
  | .none => trivial
  | .here h => h.notStalled
  | .later h => h.notStalled
termination_by structural h => h

theorem RunsAll.notStalled {m : Mark} {rules : List (Rule ν)} {s : State} {o : Outcome} :
    RunsAll body m rules s o → o.NotStalled
  | .done => trivial
  | .next _ hrest => hrest.notStalled
  | .failed _ => trivial
  | .halted h => h.notStalled
termination_by structural h => h

theorem RunsRounds.notStalled {rule : Rule ν} {s : State} {o : Outcome} :
    RunsRounds body rule s o → o.NotStalled
  | .more _ _ hrest => hrest.notStalled
  | .done _ => trivial
  | .halted h => h.notStalled
termination_by structural h => h

end

end NotStalled

end Rule

end LinkQuery
