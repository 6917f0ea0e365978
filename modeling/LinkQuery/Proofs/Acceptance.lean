import LinkQuery.Proofs.Matching
/-!
# Texts that a rule accepts

Matching forwards: `Accepts body rule cs rest lexemes` says that a rule of a grammar matches the
text `cs` up to `rest` and logs tokens that say `lexemes`, `Rejects body rule cs` that it fails on
`cs`. Both hold from some number of levels on, so that what is accepted in parts is accepted in
whole. `AcceptsAt` and `RejectsAt` say the same of one number of levels.

Main statements:
- `Accepts.seq`, `Accepts.choiceHead`, `Accepts.choiceTail`, `Accepts.many`, `Accepts.list`: the
  combinations of rules, with their counterparts for `Rejects`.
-/
namespace LinkQuery

/-- What a token says, wherever it stands. -/
abbrev Lexeme := TokenKind × String

/-- The lexeme of a token. -/
def Token.lexeme (t : Token) : Lexeme := (t.kind, t.value)

namespace Rule

variable {ν : Type}

/-! ## States in front of a text -/

/-- The state stands in front of these characters and has room for nonterminals. -/
structure State.Before (levels : Nat) (cs : List Char) (s : State) : Prop where
  rest : s.rest = cs
  room : s.HasRoom levels
  left : cs.length ≤ s.remaining

theorem State.start_before (cs : List Char) (limit : Nat) :
    (State.start cs limit).Before limit cs :=
  ⟨rfl, by simp [State.HasRoom, State.start], by simp [State.remaining, State.start]⟩

theorem State.Before.past {levels : Nat} {read rest : List Char} {s : State}
    (h : s.Before levels (read ++ rest)) (tokens : List Token) :
    (s.past read.length tokens).Before levels rest := by
  have hleft := h.left
  refine ⟨by simp [h.rest], h.room.past _ _, ?_⟩
  simp only [List.length_append, State.remaining] at hleft
  simp only [State.remaining, State.past, State.advance, h.rest, List.take_left']
  omega

/-- The outcome is a match of the text in front of `rest`, with a log that says `lexemes`. -/
def Outcome.Leaves (cs rest : List Char) (lexemes : List Lexeme) (s : State) (o : Outcome) : Prop :=
  ∃ read tokens, cs = read ++ rest ∧ o = .matched (s.past read.length tokens) ∧
    tokens.map Token.lexeme = lexemes

theorem Outcome.Leaves.of_past {cs read rest : List Char} {o : Outcome} {s : State}
    {tokens : List Token} {lexemes : List Lexeme}
    (h : o.Leaves cs rest lexemes (s.past read.length tokens)) :
    o.Leaves (read ++ cs) rest (tokens.map Token.lexeme ++ lexemes) s := by
  obtain ⟨more, later, rfl, rfl, rfl⟩ := h
  refine ⟨read ++ more, tokens ++ later, by simp, ?_, by simp⟩
  rw [State.past_past, List.length_append]

/-! ## Levels -/

/-- How nonterminals are matched within some levels. -/
def calls (body : ν → Rule ν) : Nat → ν → State → Outcome
  | 0, _, s => refuse s
  | levels + 1, name, s => (runWithin body levels (body name) s.enter.2).mapState .leave

theorem runWithin_eq (body : ν → Rule ν) (levels : Nat) (rule : Rule ν) (s : State) :
    runWithin body levels rule s = run (calls body levels) rule s := by
  cases levels <;> rfl

variable (body : ν → Rule ν)

/-- The rule matches the text up to `rest`, with a log that says `lexemes`, from some level on. -/
def Accepts (rule : Rule ν) (cs rest : List Char) (lexemes : List Lexeme) : Prop :=
  ∃ enough, ∀ levels ≥ enough, ∀ s : State, s.Before levels cs →
    (run (calls body levels) rule s).Leaves cs rest lexemes s

/-- The rule fails on the text, from some level on. -/
def Rejects (rule : Rule ν) (cs : List Char) : Prop :=
  ∃ enough, ∀ levels ≥ enough, ∀ s : State, s.Before levels cs →
    run (calls body levels) rule s = .failed s

/-- A step that matches the text again and again does so up to `rest`. -/
def Repeats (step : Nat → State → Outcome) (cs rest : List Char) (lexemes : List Lexeme) : Prop :=
  ∃ enough, ∀ levels ≥ enough, ∀ (onStall : State → Outcome) (s : State), s.Before levels cs →
    (iterate onStall (step levels) (s.remaining + 1) s).Leaves cs rest lexemes s

/-- The rule matches the text up to `rest`, with a log that says `lexemes`, within these levels. -/
def AcceptsAt (levels : Nat) (rule : Rule ν) (cs rest : List Char) (lexemes : List Lexeme) : Prop :=
  ∀ s : State, s.Before levels cs → (run (calls body levels) rule s).Leaves cs rest lexemes s

/-- The rule fails on the text within these levels. -/
def RejectsAt (levels : Nat) (rule : Rule ν) (cs : List Char) : Prop :=
  ∀ s : State, s.Before levels cs → run (calls body levels) rule s = .failed s

/-- A step within these levels that matches the text again and again does so up to `rest`. -/
def RepeatsAt (levels : Nat) (step : State → Outcome) (cs rest : List Char)
    (lexemes : List Lexeme) : Prop :=
  ∀ (onStall : State → Outcome) (s : State), s.Before levels cs →
    (iterate onStall step (s.remaining + 1) s).Leaves cs rest lexemes s

/-- What two things bring about at each number of levels where both hold. -/
theorem eventually_of_both {P Q R : Nat → Prop} (hP : ∃ enough, ∀ levels ≥ enough, P levels)
    (hQ : ∃ enough, ∀ levels ≥ enough, Q levels) (h : ∀ levels, P levels → Q levels → R levels) :
    ∃ enough, ∀ levels ≥ enough, R levels := by
  obtain ⟨enough, hP⟩ := hP
  obtain ⟨enough', hQ⟩ := hQ
  exact ⟨max enough enough', fun levels hlevels =>
    h levels (hP levels (by omega)) (hQ levels (by omega))⟩

variable {body} {rule : Rule ν} {rules : List (Rule ν)} {cs mid rest : List Char}
  {a b : List Lexeme} {levels : Nat}

/-- Failing leaves the state as it was. -/
theorem run_failed {s t : State} (hs : s.HasRoom levels)
    (h : run (calls body levels) rule s = .failed t) : t = s := by
  have htidy := runWithin_tidy body levels rule s hs
  rwa [runWithin_eq, h] at htidy

/-! ## Choices -/

theorem AcceptsAt.choiceHead (h : AcceptsAt body levels rule cs rest a) :
    AcceptsAt body levels (.choice (rule :: rules)) cs rest a := by
  intro s hs
  obtain ⟨read, tokens, rfl, hrun, rfl⟩ := h s hs
  refine ⟨read, tokens, rfl, ?_, rfl⟩
  simp only [run, runFirst, hrun, Outcome.orElse]

theorem Accepts.choiceHead (h : Accepts body rule cs rest a) :
    Accepts body (.choice (rule :: rules)) cs rest a := by
  obtain ⟨enough, h⟩ := h
  exact ⟨enough, fun levels hlevels => AcceptsAt.choiceHead (h levels hlevels)⟩

theorem AcceptsAt.choiceTail (h : RejectsAt body levels rule cs)
    (hrest : AcceptsAt body levels (.choice rules) cs rest a) :
    AcceptsAt body levels (.choice (rule :: rules)) cs rest a := by
  intro s hs
  have hnext := hrest s hs
  simpa only [run, runFirst, h s hs, Outcome.orElse] using hnext

theorem Accepts.choiceTail (h : Rejects body rule cs)
    (hrest : Accepts body (.choice rules) cs rest a) :
    Accepts body (.choice (rule :: rules)) cs rest a :=
  eventually_of_both h hrest fun _ => AcceptsAt.choiceTail

theorem Rejects.choiceNil : Rejects body (.choice []) cs :=
  ⟨0, fun _ _ _ _ => rfl⟩

theorem Rejects.choiceCons (h : Rejects body rule cs) (hrest : Rejects body (.choice rules) cs) :
    Rejects body (.choice (rule :: rules)) cs := by
  refine eventually_of_both h hrest fun levels h hrest s hs => ?_
  have hnext := hrest s hs
  simpa only [run, runFirst, h s hs, Outcome.orElse] using hnext

/-! ## Sequences -/

/-- The mark of a sequence only matters for the state that a failure goes back to. -/
theorem runAll_mark (call : ν → State → Outcome) (m other : Mark) (rules : List (Rule ν))
    (s : State) :
    match runAll call m rules s with
    | .matched t => runAll call other rules s = .matched t
    | .failed _ => ∃ t, runAll call other rules s = .failed t
    | .halted why t => runAll call other rules s = .halted why t := by
  induction rules generalizing s with
  | nil => rfl
  | cons rule rules ih =>
    simp only [runAll]
    cases run call rule s with
    | matched u => exact ih u
    | failed u => exact ⟨_, rfl⟩
    | halted why u => rfl

theorem runAll_matched {call : ν → State → Outcome} {m : Mark} (other : Mark) {s t : State}
    (h : runAll call m rules s = .matched t) : runAll call other rules s = .matched t := by
  have hmark := runAll_mark call m other rules s
  rwa [h] at hmark

theorem runAll_failed {call : ν → State → Outcome} {m : Mark} (other : Mark) {s t : State}
    (h : runAll call m rules s = .failed t) : ∃ u, runAll call other rules s = .failed u := by
  have hmark := runAll_mark call m other rules s
  rwa [h] at hmark

theorem AcceptsAt.seqNil : AcceptsAt body levels (.sequence []) cs cs [] :=
  fun s _ => ⟨[], [], rfl, congrArg Outcome.matched (State.past_zero s).symm, rfl⟩

theorem Accepts.seqNil : Accepts body (.sequence []) cs cs [] :=
  ⟨0, fun _ _ => AcceptsAt.seqNil⟩

theorem AcceptsAt.seq (h : AcceptsAt body levels rule cs mid a)
    (hrest : AcceptsAt body levels (.sequence rules) mid rest b) :
    AcceptsAt body levels (.sequence (rule :: rules)) cs rest (a ++ b) := by
  intro s hs
  obtain ⟨read, tokens, rfl, hone, rfl⟩ := h s hs
  obtain ⟨more, later, rfl, hnext, rfl⟩ := hrest _ (hs.past tokens)
  refine Outcome.Leaves.of_past ⟨more, later, rfl, ?_, rfl⟩
  simp only [run, runAll, hone] at hnext ⊢
  exact runAll_matched _ hnext

theorem Accepts.seq (h : Accepts body rule cs mid a)
    (hrest : Accepts body (.sequence rules) mid rest b) :
    Accepts body (.sequence (rule :: rules)) cs rest (a ++ b) :=
  eventually_of_both h hrest fun _ => AcceptsAt.seq

theorem Rejects.seqHead (h : Rejects body rule cs) :
    Rejects body (.sequence (rule :: rules)) cs := by
  obtain ⟨enough, h⟩ := h
  refine ⟨enough, fun levels hlevels s hs => ?_⟩
  simp only [run, runAll, h levels hlevels s hs, State.reset_mark]

theorem Rejects.seqTail (h : Accepts body rule cs mid a)
    (hrest : Rejects body (.sequence rules) mid) :
    Rejects body (.sequence (rule :: rules)) cs := by
  obtain ⟨enough, h⟩ := h
  obtain ⟨enough', hrest⟩ := hrest
  refine ⟨max enough enough', fun levels hlevels s hs => ?_⟩
  obtain ⟨read, tokens, rfl, hone, rfl⟩ := h levels (by omega) s hs
  have hnext := hrest levels (by omega) _ (hs.past tokens)
  obtain ⟨u, hfail⟩ : ∃ u, run (calls body levels) (.sequence (rule :: rules)) s = .failed u := by
    simp only [run, runAll, hone] at hnext ⊢
    exact runAll_failed _ hnext
  rw [hfail, run_failed hs.room hfail]

/-! ## Other combinations -/

theorem Accepts.optionalSome (h : Accepts body rule cs rest a) :
    Accepts body (.optional rule) cs rest a := by
  obtain ⟨enough, h⟩ := h
  refine ⟨enough, fun levels hlevels s hs => ?_⟩
  obtain ⟨read, tokens, rfl, hone, rfl⟩ := h levels hlevels s hs
  exact ⟨read, tokens, rfl, by simp only [run, hone, Outcome.orElse], rfl⟩

theorem Accepts.optionalNone (h : Rejects body rule cs) :
    Accepts body (.optional rule) cs cs [] := by
  obtain ⟨enough, h⟩ := h
  refine ⟨enough, fun levels hlevels s hs => ⟨[], [], rfl, ?_, rfl⟩⟩
  simp only [run, h levels hlevels s hs, Outcome.orElse, List.length_nil, State.past_zero]

theorem Accepts.required {expected : String} (h : Accepts body rule cs rest a) :
    Accepts body (.required rule expected) cs rest a := by
  obtain ⟨enough, h⟩ := h
  refine ⟨enough, fun levels hlevels s hs => ?_⟩
  obtain ⟨read, tokens, rfl, hone, rfl⟩ := h levels hlevels s hs
  exact ⟨read, tokens, rfl, by simp only [run, demand, hone, Outcome.orElse], rfl⟩

theorem Accepts.silent (h : Accepts body rule cs rest a) :
    Accepts body (.silent rule) cs rest [] := by
  obtain ⟨enough, h⟩ := h
  refine ⟨enough, fun levels hlevels s hs => ?_⟩
  obtain ⟨read, tokens, rfl, hone, rfl⟩ := h levels hlevels s hs
  refine ⟨read, [], rfl, ?_, rfl⟩
  simp only [run, hone, Outcome.andThen, State.past_discardSince]

theorem Rejects.silent (h : Rejects body rule cs) : Rejects body (.silent rule) cs := by
  obtain ⟨enough, h⟩ := h
  refine ⟨enough, fun levels hlevels s hs => ?_⟩
  simp only [run, h levels hlevels s hs, Outcome.andThen]

theorem Accepts.action {m : Marker} : Accepts body (.action m) cs cs [(.marker m, "")] := by
  refine ⟨0, fun levels _ s _ => ⟨[], [.ofMarker m s.cursor], rfl, ?_, rfl⟩⟩
  simp only [run, State.pushMarker_eq_past, List.length_nil]

theorem Rejects.ahead (h : Rejects body rule cs) : Rejects body (.ahead rule) cs := by
  obtain ⟨enough, h⟩ := h
  refine ⟨enough, fun levels hlevels s hs => ?_⟩
  simp [Rule.ahead, run, h levels hlevels s hs, lookAhead, State.reset_mark]

theorem Accepts.without (h : Rejects body rule cs) : Accepts body (.without rule) cs cs [] := by
  obtain ⟨enough, h⟩ := h
  refine ⟨enough, fun levels hlevels s hs => ⟨[], [], rfl, ?_, rfl⟩⟩
  simp [Rule.without, run, h levels hlevels s hs, lookAhead, State.reset_mark, State.past_zero]

/-! ## Nonterminals -/

/-- Entering a nonterminal leaves the text in front and takes one level. -/
theorem State.Before.enter {s : State} (h : s.Before (levels + 1) cs) :
    s.enter.2 = { s with depth := s.depth + 1 } ∧ s.enter.2.Before levels cs := by
  have henter := enter_of_room h.room
  refine ⟨henter, ?_⟩
  rw [henter]
  refine ⟨h.rest, ?_, h.left⟩
  have hroom := h.room
  simp only [State.HasRoom] at hroom ⊢
  omega

/-- A nonterminal takes one level, and what it is matched by the levels below. -/
theorem AcceptsAt.nonterminal {name : ν} (h : AcceptsAt body levels (body name) cs rest a) :
    AcceptsAt body (levels + 1) (.nonterminal name) cs rest a := by
  intro s hs
  obtain ⟨henter, hbefore⟩ := hs.enter
  obtain ⟨read, tokens, rfl, hone, rfl⟩ := h _ hbefore
  refine ⟨read, tokens, rfl, ?_, rfl⟩
  simp only [run, calls, runWithin_eq]
  rw [hone, henter]
  rfl

theorem Accepts.nonterminal {name : ν} (h : Accepts body (body name) cs rest a) :
    Accepts body (.nonterminal name) cs rest a := by
  obtain ⟨enough, h⟩ := h
  refine ⟨enough + 1, fun levels hlevels => ?_⟩
  obtain ⟨levels, rfl⟩ : ∃ n, levels = n + 1 := ⟨levels - 1, by omega⟩
  exact AcceptsAt.nonterminal (h levels (by omega))

theorem Rejects.nonterminal {name : ν} (h : Rejects body (body name) cs) :
    Rejects body (.nonterminal name) cs := by
  obtain ⟨enough, h⟩ := h
  refine ⟨enough + 1, fun levels hlevels s hs => ?_⟩
  obtain ⟨levels, rfl⟩ : ∃ n, levels = n + 1 := ⟨levels - 1, by omega⟩
  obtain ⟨henter, hbefore⟩ := hs.enter
  have hone := h levels (by omega) _ hbefore
  simp only [run, calls, runWithin_eq]
  rw [hone, henter]
  rfl

/-! ## Repetitions -/

theorem iterate_matched {onStall step : State → Outcome} {n m : Nat} {s t : State} (hnm : n ≤ m)
    (h : iterate onStall step n s = .matched t) : iterate onStall step m s = .matched t := by
  induction n generalizing m s with
  | zero => simp [iterate] at h
  | succ n ih =>
    obtain ⟨m, rfl⟩ : ∃ k, m = k + 1 := ⟨m - 1, by omega⟩
    simp only [iterate] at h ⊢
    cases hone : step s with
    | matched u =>
      simp only [hone] at h ⊢
      split
      · rwa [if_pos ‹_›] at h
      · rw [if_neg ‹_›] at h
        exact ih (by omega) h
    | failed u => simpa only [hone] using h
    | halted why u => simp [hone] at h

section Repeats

variable {once : State → Outcome} {step : Nat → State → Outcome}

theorem RepeatsAt.none (h : ∀ s : State, s.Before levels cs → once s = .failed s) :
    RepeatsAt levels once cs cs [] := by
  refine fun onStall s hs => ⟨[], [], rfl, ?_, rfl⟩
  simp only [iterate, h s hs, List.length_nil, State.past_zero]

theorem RepeatsAt.more (h : ∀ s : State, s.Before levels cs → (once s).Leaves cs mid a s)
    (hless : mid.length < cs.length) (hrest : RepeatsAt levels once mid rest b) :
    RepeatsAt levels once cs rest (a ++ b) := by
  intro onStall s hs
  obtain ⟨read, tokens, rfl, hone, rfl⟩ := h s hs
  have hbehind := hs.past tokens
  obtain ⟨more, later, rfl, hnext, rfl⟩ := hrest onStall _ hbehind
  have hread : (s.rest.take read.length).length = read.length := by
    simp [hs.rest]
  have hpositive : 0 < read.length := by
    simp only [List.length_append] at hless
    omega
  have hmoved : (s.past read.length tokens).cursor ≠ s.cursor := by
    simp only [State.past, State.advance, hread]
    omega
  have hfuel : (s.past read.length tokens).remaining + 1 ≤ s.remaining := by
    have hleft := hs.left
    simp only [List.length_append, State.remaining] at hleft
    simp only [State.remaining, State.past, State.advance, hread]
    omega
  refine Outcome.Leaves.of_past ⟨more, later, rfl, ?_, rfl⟩
  rw [iterate, hone]
  simp only [if_neg hmoved]
  exact iterate_matched hfuel hnext

theorem Repeats.none (h : ∃ enough, ∀ levels ≥ enough, ∀ s : State, s.Before levels cs →
    step levels s = .failed s) : Repeats step cs cs [] := by
  obtain ⟨enough, h⟩ := h
  exact ⟨enough, fun levels hlevels => RepeatsAt.none (h levels hlevels)⟩

theorem Repeats.more (h : ∃ enough, ∀ levels ≥ enough, ∀ s : State, s.Before levels cs →
    (step levels s).Leaves cs mid a s) (hless : mid.length < cs.length)
    (hrest : Repeats step mid rest b) : Repeats step cs rest (a ++ b) :=
  eventually_of_both h hrest fun _ h hrest => RepeatsAt.more h hless hrest

end Repeats

theorem Accepts.many (h : Repeats (fun levels => run (calls body levels) rule) cs rest a) :
    Accepts body (.many rule) cs rest a := by
  obtain ⟨enough, h⟩ := h
  exact ⟨enough, fun levels hlevels s hs => h levels hlevels .matched s hs⟩

theorem Accepts.manyNone (h : Rejects body rule cs) : Accepts body (.many rule) cs cs [] :=
  Accepts.many (Repeats.none h)

/-- One more item behind a separator, as a list matches it. -/
def listStep (body : ν → Rule ν) (item separator : Rule ν) (levels : Nat) (s : State) : Outcome :=
  (run (calls body levels) separator s).andThen fun t =>
    (run (calls body levels) item t).orElse fun u => .failed (u.reset s.mark)

variable {item separator : Rule ν}

theorem RepeatsAt.listMore (h : AcceptsAt body levels (.sequence [separator, item]) cs mid a)
    (hless : mid.length < cs.length)
    (hrest : RepeatsAt levels (listStep body item separator levels) mid rest b) :
    RepeatsAt levels (listStep body item separator levels) cs rest (a ++ b) := by
  refine RepeatsAt.more (fun s hs => ?_) hless hrest
  obtain ⟨read, tokens, rfl, hone, rfl⟩ := h s hs
  refine ⟨read, tokens, rfl, ?_, rfl⟩
  simp only [run, runAll] at hone
  unfold listStep
  cases hsep : run (calls body levels) separator s with
  | matched t =>
    simp only [hsep] at hone
    cases hitem : run (calls body levels) item t with
    | matched u => simpa [Outcome.andThen, Outcome.orElse, hitem] using hone
    | failed u => simp [hitem] at hone
    | halted why u => simp [hitem] at hone
  | failed t => simp [hsep] at hone
  | halted why t => simp [hsep] at hone

theorem Repeats.listMore (h : Accepts body (.sequence [separator, item]) cs mid a)
    (hless : mid.length < cs.length) (hrest : Repeats (listStep body item separator) mid rest b) :
    Repeats (listStep body item separator) cs rest (a ++ b) :=
  eventually_of_both h hrest fun _ h hrest => RepeatsAt.listMore h hless hrest

theorem RepeatsAt.listNone (h : RejectsAt body levels (.sequence [separator, item]) cs) :
    RepeatsAt levels (listStep body item separator levels) cs cs [] := by
  refine RepeatsAt.none fun s hs => ?_
  have hone := h s hs
  simp only [run, runAll] at hone
  unfold listStep
  cases hsep : run (calls body levels) separator s with
  | matched t =>
    simp only [hsep] at hone
    cases hitem : run (calls body levels) item t with
    | matched u => simp [hitem] at hone
    | failed u => simpa [Outcome.andThen, Outcome.orElse, hitem] using hone
    | halted why u => simp [hitem] at hone
  | failed t => rw [run_failed hs.room hsep, Outcome.andThen]
  | halted why t => simp [hsep] at hone

theorem Repeats.listNone (h : Rejects body (.sequence [separator, item]) cs) :
    Repeats (listStep body item separator) cs cs [] := by
  obtain ⟨enough, h⟩ := h
  exact ⟨enough, fun levels hlevels => RepeatsAt.listNone (h levels hlevels)⟩

theorem AcceptsAt.list (h : AcceptsAt body levels item cs mid a)
    (hrest : RepeatsAt levels (listStep body item separator levels) mid rest b) :
    AcceptsAt body levels (.list item separator) cs rest (a ++ b) := by
  intro s hs
  obtain ⟨read, tokens, rfl, hone, rfl⟩ := h s hs
  obtain ⟨more, later, rfl, hnext, rfl⟩ := hrest stall _ (hs.past tokens)
  refine Outcome.Leaves.of_past ⟨more, later, rfl, ?_, rfl⟩
  simp only [run, hone, Outcome.andThen]
  exact hnext

theorem Accepts.list (h : Accepts body item cs mid a)
    (hrest : Repeats (listStep body item separator) mid rest b) :
    Accepts body (.list item separator) cs rest (a ++ b) :=
  eventually_of_both h hrest fun _ => AcceptsAt.list

end Rule

end LinkQuery
