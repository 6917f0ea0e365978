import LinkQuery.Proofs.Lockstep
import LinkQuery.Proofs.Runs
import LinkQuery.TokenLog
/-!
# Matches end

Every match of the grammar is a run: each round of a loop consumes input, because the items of all
lists and the rules that are repeated cannot match an empty text. So a match ends by itself, and the
rounds that `run` allows are never used up.

Main statements:
- `Rule.run_consumes`: a rule whose text cannot be empty consumes input when it matches.
- `Rule.run_runs`: matching a rule is a run when matching the nonterminals is.
- `TokenLog.matchAt_runs`: the grammars of all kinds run to one outcome on every text.
-/
namespace LinkQuery

namespace Rule

variable {ν : Type}

/-! ## Rules that consume input -/

mutual

/-- A match of the rule consumes input, if matches of the nonterminals do. -/
def consumes : Rule ν → Bool
  | .literal text _ => text != ""
  | .keyword text => text != ""
  | .word => true
  | .number => true
  | .quoted => true
  | .choice rules => eachConsumes rules
  | .longest rules => eachConsumes rules
  | .sequence rules => oneConsumes rules
  | .list item _ => consumes item
  | .optional _ => false
  | .many _ => false
  | .peek _ _ => false
  | .required rule _ => consumes rule
  | .silent rule => consumes rule
  | .action _ => false
  | .nonterminal _ => true

/-- A match of any of the rules consumes input. -/
def eachConsumes : List (Rule ν) → Bool
  | [] => true
  | rule :: rest => consumes rule && eachConsumes rest

/-- A match of one of the rules consumes input. -/
def oneConsumes : List (Rule ν) → Bool
  | [] => false
  | rule :: rest => consumes rule || oneConsumes rest

end

mutual

/-- The items of all lists in the rule and the rules that are repeated in it consume input. -/
def loopsConsume : Rule ν → Bool
  | .choice rules => allLoopsConsume rules
  | .longest rules => allLoopsConsume rules
  | .sequence rules => allLoopsConsume rules
  | .list item separator => consumes item && loopsConsume item && loopsConsume separator
  | .optional rule => loopsConsume rule
  | .many rule => consumes rule && loopsConsume rule
  | .peek rule _ => loopsConsume rule
  | .required rule _ => loopsConsume rule
  | .silent rule => loopsConsume rule
  | _ => true

/-- The same for several rules. -/
def allLoopsConsume : List (Rule ν) → Bool
  | [] => true
  | rule :: rest => loopsConsume rule && allLoopsConsume rest

end

/-- The outcome is no match, or one that consumes input. -/
def Outcome.Consumes (s : State) (o : Outcome) : Prop :=
  ∀ t, o = .matched t → s.cursor < t.cursor

theorem cursor_le_past (s : State) (count : Nat) (tokens : List Token) :
    s.cursor ≤ (s.past count tokens).cursor :=
  Nat.le_add_right _ _

/-- Some characters at the cursor are consumed. -/
theorem cursor_lt_past {s : State} {count : Nat} (tokens : List Token) (hcount : 0 < count)
    (hrest : s.rest ≠ []) : s.cursor < (s.past count tokens).cursor := by
  have hleft := List.length_pos_iff.mpr hrest
  simp only [State.past, State.advance, List.length_take]
  omega

theorem consumes_behindBlanks {s : State} {count : Nat} (tokens : List Token) (hcount : 0 < count)
    (hrest : s.skipBlanks.rest ≠ []) :
    (Outcome.matched (s.skipBlanks.past count tokens)).Consumes s := by
  intro t ht
  obtain rfl : s.skipBlanks.past count tokens = t := by simpa using ht
  have hblanks : s.cursor ≤ s.skipBlanks.cursor := Nat.le_add_right _ _
  exact Nat.lt_of_le_of_lt hblanks (cursor_lt_past tokens hcount hrest)

theorem consumes_failed (s t : State) : (Outcome.failed t).Consumes s := nofun

theorem consumes_halted (s : State) (why : Halt) (t : State) : (Outcome.halted why t).Consumes s :=
  nofun

theorem rest_of_startsWith {ignoreCase : Bool} {cs text : List Char} (htext : text ≠ [])
    (h : State.startsWith ignoreCase cs text = true) : cs ≠ [] := by
  intro hnil
  cases text with
  | nil => exact htext rfl
  | cons e text => simp [hnil, State.startsWith] at h

theorem consumes_literal {text : String} (htext : text ≠ "") (logged : Bool) (s : State) :
    (s.literal text logged).Consumes s := by
  have hlist : text.toList ≠ [] := by simpa using htext
  have hlength : 0 < text.length := by
    rw [← String.length_toList]
    exact List.length_pos_iff.mpr hlist
  simp only [State.literal, State.lookingAt, State.take_eq_past, State.advance_eq_past]
  split
  · rename_i hat
    have hrest := rest_of_startsWith hlist hat
    split
    · exact consumes_behindBlanks _ hlength hrest
    · exact consumes_behindBlanks _ hlength hrest
  · exact consumes_failed s s

theorem consumes_keyword {word : String} (hword : word ≠ "") (s : State) :
    (s.keyword word).Consumes s := by
  have hlist : word.toList ≠ [] := by simpa using hword
  have hlength : 0 < word.length := by
    rw [← String.length_toList]
    exact List.length_pos_iff.mpr hlist
  simp only [State.keyword, State.lookingAt, State.take_eq_past]
  split
  · rename_i hat
    rw [Bool.and_eq_true] at hat
    exact consumes_behindBlanks _ hlength (rest_of_startsWith hlist hat.1)
  · exact consumes_failed s s

theorem consumes_name (s : State) : s.name.Consumes s := by
  simp only [State.name, State.take_eq_past]
  split
  · exact consumes_failed s s
  · rename_i hfound
    simp only [Bool.or_eq_true, List.isEmpty_iff, not_or] at hfound
    refine consumes_behindBlanks _ (List.length_pos_iff.mpr hfound.1) ?_
    intro hnil
    rw [hnil] at hfound
    exact hfound.1 rfl

theorem consumes_number (s : State) : s.number.Consumes s := by
  simp only [State.number, State.take_eq_past]
  split
  · rename_i hfound
    simp only [Bool.and_eq_true, Bool.not_eq_true', List.isEmpty_eq_false_iff] at hfound
    refine consumes_behindBlanks _ (List.length_pos_iff.mpr hfound.1) ?_
    intro hnil
    rw [hnil] at hfound
    exact hfound.1 rfl
  · exact consumes_failed s s

theorem consumes_quotedText (s : State) : s.quotedText.Consumes s := by
  simp only [State.quotedText, State.take_eq_past]
  split
  · exact consumes_failed s s
  · rename_i q rest hrest
    split
    · exact consumes_failed s s
    · split
      · refine consumes_behindBlanks _ (Nat.succ_pos _) ?_
        rw [hrest]
        exact List.cons_ne_nil q rest
      · exact consumes_halted s _ _
      · exact consumes_halted s _ _

/-! ## Matching is a run -/

/-- The state is this many levels in front of its nesting limit, and stands in its input. -/
structure State.Within (levels : Nat) (s : State) : Prop where
  levels : s.depth + levels = s.maxDepth
  left : s.rest.length ≤ s.remaining

namespace State.Within

variable {levels : Nat} {s : State}

theorem room (h : s.Within levels) : s.HasRoom levels := by
  have hlevels := h.levels
  simp only [State.HasRoom]
  omega

theorem past (h : s.Within levels) (count : Nat) (tokens : List Token) :
    (s.past count tokens).Within levels := by
  have hleft := h.left
  refine ⟨h.levels, ?_⟩
  simp only [State.remaining, State.past, State.advance, List.length_drop,
    List.length_take] at hleft ⊢
  omega

theorem enter (h : s.Within (levels + 1)) : s.enter.2.Within levels := by
  have hlevels := h.levels
  rw [enter_of_room h.room]
  refine ⟨?_, h.left⟩
  show s.depth + 1 + levels = s.maxDepth
  omega

end State.Within

theorem Outcome.Tidy.cursor_le {A : LogSet} {s t : State} {o : Outcome} (h : o.Tidy A s)
    (ho : o = .matched t) : s.cursor ≤ t.cursor := by
  subst ho
  obtain ⟨count, tokens, -, rfl⟩ := h
  exact cursor_le_past s count tokens

/-- The nonterminals are matched tidily and by runs, and consume input. -/
structure CallsRun (body : ν → Rule ν) (levels : Nat) (call : ν → State → Outcome) : Prop where
  tidy : ∀ name s, s.HasRoom levels → (call name s).Tidy (fun _ => True) s
  consumes : ∀ name s, s.Within levels → (call name s).Consumes s
  runs : ∀ name s, s.Within levels → Runs body (.nonterminal name) s (call name s)

section Run

variable {body : ν → Rule ν} {levels : Nat} {call : ν → State → Outcome}

/-- The rules of a sequence do not move the cursor back. -/
theorem runAll_cursor (hcall : CallsRun body levels call) : ∀ (rules : List (Rule ν)) (m : Mark)
    {s t : State}, s.Within levels → runAll call m rules s = .matched t → s.cursor ≤ t.cursor := by
  intro rules m
  induction rules with
  | nil =>
    intro s t _ h
    obtain rfl : s = t := by simpa [runAll] using h
    exact Nat.le_refl _
  | cons rule rest ih =>
    intro s t hs h
    have htidy := run_tidy hcall.tidy rule s hs.room
    simp only [runAll] at h
    cases hout : run call rule s with
    | failed u => simp [hout] at h
    | halted why u => simp [hout] at h
    | matched u =>
      rw [hout] at htidy h
      obtain ⟨count, tokens, -, rfl⟩ := htidy
      exact Nat.le_trans (cursor_le_past s count tokens) (ih (hs.past count tokens) h)

mutual

theorem run_consumes (hcall : CallsRun body levels call) : ∀ rule : Rule ν, consumes rule = true →
    ∀ s : State, s.Within levels → (run call rule s).Consumes s
  | .literal text logged, h, s, _ => consumes_literal (by simpa [consumes] using h) logged s
  | .keyword text, h, s, _ => consumes_keyword (by simpa [consumes] using h) s
  | .word, _, s, _ => consumes_name s
  | .number, _, s, _ => consumes_number s
  | .quoted, _, s, _ => consumes_quotedText s
  | .choice rules, h, s, hs => runFirst_consumes hcall rules h s hs
  | .longest rules, h, s, hs => by
    have heach := runEach_state hcall.tidy s hs.room rules 0 none
    simp only [run]
    cases hout : runEach call s.mark rules 0 none s with
    | error why => exact consumes_halted s why.1 why.2
    | ok found =>
      obtain ⟨best, t⟩ := found
      obtain rfl : t = s := heach best t hout
      cases best with
      | none => exact consumes_failed t t
      | some best => exact runNth_consumes hcall rules h best.index t hs
  | .sequence rules, h, s, hs => runAll_consumes hcall rules h s.mark s hs
  | .list item separator, h, s, hs => by
    have hitem := run_consumes hcall item h s hs
    have htidy := run_tidy hcall.tidy item s hs.room
    intro t ht
    simp only [run] at ht
    cases hout : run call item s with
    | failed u => simp [hout, Outcome.andThen] at ht
    | halted why u => simp [hout, Outcome.andThen] at ht
    | matched u =>
      have hfirst := hitem u hout
      rw [hout] at htidy ht
      obtain ⟨count, tokens, -, rfl⟩ := htidy
      have hmore := iterate_lasting stall_lasting
        (fun v hv => separated_tidy hv (run_tidy hcall.tidy separator v hv)
          (run_tidy hcall.tidy item)) ((s.past count tokens).remaining + 1) _
        (hs.past count tokens).room
      exact Nat.lt_of_lt_of_le hfirst (hmore.tidy.cursor_le ht)
  | .required rule expected, h, s, hs => by
    have hone := run_consumes hcall rule h s hs
    intro t ht
    simp only [run, demand] at ht
    cases hout : run call rule s with
    | failed u => simp [hout, Outcome.orElse] at ht
    | halted why u => simp [hout, Outcome.orElse] at ht
    | matched u =>
      obtain rfl : u = t := by simpa [hout, Outcome.orElse] using ht
      exact hone u hout
  | .silent rule, h, s, hs => by
    have hone := run_consumes hcall rule h s hs
    intro t ht
    simp only [run] at ht
    cases hout : run call rule s with
    | failed u => simp [hout, Outcome.andThen] at ht
    | halted why u => simp [hout, Outcome.andThen] at ht
    | matched u =>
      obtain rfl : u.discardSince s.mark = t := by simpa [hout, Outcome.andThen] using ht
      exact hone u hout
  | .nonterminal name, _, s, hs => hcall.consumes name s hs

theorem runFirst_consumes (hcall : CallsRun body levels call) : ∀ rules : List (Rule ν),
    eachConsumes rules = true → ∀ s : State, s.Within levels →
      (runFirst call rules s).Consumes s
  | [], _, s, _ => consumes_failed s s
  | rule :: rest, h, s, hs => by
    simp only [eachConsumes, Bool.and_eq_true] at h
    have hone := run_consumes hcall rule h.1 s hs
    have htidy := run_tidy hcall.tidy rule s hs.room
    simp only [runFirst]
    cases hout : run call rule s with
    | matched u =>
      rw [hout] at hone
      exact hone
    | halted why u => exact consumes_halted s why u
    | failed u =>
      rw [hout] at htidy
      obtain rfl : u = s := htidy
      exact runFirst_consumes hcall rest h.2 u hs

theorem runNth_consumes (hcall : CallsRun body levels call) : ∀ rules : List (Rule ν),
    eachConsumes rules = true → ∀ (index : Nat) (s : State), s.Within levels →
      (runNth call rules index s).Consumes s
  | [], _, _, s, _ => consumes_failed s s
  | rule :: rest, h, 0, s, hs => by
    simp only [eachConsumes, Bool.and_eq_true] at h
    exact run_consumes hcall rule h.1 s hs
  | rule :: rest, h, index + 1, s, hs => by
    simp only [eachConsumes, Bool.and_eq_true] at h
    exact runNth_consumes hcall rest h.2 index s hs

/-- The rules in front of the one that consumes do not move the cursor back. -/
theorem runAll_consumes (hcall : CallsRun body levels call) : ∀ rules : List (Rule ν),
    oneConsumes rules = true → ∀ (m : Mark) (s : State), s.Within levels →
      (runAll call m rules s).Consumes s
  | rule :: rest, h, m, s, hs => by
    simp only [oneConsumes, Bool.or_eq_true] at h
    have htidy := run_tidy hcall.tidy rule s hs.room
    simp only [runAll]
    cases hout : run call rule s with
    | failed u => exact consumes_failed s _
    | halted why u => exact consumes_halted s why u
    | matched u =>
      rw [hout] at htidy
      obtain ⟨count, tokens, -, rfl⟩ := htidy
      intro t ht
      rcases h with hrule | hrest
      · have hone := run_consumes hcall rule hrule s hs _ hout
        have hmore := runAll_cursor hcall rest m (hs.past count tokens) ht
        exact Nat.lt_of_lt_of_le hone hmore
      · have hmore := runAll_consumes hcall rest hrest m _ (hs.past count tokens) t ht
        exact Nat.lt_of_le_of_lt (cursor_le_past s count tokens) hmore

end

/-- A loop is a run of its rounds: the rounds that it may take are enough. -/
theorem iterate_runs {rule : Rule ν} {A : LogSet} {onStall step : State → Outcome}
    (htidy : ∀ s, s.HasRoom levels → (step s).Tidy A s)
    (hstep : ∀ s, s.Within levels → Runs body rule s (step s) ∧ (step s).Consumes s) :
    ∀ (fuel : Nat) (s : State), s.Within levels → s.rest.length < fuel →
      RunsRounds body rule s (iterate onStall step fuel s) := by
  intro fuel
  induction fuel with
  | zero => exact fun s _ hfuel => absurd hfuel (Nat.not_lt_zero _)
  | succ fuel ih =>
    intro s hs hfuel
    obtain ⟨hruns, hconsumes⟩ := hstep s hs
    have hone := htidy s hs.room
    simp only [iterate]
    cases hout : step s with
    | failed t =>
      rw [hout] at hruns
      exact .done hruns
    | halted why t =>
      rw [hout] at hruns
      exact .halted hruns
    | matched t =>
      have hmoved := hconsumes t hout
      rw [hout] at hruns hone
      obtain ⟨count, tokens, -, rfl⟩ := hone
      have hmoves := Nat.ne_of_gt hmoved
      have hshort := rest_of_moved hmoves
      simp only [if_neg hmoves]
      exact .more hruns hmoved (ih _ (hs.past count tokens) (by omega))

/-- A separator and an item behind it are the round of a list. -/
theorem separated_runs {item separator : Rule ν} {A B : LogSet} {s : State} {o : Outcome}
    {next : State → Outcome} (hs : s.Within levels) (htidy : o.Tidy A s)
    (hone : Runs body separator s o) (hitem : ∀ t, t.HasRoom levels → (next t).Tidy B t)
    (hnext : ∀ t, t.Within levels → Runs body item t (next t) ∧ (next t).Consumes t) :
    Runs body (.sequence [separator, item]) s
        (o.andThen fun t => (next t).orElse fun u => .failed (u.reset s.mark)) ∧
      (o.andThen fun t => (next t).orElse fun u => .failed (u.reset s.mark)).Consumes s := by
  cases o with
  | failed t =>
    obtain rfl : t = s := htidy
    refine ⟨.sequence ?_, consumes_failed t t⟩
    have hback : RunsAll body t.mark [separator, item] t (.failed (t.reset t.mark)) := .failed hone
    rwa [State.reset_mark] at hback
  | halted why t => exact ⟨.sequence (.halted hone), consumes_halted s why t⟩
  | matched t =>
    obtain ⟨count, tokens, -, rfl⟩ := htidy
    obtain ⟨hruns, hconsumes⟩ := hnext _ (hs.past count tokens)
    have hlast := hitem _ (hs.past count tokens).room
    simp only [Outcome.andThen]
    cases hout : next (s.past count tokens) with
    | failed u =>
      rw [hout] at hruns hlast
      exact ⟨.sequence (.next hone (.failed hruns)), consumes_failed s _⟩
    | halted why u =>
      rw [hout] at hruns
      exact ⟨.sequence (.next hone (.halted hruns)), consumes_halted s why u⟩
    | matched u =>
      have hmoved := hconsumes u hout
      rw [hout] at hruns
      refine ⟨.sequence (.next hone (.next hruns .done)), ?_⟩
      intro v hv
      obtain rfl : u = v := by simpa [Outcome.orElse] using hv
      exact Nat.lt_of_le_of_lt (cursor_le_past s count tokens) hmoved

mutual

/-- Matching a rule is a run when matching the nonterminals is. -/
theorem run_runs (hcall : CallsRun body levels call) : ∀ rule : Rule ν, loopsConsume rule = true →
    ∀ s : State, s.Within levels → Runs body rule s (run call rule s)
  | .literal _ _, _, _, _ => .literal
  | .keyword _, _, _, _ => .keyword
  | .word, _, _, _ => .word
  | .number, _, _, _ => .number
  | .quoted, _, _, _ => .quoted
  | .choice rules, h, s, hs => .choice (runFirst_runs hcall rules h s hs)
  | .longest rules, h, s, hs => by
    have heach := runEach_runs hcall rules h s hs 0 none
    have hstate := runEach_state hcall.tidy s hs.room rules 0 none
    simp only [run]
    cases hout : runEach call s.mark rules 0 none s with
    | error why =>
      rw [hout] at heach
      exact .longestHalted heach
    | ok found =>
      obtain ⟨best, t⟩ := found
      obtain rfl : t = s := hstate best t hout
      rw [hout] at heach
      cases best with
      | none => exact .longestFailed heach
      | some best => exact .longest heach (runNth_runs hcall rules h best.index t hs)
  | .sequence rules, h, s, hs => .sequence (runAll_runs hcall rules h s.mark s hs)
  | .list item separator, h, s, hs => by
    simp only [loopsConsume, Bool.and_eq_true] at h
    obtain ⟨⟨hconsumes, hitem⟩, hseparator⟩ := h
    have hfirst := run_runs hcall item hitem s hs
    have htidy := run_tidy hcall.tidy item s hs.room
    simp only [run]
    cases hout : run call item s with
    | failed t =>
      rw [hout] at hfirst
      exact .listFailed hfirst
    | halted why t =>
      rw [hout] at hfirst
      exact .listHalted hfirst
    | matched t =>
      rw [hout] at hfirst htidy
      obtain ⟨count, tokens, -, rfl⟩ := htidy
      have hleft := (hs.past count tokens).left
      refine .list hfirst (iterate_runs (fun u hu => separated_tidy hu
        (run_tidy hcall.tidy separator u hu) (run_tidy hcall.tidy item)) ?_ _ _
        (hs.past count tokens) (Nat.lt_succ_of_le hleft))
      intro u hu
      exact separated_runs hu (run_tidy hcall.tidy separator u hu.room)
        (run_runs hcall separator hseparator u hu) (run_tidy hcall.tidy item)
        fun v hv => ⟨run_runs hcall item hitem v hv, run_consumes hcall item hconsumes v hv⟩
  | .optional rule, h, s, hs => .optional (run_runs hcall rule h s hs)
  | .many rule, h, s, hs => by
    simp only [loopsConsume, Bool.and_eq_true] at h
    refine .many (iterate_runs (run_tidy hcall.tidy rule) ?_ _ s hs (Nat.lt_succ_of_le hs.left))
    intro t ht
    exact ⟨run_runs hcall rule h.2 t ht, run_consumes hcall rule h.1 t ht⟩
  | .peek rule _, h, s, hs => .peek (run_runs hcall rule h s hs)
  | .required rule _, h, s, hs => .required (run_runs hcall rule h s hs)
  | .silent rule, h, s, hs => .silent (run_runs hcall rule h s hs)
  | .action _, _, _, _ => .action
  | .nonterminal name, _, s, hs => hcall.runs name s hs

theorem runFirst_runs (hcall : CallsRun body levels call) : ∀ rules : List (Rule ν),
    allLoopsConsume rules = true → ∀ s : State, s.Within levels →
      RunsFirst body rules s (runFirst call rules s)
  | [], _, _, _ => .none
  | rule :: rest, h, s, hs => by
    simp only [allLoopsConsume, Bool.and_eq_true] at h
    have hone := run_runs hcall rule h.1 s hs
    have htidy := run_tidy hcall.tidy rule s hs.room
    simp only [runFirst]
    cases hout : run call rule s with
    | matched t =>
      rw [hout] at hone
      exact .matched hone
    | halted why t =>
      rw [hout] at hone
      exact .halted hone
    | failed t =>
      rw [hout] at hone htidy
      obtain rfl : t = s := htidy
      exact .next hone (runFirst_runs hcall rest h.2 t hs)

theorem runEach_runs (hcall : CallsRun body levels call) : ∀ rules : List (Rule ν),
    allLoopsConsume rules = true → ∀ s : State, s.Within levels →
    ∀ (index : Nat) (best : Option Best),
      RunsEach body s.mark rules index best s (runEach call s.mark rules index best s)
  | [], _, _, _, _, _ => .none
  | rule :: rest, h, s, hs, index, best => by
    simp only [allLoopsConsume, Bool.and_eq_true] at h
    have hone := run_runs hcall rule h.1 s hs
    have htidy := run_tidy hcall.tidy rule s hs.room
    simp only [runEach]
    cases hout : run call rule s with
    | matched t =>
      rw [hout] at hone htidy
      obtain ⟨count, tokens, -, rfl⟩ := htidy
      refine .matched hone ?_
      simp only [State.past_reset]
      exact runEach_runs hcall rest h.2 s hs (index + 1) _
    | failed t =>
      rw [hout] at hone htidy
      obtain rfl : t = s := htidy
      refine .failed hone ?_
      simp only [State.reset_mark]
      exact runEach_runs hcall rest h.2 t hs (index + 1) best
    | halted why t =>
      rw [hout] at hone
      exact .halted hone

theorem runNth_runs (hcall : CallsRun body levels call) : ∀ rules : List (Rule ν),
    allLoopsConsume rules = true → ∀ (index : Nat) (s : State), s.Within levels →
      RunsNth body rules index s (runNth call rules index s)
  | [], _, _, _, _ => .none
  | rule :: rest, h, 0, s, hs => by
    simp only [allLoopsConsume, Bool.and_eq_true] at h
    exact .here (run_runs hcall rule h.1 s hs)
  | rule :: rest, h, index + 1, s, hs => by
    simp only [allLoopsConsume, Bool.and_eq_true] at h
    exact .later (runNth_runs hcall rest h.2 index s hs)

theorem runAll_runs (hcall : CallsRun body levels call) : ∀ rules : List (Rule ν),
    allLoopsConsume rules = true → ∀ (m : Mark) (s : State), s.Within levels →
      RunsAll body m rules s (runAll call m rules s)
  | [], _, _, _, _ => .done
  | rule :: rest, h, m, s, hs => by
    simp only [allLoopsConsume, Bool.and_eq_true] at h
    have hone := run_runs hcall rule h.1 s hs
    have htidy := run_tidy hcall.tidy rule s hs.room
    simp only [runAll]
    cases hout : run call rule s with
    | matched t =>
      rw [hout] at hone htidy
      obtain ⟨count, tokens, -, rfl⟩ := htidy
      exact .next hone (runAll_runs hcall rest h.2 m _ (hs.past count tokens))
    | failed t =>
      rw [hout] at hone
      exact .failed hone
    | halted why t =>
      rw [hout] at hone
      exact .halted hone

end

end Run

/-! ## Grammars -/

/-- The rules of a grammar consume input, and so do all their loops. -/
structure IsProductive (body : ν → Rule ν) : Prop where
  consumes : ∀ name, consumes (body name) = true
  loops : ∀ name, loopsConsume (body name) = true

/-- Leaving a nonterminal does not move the cursor. -/
theorem Outcome.Consumes.leave {s : State} {o : Outcome} (h : o.Consumes s.enter.2) :
    (o.mapState .leave).Consumes s := by
  have hcursor : s.enter.2.cursor = s.cursor := by
    simp only [State.enter]
    split <;> rfl
  intro t ht
  cases o with
  | failed u => cases ht
  | halted why u => cases ht
  | matched u =>
    cases ht
    have hmoved := h u rfl
    rwa [hcursor] at hmoved

/-- The nonterminals of a productive grammar are matched by runs within any number of levels. -/
theorem calls_run {body : ν → Rule ν} (hbody : IsProductive body) :
    ∀ levels, CallsRun body levels (calls body levels) := by
  intro levels
  induction levels with
  | zero =>
    refine ⟨fun _ _ _ => trivial, fun name s _ => consumes_halted s _ _, ?_⟩
    intro name s hs
    have hlevels := hs.levels
    exact .refused (by omega)
  | succ levels ih =>
    have hrun : ∀ name (s : State), calls body (levels + 1) name s =
        (run (calls body levels) (body name) s.enter.2).mapState .leave := by
      intro name s
      rw [← runWithin_eq]
      rfl
    refine ⟨?_, ?_, ?_⟩
    · intro name s hs
      exact (runWithin_tidy body (levels + 1) (.nonterminal name) s hs).mono fun _ _ => trivial
    · intro name s hs
      rw [hrun]
      exact (run_consumes ih (body name) (hbody.consumes name) _ hs.enter).leave
    · intro name s hs
      have hlevels := hs.levels
      rw [hrun]
      exact .entered (by omega) (run_runs ih (body name) (hbody.loops name) _ hs.enter)

/-- A match of a productive grammar is a run. -/
theorem runWithin_runs {body : ν → Rule ν} (hbody : IsProductive body) {levels : Nat}
    {rule : Rule ν} (hrule : loopsConsume rule = true) {s : State} (hs : s.Within levels) :
    Runs body rule s (runWithin body levels rule s) := by
  rw [runWithin_eq]
  exact run_runs (calls_run hbody levels) rule hrule s hs

end Rule

namespace TokenLog

open Rule (Runs State)

theorem part_isProductive : Rule.IsProductive Language.Part.body where
  consumes name := by cases name <;> rfl
  loops name := by cases name <;> rfl

theorem kind_loopsConsume (kind : ExpressionKind) : Rule.loopsConsume kind.rule = true := by
  cases kind <;> rfl

/-- What `matchAt` finds for a kind of expression is an outcome of its rule. -/
theorem runs_matchAt (kind : ExpressionKind) (input : List Char) (limit : Nat) :
    Runs Language.Part.body kind.rule (State.start input limit)
      (Rule.matchAt Language.Part.body kind.rule (State.start input limit)) := by
  have hstart : (State.start input limit).Within limit :=
    ⟨Nat.zero_add limit, by simp [State.start, State.remaining]⟩
  exact Rule.runWithin_runs part_isProductive (kind_loopsConsume kind) hstart

/--
Matching the rule of any kind against any input within any nesting limit runs to exactly one
outcome, the one that `matchAt` finds with its levels and rounds, and it does not stall.
-/
theorem matchAt_runs (kind : ExpressionKind) (input : List Char) (limit : Nat) :
    (∀ o, Runs Language.Part.body kind.rule (State.start input limit) o ↔
      o = Rule.matchAt Language.Part.body kind.rule (State.start input limit)) ∧
    (Rule.matchAt Language.Part.body kind.rule (State.start input limit)).NotStalled := by
  have hruns := runs_matchAt kind input limit
  refine ⟨fun o => ⟨fun h => hruns.unique h, fun h => ?_⟩, hruns.notStalled⟩
  rw [h]
  exact hruns

end TokenLog

end LinkQuery
