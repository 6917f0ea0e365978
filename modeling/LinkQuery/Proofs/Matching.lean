import LinkQuery.Proofs.Logs
import LinkQuery.Rule.Matching
/-!
# What a match does to its state

A match only moves the cursor on and adds tokens to the log, and a failure leaves the state as it
was. What a match of a rule adds is a log that the rule produces.

Main statements:
- `Rule.run_tidy`: matching a rule is tidy when the nonterminals are.
- `Rule.runWithin_tidy`: matching a rule of a grammar is tidy, and adds a log that the grammar
  generates within as many levels.
-/
namespace LinkQuery.Rule

variable {ν : Type}

/-! ## States further on -/

namespace State

/-- The state behind some more characters, with some more tokens in its log. -/
def past (s : State) (count : Nat) (tokens : List Token) : State :=
  { s.advance count with log := s.log ++ tokens.toArray }

theorem past_zero (s : State) : s.past 0 [] = s := by
  simp [past, advance]

theorem past_past (s : State) (a b : Nat) (first second : List Token) :
    (s.past a first).past b second = s.past (a + b) (first ++ second) := by
  have h : (s.rest.take a).length + ((s.rest.drop a).take b).length
      = (s.rest.take (a + b)).length := by
    simp only [List.length_take, List.length_drop]
    omega
  simp only [past, advance, List.drop_drop, Nat.add_assoc, h]
  simp

theorem advance_eq_past (s : State) (count : Nat) : s.advance count = s.past count [] := by
  simp [past, advance]

theorem skipBlanks_eq_past (s : State) :
    s.skipBlanks = s.past (s.rest.takeWhile Text.isBlank).length [] :=
  advance_eq_past s _

theorem take_eq_past (s : State) (kind : TokenKind) (value : String) (length : Nat) :
    s.take kind value length = s.past length [⟨kind, value, s.cursor⟩] := by
  simp [take, push, past, advance]

theorem pushMarker_eq_past (s : State) (m : Marker) :
    s.pushMarker m = s.past 0 [.ofMarker m s.cursor] := by
  simp [pushMarker, past, advance]

@[simp]
theorem past_depth (s : State) (count : Nat) (tokens : List Token) :
    (s.past count tokens).depth = s.depth := rfl

@[simp]
theorem past_maxDepth (s : State) (count : Nat) (tokens : List Token) :
    (s.past count tokens).maxDepth = s.maxDepth := rfl

@[simp]
theorem past_rest (s : State) (count : Nat) (tokens : List Token) :
    (s.past count tokens).rest = s.rest.drop count := rfl

theorem past_discardSince (s : State) (count : Nat) (tokens : List Token) :
    (s.past count tokens).discardSince s.mark = s.past count [] := by
  simp [past, advance, discardSince, mark]

theorem past_reset (s : State) (count : Nat) (tokens : List Token) :
    (s.past count tokens).reset s.mark = s := by
  simp [reset, past_discardSince]
  simp [past, mark, advance]

theorem reset_mark (s : State) : s.reset s.mark = s := by
  have h := past_reset s 0 []
  rwa [past_zero] at h

/-- Nonterminals may nest this many levels deeper. -/
def HasRoom (levels : Nat) (s : State) : Prop :=
  levels ≤ s.maxDepth - s.depth

theorem HasRoom.past {levels : Nat} {s : State} (h : s.HasRoom levels) (count : Nat)
    (tokens : List Token) : (s.past count tokens).HasRoom levels := h

end State

/-! ## Tidy outcomes -/

/-- The outcome of a match that adds a log of a language, or fails without a trace. -/
def Outcome.Tidy (logs : LogSet) (s : State) : Outcome → Prop
  | .matched t => ∃ count tokens, logs tokens ∧ t = s.past count tokens
  | .failed t => t = s
  | .halted _ _ => True

namespace Outcome.Tidy

variable {A B : LogSet} {s : State} {o : Outcome}

theorem mono (h : o.Tidy A s) (hAB : ∀ tokens, A tokens → B tokens) : o.Tidy B s := by
  cases o with
  | matched t =>
    obtain ⟨count, tokens, hA, rfl⟩ := h
    exact ⟨count, tokens, hAB tokens hA, rfl⟩
  | failed t => exact h
  | halted why t => trivial

theorem orElse {next : State → Outcome} (h : o.Tidy A s) (hnext : (next s).Tidy A s) :
    (o.orElse next).Tidy A s := by
  cases o with
  | matched t => exact h
  | failed t =>
    obtain rfl : t = s := h
    exact hnext
  | halted why t => trivial

end Outcome.Tidy

/-! ## Single tokens -/

section Tokens

variable (lang : ν → LogSet) (s : State)

theorem literal_tidy (text : String) (logged : Bool) :
    (s.literal text logged).Tidy (Produces lang (.literal text logged)) s := by
  simp only [State.literal, State.skipBlanks_eq_past, State.take_eq_past, State.advance_eq_past,
    State.past_past]
  by_cases hat : (s.past (s.rest.takeWhile Text.isBlank).length []).lookingAt text false = true
  · cases logged with
    | true =>
      simp only [hat, if_true, Produces]
      exact ⟨_, _, ⟨_, rfl⟩, rfl⟩
    | false =>
      simp only [hat, if_true, Produces]
      exact ⟨_, _, rfl, rfl⟩
  · simp [hat, Outcome.Tidy]

theorem keyword_tidy (text : String) :
    (s.keyword text).Tidy (Produces lang (.keyword text)) s := by
  simp only [State.keyword, State.skipBlanks_eq_past, State.take_eq_past, State.past_past]
  split
  · exact ⟨_, _, ⟨_, rfl⟩, rfl⟩
  · rfl

theorem name_tidy : (s.name).Tidy (Produces lang .word) s := by
  simp only [State.name, State.skipBlanks_eq_past, State.take_eq_past, State.past_past]
  split
  · rfl
  · exact ⟨_, _, ⟨_, _, rfl⟩, rfl⟩

theorem number_tidy : (s.number).Tidy (Produces lang .number) s := by
  simp only [State.number, State.skipBlanks_eq_past, State.take_eq_past, State.past_past]
  split
  · exact ⟨_, _, ⟨_, _, rfl⟩, rfl⟩
  · rfl

theorem quotedText_tidy : (s.quotedText).Tidy (Produces lang .quoted) s := by
  simp only [State.quotedText, State.skipBlanks_eq_past, State.take_eq_past, State.past_past]
  split
  · rfl
  · split
    · rfl
    · split
      · exact ⟨_, _, ⟨_, _, rfl⟩, rfl⟩
      · trivial
      · trivial

end Tokens

/-! ## Repetition -/

/-- The outcome of a match that adds a log of a language and never fails. -/
def Outcome.Lasting (logs : LogSet) (s : State) : Outcome → Prop
  | .matched t => ∃ count tokens, logs tokens ∧ t = s.past count tokens
  | .failed _ => False
  | .halted _ _ => True

theorem Outcome.Lasting.tidy {A : LogSet} {s : State} {o : Outcome} (h : o.Lasting A s) :
    o.Tidy A s := by
  cases o with
  | matched t => exact h
  | failed t => exact h.elim
  | halted why t => trivial

/-- What lasts behind a first part of the log lasts with that part in front. -/
theorem Outcome.Lasting.behind {A B : LogSet} {s : State} {o : Outcome} {count : Nat}
    {first : List Token} (h : o.Lasting A (s.past count first))
    (hfirst : ∀ tokens, A tokens → B (first ++ tokens)) : o.Lasting B s := by
  cases o with
  | matched t =>
    obtain ⟨more, tokens, hA, rfl⟩ := h
    exact ⟨count + more, first ++ tokens, hfirst tokens hA, by rw [State.past_past]⟩
  | failed t => exact h.elim
  | halted why t => trivial

/-- Repeating a tidy step adds repetitions of what the step adds. -/
theorem iterate_lasting {A : LogSet} {onStall step : State → Outcome} {levels : Nat}
    (hstall : ∀ s, (onStall s).Lasting (· = []) s)
    (hstep : ∀ s, s.HasRoom levels → (step s).Tidy A s) :
    ∀ (n : Nat) (s : State), s.HasRoom levels →
      (iterate onStall step n s).Lasting (Repeated A) s := by
  intro n
  induction n with
  | zero => exact fun s _ => trivial
  | succ n ih =>
    intro s hs
    have hone := hstep s hs
    simp only [iterate]
    cases hout : step s with
    | failed t =>
      rw [hout] at hone
      obtain rfl : t = s := hone
      exact ⟨0, [], Repeated.nil A, (State.past_zero t).symm⟩
    | halted why t => trivial
    | matched t =>
      rw [hout] at hone
      obtain ⟨count, tokens, hA, rfl⟩ := hone
      dsimp only
      split
      · refine (hstall _).behind fun rest hrest => ?_
        subst hrest
        exact Repeated.cons hA (Repeated.nil A)
      · exact (ih (s.past count tokens) hs).behind fun rest hrest => Repeated.cons hA hrest

theorem stall_lasting {A : LogSet} (s : State) : (stall s).Lasting A s := trivial

theorem matched_lasting (s : State) : (Outcome.matched s).Lasting (· = []) s :=
  ⟨0, [], rfl, (State.past_zero s).symm⟩

/-! ## Rules -/

theorem lookAhead_tidy {A : LogSet} {s : State} {o : Outcome} (negate : Bool)
    (h : o.Tidy A s) : (lookAhead negate s.mark o).Tidy (· = []) s := by
  cases o with
  | matched t =>
    obtain ⟨count, tokens, -, rfl⟩ := h
    cases negate with
    | true => exact State.past_reset s count tokens
    | false => exact ⟨0, [], rfl, by rw [State.past_reset, State.past_zero]⟩
  | failed t =>
    obtain rfl : t = s := h
    cases negate with
    | true => exact ⟨0, [], rfl, by rw [State.reset_mark, State.past_zero]⟩
    | false => exact State.reset_mark t
  | halted why t => trivial

/-- What a separator and an item behind it add, and nothing when the item is missing. -/
theorem separated_tidy {A B : LogSet} {s : State} {o : Outcome} {item : State → Outcome}
    {levels : Nat} (hs : s.HasRoom levels) (h : o.Tidy A s)
    (hitem : ∀ t, t.HasRoom levels → (item t).Tidy B t) :
    (o.andThen fun t => (item t).orElse fun u => .failed (u.reset s.mark)).Tidy (Chained A B) s := by
  cases o with
  | failed t => exact h
  | halted why t => trivial
  | matched t =>
    obtain ⟨count, first, hA, rfl⟩ := h
    have hnext := hitem _ (hs.past count first)
    simp only [Outcome.andThen]
    cases hout : item (s.past count first) with
    | halted why t => trivial
    | failed t =>
      rw [hout] at hnext
      obtain rfl : t = s.past count first := hnext
      exact State.past_reset s count first
    | matched t =>
      rw [hout] at hnext
      obtain ⟨more, second, hB, rfl⟩ := hnext
      exact ⟨count + more, first ++ second, ⟨first, second, rfl, hA, hB⟩, State.past_past ..⟩

section Run

variable {call : ν → State → Outcome} {lang : ν → LogSet} {levels : Nat}

mutual

/-- Matching a rule is tidy when matching the nonterminals is. -/
theorem run_tidy (hcall : ∀ name s, s.HasRoom levels → (call name s).Tidy (lang name) s) :
    ∀ (rule : Rule ν) (s : State), s.HasRoom levels →
      (run call rule s).Tidy (Produces lang rule) s
  | .literal text logged, s, _ => literal_tidy lang s text logged
  | .keyword text, s, _ => keyword_tidy lang s text
  | .word, s, _ => name_tidy lang s
  | .number, s, _ => number_tidy lang s
  | .quoted, s, _ => quotedText_tidy lang s
  | .choice rules, s, hs => runFirst_tidy hcall rules s hs
  | .longest rules, s, hs => by
    have heach := runEach_state hcall s hs rules 0 none
    simp only [run]
    cases hout : runEach call s.mark rules 0 none s with
    | error why => trivial
    | ok found =>
      obtain ⟨best, t⟩ := found
      obtain rfl : t = s := heach best t hout
      cases best with
      | none => rfl
      | some best => exact runNth_tidy hcall rules best.index t hs
  | .sequence rules, s, hs => by
    have hall := runAll_tidy hcall s hs rules 0 []
    rw [State.past_zero] at hall
    refine hall.mono ?_
    rintro _ ⟨rest, rfl, hrest⟩
    exact hrest
  | .list item separator, s, hs => by
    have hfirst := run_tidy hcall item s hs
    simp only [run]
    cases hout : run call item s with
    | halted why t => trivial
    | failed t =>
      rw [hout] at hfirst
      exact hfirst
    | matched t =>
      rw [hout] at hfirst
      obtain ⟨count, first, hA, rfl⟩ := hfirst
      have hmore := iterate_lasting (A := Chained (Produces lang separator) (Produces lang item))
        stall_lasting
        (fun t ht => separated_tidy ht (run_tidy hcall separator t ht)
          (fun u hu => run_tidy hcall item u hu))
        ((s.past count first).remaining + 1) (s.past count first) (hs.past count first)
      exact (hmore.behind fun rest hrest => ⟨first, rest, rfl, hA, hrest⟩).tidy
  | .optional rule, s, hs => by
    have hone := run_tidy hcall rule s hs
    simp only [run]
    exact (hone.mono fun _ h => Or.inr h).orElse ⟨0, [], Or.inl rfl, (State.past_zero s).symm⟩
  | .many rule, s, hs =>
    (iterate_lasting matched_lasting (fun t ht => run_tidy hcall rule t ht) _ s hs).tidy
  | .peek rule negate, s, hs => lookAhead_tidy negate (run_tidy hcall rule s hs)
  | .required rule expected, s, hs => by
    have hone := run_tidy hcall rule s hs
    exact hone.orElse trivial
  | .silent rule, s, hs => by
    have hone := run_tidy hcall rule s hs
    simp only [run]
    cases hout : run call rule s with
    | halted why t => trivial
    | failed t =>
      rw [hout] at hone
      exact hone
    | matched t =>
      rw [hout] at hone
      obtain ⟨count, tokens, -, rfl⟩ := hone
      exact ⟨count, [], rfl, State.past_discardSince s count tokens⟩
  | .action m, s, _ => ⟨0, _, ⟨_, rfl⟩, State.pushMarker_eq_past s m⟩
  | .nonterminal name, s, hs => hcall name s hs

theorem runFirst_tidy (hcall : ∀ name s, s.HasRoom levels → (call name s).Tidy (lang name) s) :
    ∀ (rules : List (Rule ν)) (s : State), s.HasRoom levels →
      (runFirst call rules s).Tidy (ProducesAny lang rules) s
  | [], _, _ => rfl
  | rule :: rest, s, hs => by
    simp only [runFirst]
    refine ((run_tidy hcall rule s hs).mono fun _ h => Or.inl h).orElse ?_
    exact (runFirst_tidy hcall rest s hs).mono fun _ h => Or.inr h

/-- Trying alternatives from a mark ends in the state of the mark. -/
theorem runEach_state (hcall : ∀ name s, s.HasRoom levels → (call name s).Tidy (lang name) s)
    (s : State) (hs : s.HasRoom levels) :
    ∀ (rules : List (Rule ν)) (index : Nat) (best found : Option Best) (t : State),
      runEach call s.mark rules index best s = .ok (found, t) → t = s
  | [], index, best, found, t => by
    simp only [runEach, Except.ok.injEq, Prod.mk.injEq, and_imp]
    exact fun _ h => h.symm
  | rule :: rest, index, best, found, t => by
    have hone := run_tidy hcall rule s hs
    simp only [runEach]
    cases hout : run call rule s with
    | halted why u => simp
    | failed u =>
      rw [hout] at hone
      obtain rfl : u = s := hone
      simp only [State.reset_mark]
      exact runEach_state hcall u hs rest _ _ _ _
    | matched u =>
      rw [hout] at hone
      obtain ⟨count, tokens, -, rfl⟩ := hone
      simp only [State.past_reset]
      exact runEach_state hcall s hs rest _ _ _ _

theorem runNth_tidy (hcall : ∀ name s, s.HasRoom levels → (call name s).Tidy (lang name) s) :
    ∀ (rules : List (Rule ν)) (index : Nat) (s : State), s.HasRoom levels →
      (runNth call rules index s).Tidy (ProducesAny lang rules) s
  | [], _, _, _ => rfl
  | rule :: _, 0, s, hs => (run_tidy hcall rule s hs).mono fun _ h => Or.inl h
  | _ :: rest, n + 1, s, hs => (runNth_tidy hcall rest n s hs).mono fun _ h => Or.inr h

/-- Matching the rest of a sequence, whose first rules have added `first` behind the mark. -/
theorem runAll_tidy (hcall : ∀ name s, s.HasRoom levels → (call name s).Tidy (lang name) s)
    (s : State) (hs : s.HasRoom levels) :
    ∀ (rules : List (Rule ν)) (count : Nat) (first : List Token),
      (runAll call s.mark rules (s.past count first)).Tidy
        (fun log => ∃ rest, log = first ++ rest ∧ ProducesAll lang rules rest) s
  | [], count, first => ⟨count, first, ⟨[], by simp, rfl⟩, rfl⟩
  | rule :: rest, count, first => by
    have hone := run_tidy hcall rule (s.past count first) (hs.past count first)
    simp only [runAll]
    cases hout : run call rule (s.past count first) with
    | halted why t => trivial
    | failed t =>
      rw [hout] at hone
      obtain rfl : t = s.past count first := hone
      exact State.past_reset s count first
    | matched t =>
      rw [hout] at hone
      obtain ⟨more, second, hA, rfl⟩ := hone
      simp only [State.past_past]
      refine (runAll_tidy hcall s hs rest (count + more) (first ++ second)).mono ?_
      rintro _ ⟨third, rfl, hrest⟩
      exact ⟨second ++ third, by simp, second, third, rfl, hA, hrest⟩

end

end Run

/-! ## Grammars -/

theorem enter_of_room {levels : Nat} {s : State} (h : s.HasRoom (levels + 1)) :
    s.enter.2 = { s with depth := s.depth + 1 } := by
  have hlt : ¬ s.maxDepth ≤ s.depth := by
    have := h
    simp only [State.HasRoom] at this
    omega
  simp [State.enter, hlt]

/-- Matching within as many levels as there is room for is tidy. -/
theorem runWithin_tidy (body : ν → Rule ν) :
    ∀ (levels : Nat) (rule : Rule ν) (s : State), s.HasRoom levels →
      (runWithin body levels rule s).Tidy (Produces (Generates body levels) rule) s := by
  intro levels
  induction levels with
  | zero =>
    have hrefuse : ∀ name (s : State), s.HasRoom 0 → (refuse s).Tidy (Generates body 0 name) s :=
      fun _ _ _ => trivial
    exact run_tidy hrefuse
  | succ levels ih =>
    intro rule s hs
    refine run_tidy (fun name t ht => ?_) rule s hs
    have hroom : (t.enter.2).HasRoom levels := by
      rw [enter_of_room ht]
      simp only [State.HasRoom] at ht ⊢
      omega
    have hbody := ih (body name) t.enter.2 hroom
    cases hout : runWithin body levels (body name) t.enter.2 with
    | halted why u => trivial
    | failed u =>
      rw [hout] at hbody
      obtain rfl : u = t.enter.2 := hbody
      simp [Outcome.mapState, Outcome.Tidy, State.leave, enter_of_room ht]
    | matched u =>
      rw [hout] at hbody
      obtain ⟨count, tokens, hlog, rfl⟩ := hbody
      refine ⟨count, tokens, hlog, ?_⟩
      simp [State.leave, enter_of_room ht, State.past, State.advance]

end LinkQuery.Rule
