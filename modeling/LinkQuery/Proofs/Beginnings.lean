import LinkQuery.Proofs.Acceptance
/-!
# What a rule may begin with

A rule fails on every text whose first character behind white space it cannot begin with. The
characters that a rule may begin with are read off the rule and the rules of its nonterminals.

Main statements:
- `Rule.rejects_of_front`: a text that the rule cannot begin is rejected.
-/
namespace LinkQuery.Rule

variable {ν : Type}

/-- The first character of the text behind white space. -/
def front (cs : List Char) : Option Char := (Text.dropBlanks cs).head?

mutual

/-- A text with this character at its front may be matched, none standing for a blank text. -/
def mayBegin (names : ν → Option Char → Bool) : Rule ν → Option Char → Bool
  | .literal text _, c => text.toList.head?.all fun first => c == some first
  | .keyword name, c => name.toList.head?.all fun first => c.any (State.sameChar true · first)
  | .word, c => c.any Text.isNameStart
  | .number, c => c.any fun c => c == '-' || c.isDigit
  | .quoted, c => c.any State.isQuote
  | .choice rules, c => anyMayBegin names rules c
  | .longest rules, c => anyMayBegin names rules c
  | .sequence rules, c => firstMayBegin names rules c
  | .list item _, c => mayBegin names item c
  | .silent rule, c => mayBegin names rule c
  | .nonterminal name, c => names name c
  | .optional _, _ | .many _, _ | .peek _ _, _ | .required _ _, _ | .action _, _ => true

/-- One of the rules may match a text with this character at its front. -/
def anyMayBegin (names : ν → Option Char → Bool) : List (Rule ν) → Option Char → Bool
  | [], _ => false
  | rule :: rest, c => mayBegin names rule c || anyMayBegin names rest c

/-- The first rule that is no marker may match a text with this character at its front. -/
def firstMayBegin (names : ν → Option Char → Bool) : List (Rule ν) → Option Char → Bool
  | [], _ => true
  | .action _ :: rest, c => firstMayBegin names rest c
  | rule :: _, c => mayBegin names rule c

end

/-- What the nonterminals of a grammar may begin with, looked up some levels deep. -/
def namesMayBegin (body : ν → Rule ν) : Nat → ν → Option Char → Bool
  | 0, _, _ => true
  | levels + 1, name, c => mayBegin (namesMayBegin body levels) (body name) c

theorem of_all_eq_false {α : Type} {o : Option α} {p : α → Bool} (h : o.all p = false) :
    ∃ a, o = some a ∧ p a = false := by
  cases o with
  | none => simp at h
  | some a => exact ⟨a, rfl, h⟩

/-! ## Single tokens -/

theorem drop_takeWhile (p : Char → Bool) (cs : List Char) :
    cs.drop (cs.takeWhile p).length = cs.dropWhile p := by
  induction cs with
  | nil => rfl
  | cons c rest ih => cases h : p c <;> simp [h, ih]

theorem State.skipBlanks_rest (s : State) : s.skipBlanks.rest = Text.dropBlanks s.rest :=
  drop_takeWhile Text.isBlank s.rest

section Tokens

variable {s : State} {c : Option Char}

theorem literal_of_front {text : String} {logged : Bool} {first : Char}
    (hfirst : text.toList.head? = some first) (hne : front s.rest ≠ some first) :
    s.literal text logged = .failed s := by
  obtain ⟨more, htext⟩ : ∃ more, text.toList = first :: more := by
    cases h : text.toList with
    | nil => simp [h] at hfirst
    | cons a more => exact ⟨more, by simpa [h] using hfirst⟩
  have hat : s.skipBlanks.lookingAt text false = false := by
    rw [State.lookingAt, State.skipBlanks_rest, htext]
    cases h : Text.dropBlanks s.rest with
    | nil => rfl
    | cons a rest =>
      have ha : a ≠ first := by simpa [front, h] using hne
      simp [State.startsWith, State.sameChar, ha]
  simp [State.literal, hat]

theorem keyword_of_front {word : String} {first : Char}
    (hfirst : word.toList.head? = some first)
    (hne : (front s.rest).any (State.sameChar true · first) = false) :
    s.keyword word = .failed s := by
  obtain ⟨more, hword⟩ : ∃ more, word.toList = first :: more := by
    cases h : word.toList with
    | nil => simp [h] at hfirst
    | cons a more => exact ⟨more, by simpa [h] using hfirst⟩
  have hat : s.skipBlanks.lookingAt word true = false := by
    rw [State.lookingAt, State.skipBlanks_rest, hword]
    cases h : Text.dropBlanks s.rest with
    | nil => rfl
    | cons a rest =>
      have ha : State.sameChar true a first = false := by simpa [front, h] using hne
      simp [State.startsWith, ha]
  simp [State.keyword, hat]

theorem name_of_front (h : (front s.rest).any Text.isNameStart = false) : s.name = .failed s := by
  have hscan : State.scanName s.skipBlanks.rest = [] := by
    rw [State.skipBlanks_rest]
    cases hcs : Text.dropBlanks s.rest with
    | nil => rfl
    | cons a rest =>
      have ha : Text.isNameStart a = false := by simpa [front, hcs] using h
      simp [State.scanName, ha]
  simp [State.name, hscan]

theorem number_of_front (h : (front s.rest).any (fun c => c == '-' || c.isDigit) = false) :
    s.number = .failed s := by
  have hscan : State.scanNumber s.skipBlanks.rest = [] := by
    rw [State.skipBlanks_rest]
    cases hcs : Text.dropBlanks s.rest with
    | nil => rfl
    | cons a rest =>
      have ha : a ≠ '-' ∧ a.isDigit = false := by simpa [front, hcs] using h
      unfold State.scanNumber
      split
      · rename_i more heq
        exact absurd (List.cons.inj heq).1 ha.1
      · simp [State.scanMagnitude, ha.2]
  simp [State.number, hscan]

theorem quoted_of_front (h : (front s.rest).any State.isQuote = false) :
    s.quotedText = .failed s := by
  cases hcs : Text.dropBlanks s.rest with
  | nil => simp [State.quotedText, State.skipBlanks_rest, hcs]
  | cons a rest =>
    have ha : State.isQuote a = false := by simpa [front, hcs] using h
    simp [State.quotedText, State.skipBlanks_rest, hcs, ha]

end Tokens

/-! ## Rules -/

section Run

variable {call : ν → State → Outcome} {names : ν → Option Char → Bool} {levels : Nat}

mutual

/-- A rule fails on a text that it cannot begin with. -/
theorem run_of_front (hcall : ∀ name s, s.HasRoom levels →
      names name (front s.rest) = false → call name s = .failed s) :
    ∀ (rule : Rule ν) (s : State), s.HasRoom levels → mayBegin names rule (front s.rest) = false →
      run call rule s = .failed s
  | .literal text logged, s, hs, h => by
    obtain ⟨first, hfirst, hne⟩ := of_all_eq_false h
    exact literal_of_front hfirst (by simpa using hne)
  | .keyword name, s, hs, h => by
    obtain ⟨first, hfirst, hne⟩ := of_all_eq_false h
    exact keyword_of_front hfirst (by simpa using hne)
  | .word, s, hs, h => name_of_front (by simpa only [mayBegin] using h)
  | .number, s, hs, h => number_of_front (by simpa only [mayBegin] using h)
  | .quoted, s, hs, h => quoted_of_front (by simpa only [mayBegin] using h)
  | .choice rules, s, hs, h => runFirst_of_front hcall rules s hs (by simpa only [mayBegin] using h)
  | .longest rules, s, hs, h => by
    have heach := runEach_of_front hcall rules s 0 none hs (by simpa only [mayBegin] using h)
    simp only [run, heach]
  | .sequence rules, s, hs, h => by
    have hall := runAll_of_front hcall rules s [] hs (by simpa only [mayBegin] using h)
    rwa [State.past_zero] at hall
  | .list item separator, s, hs, h => by
    have hitem := run_of_front hcall item s hs (by simpa only [mayBegin] using h)
    simp only [run, hitem, Outcome.andThen]
  | .silent rule, s, hs, h => by
    have hrule := run_of_front hcall rule s hs (by simpa only [mayBegin] using h)
    simp only [run, hrule, Outcome.andThen]
  | .nonterminal name, s, hs, h => hcall name s hs (by simpa only [mayBegin] using h)
  | .optional _, _, _, h => by simp [mayBegin] at h
  | .many _, _, _, h => by simp [mayBegin] at h
  | .peek _ _, _, _, h => by simp [mayBegin] at h
  | .required _ _, _, _, h => by simp [mayBegin] at h
  | .action _, _, _, h => by simp [mayBegin] at h

theorem runFirst_of_front (hcall : ∀ name s, s.HasRoom levels →
      names name (front s.rest) = false → call name s = .failed s) :
    ∀ (rules : List (Rule ν)) (s : State), s.HasRoom levels →
      anyMayBegin names rules (front s.rest) = false →
      runFirst call rules s = .failed s
  | [], _, _, _ => rfl
  | rule :: rest, s, hs, h => by
    simp only [anyMayBegin, Bool.or_eq_false_iff] at h
    simp only [runFirst, run_of_front hcall rule s hs h.1, Outcome.orElse]
    exact runFirst_of_front hcall rest s hs h.2

theorem runEach_of_front (hcall : ∀ name s, s.HasRoom levels →
      names name (front s.rest) = false → call name s = .failed s) :
    ∀ (rules : List (Rule ν)) (s : State) (index : Nat) (best : Option Best),
      s.HasRoom levels → anyMayBegin names rules (front s.rest) = false →
      runEach call s.mark rules index best s = .ok (best, s)
  | [], _, _, _, _, _ => rfl
  | rule :: rest, s, index, best, hs, h => by
    simp only [anyMayBegin, Bool.or_eq_false_iff] at h
    simp only [runEach, run_of_front hcall rule s hs h.1, State.reset_mark]
    exact runEach_of_front hcall rest s (index + 1) best hs h.2

/-- Markers in front of the first rule only add to the log, and failing takes them back. -/
theorem runAll_of_front (hcall : ∀ name s, s.HasRoom levels →
      names name (front s.rest) = false → call name s = .failed s) :
    ∀ (rules : List (Rule ν)) (s : State) (tokens : List Token),
      s.HasRoom levels → firstMayBegin names rules (front s.rest) = false →
      runAll call s.mark rules (s.past 0 tokens) = .failed s
  | [], _, _, _, h => by simp [firstMayBegin] at h
  | rule :: rest, s, tokens, hs, h => by
    by_cases haction : ∃ m, rule = .action m
    · obtain ⟨m, rfl⟩ := haction
      have hrest := runAll_of_front hcall rest s (tokens ++ [.ofMarker m (s.past 0 tokens).cursor]) hs
        (by simpa only [firstMayBegin] using h)
      simpa only [runAll, run, State.pushMarker_eq_past, State.past_past] using hrest
    · have hbegin : mayBegin names rule (front (s.past 0 tokens).rest) = false := by
        have : firstMayBegin names (rule :: rest) (front s.rest) =
            mayBegin names rule (front s.rest) := by
          cases rule with
          | action m => exact absurd ⟨m, rfl⟩ haction
          | _ => rfl
        rw [State.past_rest, List.drop_zero, ← this, h]
      have hrule := run_of_front hcall rule _ (hs.past 0 tokens) hbegin
      simp only [runAll, hrule, State.past_reset]

end

end Run

variable {body : ν → Rule ν}

theorem calls_of_front : ∀ (levels more : Nat) (name : ν) (s : State),
    s.HasRoom (levels + more) → namesMayBegin body levels name (front s.rest) = false →
      calls body (levels + more) name s = .failed s
  | 0, _, _, _, _, h => by simp [namesMayBegin] at h
  | levels + 1, more, name, s, hs, h => by
    have hroom : s.HasRoom (levels + more + 1) := by
      simpa only [Nat.add_right_comm] using hs
    have henter := enter_of_room hroom
    have hinside : s.enter.2.HasRoom (levels + more) := by
      simp only [henter, State.HasRoom] at hroom ⊢
      omega
    have hbody := run_of_front (calls_of_front levels more) (body name) s.enter.2 hinside
      (by rw [henter]; exact h)
    rw [Nat.add_right_comm]
    simp only [calls, runWithin_eq]
    rw [hbody, henter]
    rfl

/-- A text that the rule cannot begin with is rejected. -/
theorem rejectsAt_of_front {rule : Rule ν} {cs : List Char} {c : Option Char} {levels room : Nat}
    (hroom : levels ≤ room) (hfront : front cs = c)
    (h : mayBegin (namesMayBegin body levels) rule c = false) : RejectsAt body room rule cs := by
  intro s hs
  obtain ⟨more, rfl⟩ := Nat.exists_eq_add_of_le hroom
  refine run_of_front (calls_of_front levels more) rule s hs.room ?_
  rw [hs.rest, hfront]
  exact h

theorem rejects_of_front {rule : Rule ν} {cs : List Char} {c : Option Char} (levels : Nat)
    (hfront : front cs = c) (h : mayBegin (namesMayBegin body levels) rule c = false) :
    Rejects body rule cs :=
  ⟨levels, fun _ hroom => rejectsAt_of_front hroom hfront h⟩

end LinkQuery.Rule
