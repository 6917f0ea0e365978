import LinkQuery.Proofs.Beginnings
import LinkQuery.Proofs.Rollback
import LinkQuery.Proofs.Termination
/-!
# Where errors point

A match moves its cursor, back and forth, but never out of the input, and where it halts it names a
place between the first character and the end of the input. So a syntax error points to a character
of the text or behind the last one, and quotes the text from there on. A text that is accepted is
used up except for white space, and input that is left over is reported at its first character that
is not white space.

Main statements:
- `Rule.Runs.staysInside`: no run leaves the input, and none halts outside of it.
- `TokenLog.errors_point_into_text`: what a syntax error says about its place, and how much of an
  accepted text is matched.
-/
namespace LinkQuery

namespace Rule

variable {ν : Type}

/-! ## Runs inside the input -/

/-- The mark stands in an input of this length. -/
def Mark.Spans (length : Nat) (m : Mark) : Prop :=
  m.cursor + m.rest.length = length

namespace State

/-- The cursor stands in an input of this length: the characters in front of it and those that are
left make up the whole. -/
def Spans (length : Nat) (s : State) : Prop :=
  s.cursor + s.rest.length = length

variable {length : Nat} {s : State}

theorem start_spans (input : List Char) (maxDepth : Nat) :
    (start input maxDepth).Spans input.length :=
  Nat.zero_add _

theorem Spans.cursor_le (h : s.Spans length) : s.cursor ≤ length := by
  unfold Spans at h
  omega

theorem Spans.past (h : s.Spans length) (count : Nat) (tokens : List Token) :
    (s.past count tokens).Spans length := by
  unfold Spans at h ⊢
  simp only [State.past, advance, List.length_take, List.length_drop]
  omega

theorem Spans.skipBlanks (h : s.Spans length) : s.skipBlanks.Spans length := by
  rw [skipBlanks_eq_past]
  exact h.past _ _

theorem Spans.mark (h : s.Spans length) : s.mark.Spans length :=
  h

theorem Spans.enter (h : s.Spans length) : s.enter.2.Spans length := by
  simp only [State.enter]
  split <;> exact h

end State

/-- The match goes on, or fails, inside an input of this length, or it halts at a place in it. -/
def Outcome.StaysInside (length : Nat) : Outcome → Prop
  | .matched s => s.Spans length
  | .failed s => s.Spans length
  | .halted why _ => why.position ≤ length

section Steps

variable {length : Nat} {s : State} {o : Outcome}

theorem literal_staysInside (hs : s.Spans length) (text : String) (logged : Bool) :
    (s.literal text logged).StaysInside length := by
  simp only [State.literal, State.take_eq_past, State.advance_eq_past]
  split
  · split
    · exact hs.skipBlanks.past _ _
    · exact hs.skipBlanks.past _ _
  · exact hs

theorem keyword_staysInside (hs : s.Spans length) (word : String) :
    (s.keyword word).StaysInside length := by
  simp only [State.keyword, State.take_eq_past]
  split
  · exact hs.skipBlanks.past _ _
  · exact hs

theorem name_staysInside (hs : s.Spans length) : s.name.StaysInside length := by
  simp only [State.name, State.take_eq_past]
  split
  · exact hs
  · exact hs.skipBlanks.past _ _

theorem number_staysInside (hs : s.Spans length) : s.number.StaysInside length := by
  simp only [State.number, State.take_eq_past]
  split
  · exact hs.skipBlanks.past _ _
  · exact hs

/-- An escape that the input ends in stands in front of the end. -/
theorem lt_of_danglingEscape {quote : Char} {content cs : List Char} {read reached : Nat}
    (h : Text.scanQuoted quote content read cs = .danglingEscape reached) :
    reached < read + cs.length := by
  fun_induction Text.scanQuoted quote content read cs with
  | case1 => cases h
  | case2 => cases h
  | case3 =>
    cases h
    exact Nat.lt_succ_self _
  | case4 content read c hquote hescape e rest ih =>
    have hrest := ih h
    simp only [List.length_cons]
    omega
  | case5 content read c rest hquote hescape ih =>
    have hrest := ih h
    rw [List.length_cons]
    omega

theorem quotedText_staysInside (hs : s.Spans length) : s.quotedText.StaysInside length := by
  have hthere := hs.skipBlanks
  simp only [State.quotedText, State.take_eq_past]
  split
  · exact hs
  · rename_i q rest hrest
    split
    · exact hs
    · split
      · exact hthere.past _ _
      · exact hthere.cursor_le
      · rename_i reached hscan
        have hreached := lt_of_danglingEscape hscan
        unfold State.Spans at hthere
        rw [hrest, List.length_cons] at hthere
        simp only [Outcome.StaysInside]
        omega

theorem Outcome.StaysInside.orElse {next : State → Outcome} (h : o.StaysInside length)
    (hnext : ∀ t, t.Spans length → (next t).StaysInside length) :
    (o.orElse next).StaysInside length := by
  cases o with
  | matched t => exact h
  | failed t => exact hnext t h
  | halted why t => exact h

theorem Outcome.StaysInside.lookAhead {m : Mark} (h : o.StaysInside length) (hm : m.Spans length)
    (negate : Bool) : (lookAhead negate m o).StaysInside length := by
  cases o with
  | matched t => cases negate <;> exact hm
  | failed t => cases negate <;> exact hm
  | halted why t => exact h

end Steps

section StaysInside

variable {body : ν → Rule ν} {length : Nat}

mutual

/-- No run leaves the input, and none halts outside of it. -/
theorem Runs.staysInside {rule : Rule ν} {s : State} {o : Outcome} :
    Runs body rule s o → s.Spans length → o.StaysInside length
  | .literal, hs => literal_staysInside hs _ _
  | .keyword, hs => keyword_staysInside hs _
  | .word, hs => name_staysInside hs
  | .number, hs => number_staysInside hs
  | .quoted, hs => quotedText_staysInside hs
  | .choice h, hs => h.staysInside hs
  | .longestHalted h, hs => h.staysInside hs hs
  | .longestFailed h, hs => h.staysInside hs hs
  | .longest h hbest, hs => hbest.staysInside (h.staysInside hs hs)
  | .sequence h, hs => h.staysInside hs hs
  | .list hfirst h, hs => h.staysInside (hfirst.staysInside hs)
  | .listFailed hfirst, hs => hfirst.staysInside hs
  | .listHalted hfirst, hs => hfirst.staysInside hs
  | .optional h, hs => (h.staysInside hs).orElse fun _ ht => ht
  | .many h, hs => h.staysInside hs
  | .peek h, hs => (h.staysInside hs).lookAhead hs.mark _
  -- What is missing is reported behind the white space.
  | .required h, hs => (h.staysInside hs).orElse fun _ ht => ht.skipBlanks.cursor_le
  | .silent h, hs => by
    have hone := h.staysInside hs
    revert hone
    cases ‹Outcome› <;> exact id
  | .action, hs => hs
  | .entered _ h, hs => by
    have hone := h.staysInside hs.enter
    revert hone
    cases ‹Outcome› <;> exact id
  | .refused _, hs => hs.cursor_le
termination_by structural h => h

theorem RunsFirst.staysInside {rules : List (Rule ν)} {s : State} {o : Outcome} :
    RunsFirst body rules s o → s.Spans length → o.StaysInside length
  | .none, hs => hs
  | .matched h, hs => h.staysInside hs
  | .halted h, hs => h.staysInside hs
  | .next h hrest, hs => hrest.staysInside (h.staysInside hs)
termination_by structural h => h

theorem RunsEach.staysInside {m : Mark} {rules : List (Rule ν)} {index : Nat} {best : Option Best}
    {s : State} {o : Except (Halt × State) (Option Best × State)} :
    RunsEach body m rules index best s o → m.Spans length → s.Spans length →
      match o with
      | .ok (_, t) => t.Spans length
      | .error (why, _) => why.position ≤ length
  | .none, _, hs => hs
  | .matched _ hrest, hm, _ => hrest.staysInside hm hm
  | .failed _ hrest, hm, _ => hrest.staysInside hm hm
  | .halted h, _, hs => h.staysInside hs
termination_by structural h => h

theorem RunsNth.staysInside {rules : List (Rule ν)} {index : Nat} {s : State} {o : Outcome} :
    RunsNth body rules index s o → s.Spans length → o.StaysInside length
  | .none, hs => hs
  | .here h, hs => h.staysInside hs
  | .later h, hs => h.staysInside hs
termination_by structural h => h

theorem RunsAll.staysInside {m : Mark} {rules : List (Rule ν)} {s : State} {o : Outcome} :
    RunsAll body m rules s o → m.Spans length → s.Spans length → o.StaysInside length
  | .done, _, hs => hs
  | .next h hrest, hm, hs => hrest.staysInside hm (h.staysInside hs)
  | .failed _, hm, _ => hm
  | .halted h, _, hs => h.staysInside hs
termination_by structural h => h

theorem RunsRounds.staysInside {rule : Rule ν} {s : State} {o : Outcome} :
    RunsRounds body rule s o → s.Spans length → o.StaysInside length
  | .more h _ hrest, hs => hrest.staysInside (h.staysInside hs)
  | .done h, hs => h.staysInside hs
  | .halted h, hs => h.staysInside hs
termination_by structural h => h

end

end StaysInside

end Rule

namespace TokenLog

open Rule (State)

/-! ## Errors and matches of a text -/

/-- The grammar of the kind matches the first part of the text, logs the tokens and leaves the
rest. -/
def MatchesPrefix (settings : Settings) (kind : ExpressionKind) (text : String)
    (read rest : List Char) (tokens : List Token) : Prop :=
  text.toList = read ++ rest ∧
    ∃ t, Rule.matchAt Language.Part.body kind.rule (State.start text.toList settings.maxNesting) =
      .matched t ∧ t.cursor = read.length ∧ t.rest = rest ∧ t.log.toList = tokens

/-- The characters are white space. -/
def AreBlanks (cs : List Char) : Prop :=
  ∀ c ∈ cs, Text.isBlank c = true

/-- The characters of a text from a place on; places count from 1. -/
def charsFrom (text : String) (place : Nat) : List Char :=
  text.toList.drop (place - 1)

/-- The character at a place of a text, as errors show it. -/
def charAt (text : String) (place : Nat) : String :=
  (text.toList[place - 1]?).elim "<end of input>" String.singleton

/-- The error names a place, from 1 to one behind the end of the text, shows the character there
and gives the text from there on. -/
structure PointsInto (text : String) (error : QueryError) (reason : Mismatch) (place : Nat) :
    Prop where
  one_le : 1 ≤ place
  le_end : place ≤ text.length + 1
  error_eq : error = .mismatch reason (place - 1) (charsFrom text place)
  message_eq : error.message =
    s!"Syntax error at character '{charAt text place}', position {place}: {reason.message} " ++
      s!"(remaining: '{String.ofList (charsFrom text place)}')"

theorem expected_message_ne (what : String) :
    (Mismatch.expected what).message ≠ "unexpected input" := by
  intro h
  have hfirst := congrArg (fun text : String => text.toList.head?) h
  simp [Mismatch.message] at hfirst

theorem found_charsFrom (text : String) (place : Nat) :
    QueryError.found (charsFrom text place) = charAt text place := by
  rw [charAt, charsFrom, ← List.head?_drop]
  cases text.toList.drop (place - 1) <;> rfl

theorem pointsInto_mismatchAt {text : String} {index : Nat} (h : index ≤ text.length)
    (reason : Mismatch) :
    PointsInto text (.mismatchAt text.toList index reason) reason (index + 1) where
  one_le := Nat.le_add_left 1 index
  le_end := Nat.add_le_add_right h 1
  error_eq := rfl
  message_eq := by
    have hfrom : text.toList.drop index = charsFrom text (index + 1) := rfl
    rw [← found_charsFrom]
    unfold QueryError.mismatchAt
    rw [hfrom]
    rfl

section Scan

variable {settings : Settings} {kind : ExpressionKind} {text : String}

theorem start_spans_text (settings : Settings) (text : String) :
    (State.start text.toList settings.maxNesting).Spans text.length := by
  rw [← String.length_toList]
  exact State.start_spans _ _

/-- What the grammars do to a text stays inside the text. -/
theorem matchAt_staysInside (settings : Settings) (kind : ExpressionKind) (text : String) :
    (Rule.matchAt Language.Part.body kind.rule
      (State.start text.toList settings.maxNesting)).StaysInside text.length :=
  (runs_matchAt kind text.toList settings.maxNesting).staysInside (start_spans_text settings text)

theorem matchesPrefix_of_matched {t : State} (h : Rule.matchAt Language.Part.body kind.rule
    (State.start text.toList settings.maxNesting) = .matched t) :
    MatchesPrefix settings kind text (text.toList.take t.cursor) t.rest t.log.toList := by
  have hleft : (State.start text.toList settings.maxNesting).Extends t :=
    Rule.extends_of_matched (State.start_inInput _ _) h
  have hinput : t.input = text.toList.toArray := hleft.input_eq
  have hcursor := hleft.inInput.cursor_le
  have hrest := hleft.inInput.rest_eq
  rw [hinput] at hcursor hrest
  refine ⟨?_, t, h, ?_, rfl, rfl⟩
  · rw [hrest, List.take_append_drop]
  · rw [List.size_toArray] at hcursor
    rw [List.length_take, Nat.min_eq_left hcursor]

/-- A state whose characters begin with white space goes on behind it. -/
theorem skipBlanks_splits (t : State) : ∃ blanks, AreBlanks blanks ∧
    t.rest = blanks ++ t.skipBlanks.rest ∧ t.skipBlanks.cursor = t.cursor + blanks.length ∧
      ∀ c more, t.skipBlanks.rest = c :: more → Text.isBlank c = false := by
  refine ⟨t.rest.takeWhile Text.isBlank, List.all_eq_true.mp List.all_takeWhile, ?_, ?_, ?_⟩
  · rw [State.skipBlanks_rest]
    exact List.takeWhile_append_dropWhile.symm
  · have hle := (@List.takeWhile_prefix _ t.rest Text.isBlank).length_le
    simp only [State.skipBlanks, State.advance, List.length_take]
    omega
  · intro c more hrest
    rw [State.skipBlanks_rest, Text.dropBlanks] at hrest
    have hhead := List.head?_dropWhile_not Text.isBlank t.rest
    rw [hrest] at hhead
    exact hhead

/-- How the scan of a text can end. -/
inductive ScanEnds (settings : Settings) (kind : ExpressionKind) (text : String) :
    Except QueryError (List Token) → Prop
  | tooDeep (limit : Nat) : ScanEnds settings kind text (invalid (.tooDeep limit))
  | expected {index : Nat} (hindex : index ≤ text.length) (what : String) :
    ScanEnds settings kind text (.error (.mismatchAt text.toList index (.expected what)))
  | leftover {read blanks more : List Char} {c : Char} {tokens : List Token}
    (h : MatchesPrefix settings kind text read (blanks ++ c :: more) tokens)
    (hblanks : AreBlanks blanks) (hsolid : Text.isBlank c = false) : ScanEnds settings kind text
      (.error (.mismatchAt text.toList (read.length + blanks.length) .leftover))
  | accepted {read blanks : List Char} {tokens : List Token}
    (h : MatchesPrefix settings kind text read blanks tokens) (hblanks : AreBlanks blanks) :
    ScanEnds settings kind text (.ok tokens)

theorem haltError_ends {why : Rule.Halt} (h : why.position ≤ text.length) :
    ScanEnds settings kind text (.error (haltError text.toList why)) := by
  obtain ⟨position, cause⟩ := why
  cases cause with
  | nestingLimit limit => exact .tooDeep limit
  | required expected => exact .expected h _
  | unclosedQuote => exact .expected h _
  | danglingEscape => exact .expected h _
  | stalled => exact .expected h _

theorem finish_ends {t : State} (h : Rule.matchAt Language.Part.body kind.rule
    (State.start text.toList settings.maxNesting) = .matched t) :
    ScanEnds settings kind text (finish text.toList settings.maxNesting t) := by
  have hmatches := matchesPrefix_of_matched h
  have hlog : t.skipBlanks.log = t.log := rfl
  obtain ⟨blanks, hblanks, hrest, hcursor, hsolid⟩ := skipBlanks_splits t
  have hread : t.cursor = (text.toList.take t.cursor).length := by
    obtain ⟨-, u, hu, hlength, -⟩ := hmatches
    rw [h] at hu
    cases hu
    exact hlength
  simp only [finish, State.atEnd, hlog]
  cases hbehind : t.skipBlanks.rest with
  | nil =>
    rw [hrest, hbehind, List.append_nil] at hmatches
    simp only [List.isEmpty_nil, if_true]
    split
    · exact .tooDeep _
    · exact .accepted hmatches hblanks
  | cons c more =>
    rw [hrest, hbehind] at hmatches
    simp only [List.isEmpty_cons, Bool.false_eq_true, if_false]
    rw [hcursor, hread]
    exact .leftover hmatches hblanks (hsolid c more hbehind)

theorem scan_ends (settings : Settings) (kind : ExpressionKind) (text : String) :
    ScanEnds settings kind text (scan kind settings.maxNesting text.toList) := by
  have hinside := matchAt_staysInside settings kind text
  simp only [scan]
  split
  · rename_i why t hhalted
    rw [hhalted] at hinside
    exact haltError_ends hinside
  · exact .expected (start_spans_text settings text).skipBlanks.cursor_le _
  · rename_i t hmatched
    exact finish_ends hmatched

/-- A text that is neither too long nor blank is scanned. -/
theorem ofText_ends (settings : Settings) (kind : ExpressionKind) (text : String) :
    (∃ limit, ofText settings kind text = invalid (.tooLong text.length limit)) ∨
    (Text.isBlankText text = true ∧ ofText settings kind text = .ok []) ∨
      ScanEnds settings kind text (ofText settings kind text) := by
  by_cases hlong : text.length > settings.maxLength
  · refine .inl ⟨settings.maxLength, ?_⟩
    simp only [ofText, Settings.checkLength, Settings.checkLengthWithin, if_pos hlong]
    rfl
  · have hcheck : settings.checkLength text = .ok () := if_neg hlong
    have htext : ofText settings kind text = if Text.isBlankText text then .ok []
        else scan kind settings.maxNesting text.toList := by
      rw [ofText, hcheck]
      rfl
    rw [htext]
    by_cases hblank : Text.isBlankText text = true
    · exact .inr (.inl ⟨hblank, if_pos hblank⟩)
    · rw [if_neg hblank]
      exact .inr (.inr (scan_ends settings kind text))

end Scan

/-- A syntax error points to a character of the text or behind its end, and shows what is there.
Leftover input is reported at the first character behind the match that is not white space, and a
text that is accepted without being blank is matched up to white space. -/
theorem errors_point_into_text (settings : Settings) (kind : ExpressionKind) (text : String) :
    (∀ reason index remaining,
      ofText settings kind text = .error (.mismatch reason index remaining) →
        PointsInto text (.mismatch reason index remaining) reason (index + 1) ∧
        (reason.message = "unexpected input" → ∃ read blanks c more tokens,
          MatchesPrefix settings kind text read (blanks ++ c :: more) tokens ∧ AreBlanks blanks ∧
            Text.isBlank c = false ∧ index = read.length + blanks.length)) ∧
    ∀ tokens, Text.isBlankText text = false → ofText settings kind text = .ok tokens →
      ∃ read blanks, MatchesPrefix settings kind text read blanks tokens ∧ AreBlanks blanks := by
  have hends := ofText_ends settings kind text
  refine ⟨fun reason index remaining hrefused => ?_, fun tokens hsolid hread => ?_⟩
  · rw [hrefused] at hends
    rcases hends with ⟨limit, h⟩ | ⟨-, h⟩ | h
    · cases h
    · cases h
    · cases h with
      | expected hindex what =>
        refine ⟨pointsInto_mismatchAt hindex _, fun hmessage => ?_⟩
        exact absurd hmessage (expected_message_ne what)
      | leftover hmatches hblanks hsolid =>
        have hindex := congrArg List.length hmatches.1
        rw [String.length_toList, List.length_append, List.length_append] at hindex
        exact ⟨pointsInto_mismatchAt (by omega) _,
          fun _ => ⟨_, _, _, _, _, hmatches, hblanks, hsolid, rfl⟩⟩
  · rw [hread] at hends
    rcases hends with ⟨limit, h⟩ | ⟨hblank, -⟩ | h
    · cases h
    · rw [hblank] at hsolid
      cases hsolid
    · cases h with
      | accepted hmatches hblanks => exact ⟨_, _, hmatches, hblanks⟩

/-- The parenthesis that is left over is the twelfth character, and without it the text is matched
up to the blank. -/
theorem errors_point_into_text_parenthesis :
    (ofText (.standard ⟨0, 0, 0⟩) .filter "Name = 'x' )" = .error (.mismatch .leftover 11 [')']) ∧
      PointsInto "Name = 'x' )" (.mismatch .leftover 11 [')']) .leftover 12 ∧
      ∃ read blanks c more tokens, MatchesPrefix (.standard ⟨0, 0, 0⟩) .filter "Name = 'x' )" read
        (blanks ++ c :: more) tokens ∧ AreBlanks blanks ∧ Text.isBlank c = false ∧
          11 = read.length + blanks.length) ∧
    ∃ tokens, ofText (.standard ⟨0, 0, 0⟩) .filter "Name = 'x' " = .ok tokens ∧
      ∃ read blanks, MatchesPrefix (.standard ⟨0, 0, 0⟩) .filter "Name = 'x' " read blanks tokens ∧
        AreBlanks blanks := by
  have herror : (match ofText (.standard ⟨0, 0, 0⟩) .filter "Name = 'x' )" with
      | .error e => some e
      | .ok _ => none) = some (.mismatch .leftover 11 [')']) := by decide +kernel
  have hok : (ofText (.standard ⟨0, 0, 0⟩) .filter "Name = 'x' ").isOk = true := by decide +kernel
  have hfirst := (errors_point_into_text (.standard ⟨0, 0, 0⟩) .filter "Name = 'x' )").1
  have hsecond := (errors_point_into_text (.standard ⟨0, 0, 0⟩) .filter "Name = 'x' ").2
  refine ⟨?_, ?_⟩
  · cases hrefused : ofText (.standard ⟨0, 0, 0⟩) .filter "Name = 'x' )" with
    | ok tokens => simp [hrefused] at herror
    | error e =>
      rw [hrefused] at herror
      obtain rfl := Option.some.inj herror
      obtain ⟨hpoints, hleftover⟩ := hfirst _ _ _ hrefused
      exact ⟨rfl, hpoints, hleftover rfl⟩
  · cases hread : ofText (.standard ⟨0, 0, 0⟩) .filter "Name = 'x' " with
    | error e => simp [hread, Except.isOk, Except.toBool] at hok
    | ok tokens => exact ⟨tokens, rfl, hsecond tokens (by decide +kernel) hread⟩

end TokenLog

end LinkQuery
