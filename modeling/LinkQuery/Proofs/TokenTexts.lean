import LinkQuery.Proofs.Lexing
/-!
# Texts of numbers and quoted texts

Which texts numbers and quoted texts accept, and which alternative is the longest.

Main statements:
- `Rule.Accepts.number`, `Rule.Accepts.quoted`: the texts of tokens.
- `Rule.matchAt_quote`: what a quoted text is matched as, whatever follows.
- `Rule.Accepts.longest`: the alternative that reaches farthest.
-/
namespace LinkQuery

namespace Rule

variable {ν : Type} {body : ν → Rule ν} {levels : Nat} {cs rest : List Char}

/-! ## Numbers -/

/-- The digits of a number with an optional sign and optional decimal places. -/
inductive IsNumber : List Char → Prop
  | whole {digits : List Char} (hne : digits ≠ []) (h : ∀ c ∈ digits, c.isDigit = true) :
    IsNumber digits
  | places {digits more : List Char} (hne : digits ≠ []) (h : ∀ c ∈ digits, c.isDigit = true)
    (hmore : more ≠ []) (hall : ∀ c ∈ more, c.isDigit = true) :
    IsNumber (digits ++ '.' :: more)
  | negative {digits : List Char} (hfirst : ∀ c ∈ digits.head?, c ≠ '-') (h : IsNumber digits) :
    IsNumber ('-' :: digits)

/-- Neither a name nor a number goes on at the front of the text. -/
structure EndsNumber (rest : List Char) : Prop where
  name : EndsName rest
  point : rest.head? ≠ some '.'

theorem isNameChar_of_isDigit {c : Char} (h : c.isDigit = true) : Text.isNameChar c = true := by
  have hascii : c.toNat < 128 := by
    rw [Char.isDigit_iff_toNat] at h
    have hnine : '9'.toNat = 57 := rfl
    omega
  simp [Text.isNameChar, Text.isNumeral, hascii, h]

theorem EndsNumber.digit (h : EndsNumber rest) : ∀ c ∈ rest.head?, c.isDigit = false := by
  intro c hc
  rw [← Bool.not_eq_true]
  intro hdigit
  have hname := isNameChar_of_isDigit hdigit
  rw [h.name c hc] at hname
  cases hname

theorem takeWhile_digits {digits : List Char} (h : ∀ c ∈ digits, c.isDigit = true)
    (hrest : ∀ c ∈ rest.head?, c.isDigit = false) :
    (digits ++ rest).takeWhile Char.isDigit = digits := by
  rw [List.takeWhile_append_of_pos h]
  cases rest with
  | nil => simp
  | cons c rest => simp [hrest c rfl]

theorem scanPlaces_none (h : EndsNumber rest) : State.scanPlaces rest = [] := by
  cases rest with
  | nil => rfl
  | cons c rest =>
    have hpoint : c ≠ '.' := by simpa using h.point
    unfold State.scanPlaces
    split
    · rename_i heq
      exact absurd (List.cons.inj heq).1 hpoint
    · rfl

theorem scanMagnitude_whole {digits : List Char} (hne : digits ≠ [])
    (h : ∀ c ∈ digits, c.isDigit = true) (hrest : EndsNumber rest) :
    State.scanMagnitude (digits ++ rest) = digits := by
  simp [State.scanMagnitude, takeWhile_digits h hrest.digit, hne, scanPlaces_none hrest]

theorem scanMagnitude_places {digits more : List Char} (hne : digits ≠ [])
    (h : ∀ c ∈ digits, c.isDigit = true) (hmore : more ≠ []) (hall : ∀ c ∈ more, c.isDigit = true)
    (hrest : EndsNumber rest) :
    State.scanMagnitude (digits ++ '.' :: more ++ rest) = digits ++ '.' :: more := by
  have hpoint : ∀ c ∈ ('.' :: (more ++ rest)).head?, c.isDigit = false := by
    rintro _ ⟨⟩
    decide
  have hplaces : State.scanPlaces ('.' :: (more ++ rest)) = '.' :: more := by
    simp [State.scanPlaces, takeWhile_digits hall hrest.digit, hmore]
  simp [State.scanMagnitude, List.append_assoc, takeWhile_digits h hpoint, hne, hplaces]

theorem scanNumber_of_magnitude (h : ∀ c ∈ cs.head?, c ≠ '-') :
    State.scanNumber cs = State.scanMagnitude cs := by
  unfold State.scanNumber
  split
  · rename_i more
    exact absurd rfl (h '-' rfl)
  · rfl

theorem IsNumber.nonempty (h : IsNumber cs) : cs ≠ [] := by
  cases h with
  | whole hne h => exact hne
  | places hne h hmore hall => simp
  | negative hfirst h => simp

theorem ne_minus_of_isDigit {c : Char} (h : c.isDigit = true) : c ≠ '-' := by
  rintro rfl
  exact absurd h (by decide)

theorem digits_head {digits tail : List Char} (hne : digits ≠ [])
    (h : ∀ c ∈ digits, c.isDigit = true) : ∀ c ∈ (digits ++ tail).head?, c ≠ '-' := by
  obtain ⟨d, more, rfl⟩ := List.exists_cons_of_ne_nil hne
  rintro _ ⟨⟩
  exact ne_minus_of_isDigit (h d (List.mem_cons_self ..))

theorem IsNumber.scan (h : IsNumber cs) (hrest : EndsNumber rest) :
    State.scanNumber (cs ++ rest) = cs := by
  cases h with
  | whole hne h =>
    rw [scanNumber_of_magnitude (digits_head hne h), scanMagnitude_whole hne h hrest]
  | @places digits more hne h hmore hall =>
    have hfirst : ∀ c ∈ (digits ++ ('.' :: more ++ rest)).head?, c ≠ '-' := digits_head hne h
    rw [← List.append_assoc] at hfirst
    rw [scanNumber_of_magnitude hfirst, scanMagnitude_places hne h hmore hall hrest]
  | @negative digits hfirst h =>
    have hmagnitude : State.scanMagnitude (digits ++ rest) = digits := by
      cases h with
      | whole hne h => exact scanMagnitude_whole hne h hrest
      | places hne h hmore hall => exact scanMagnitude_places hne h hmore hall hrest
      | negative hfirst' h => exact absurd rfl (hfirst '-' rfl)
    simp [State.scanNumber, hmagnitude, h.nonempty]

theorem AcceptsAt.number {digits : List Char} (h : Text.dropBlanks cs = digits ++ rest)
    (hdigits : IsNumber digits) (hrest : EndsNumber rest) :
    AcceptsAt body levels .number cs rest [(.number, String.ofList digits)] := by
  intro s hs
  have hscan : State.scanNumber s.skipBlanks.rest = digits := by
    rw [State.skipBlanks_rest, hs.rest, h, hdigits.scan hrest]
  have hbehind : s.skipBlanks.rest[digits.length]? = rest.head? := by
    rw [State.skipBlanks_rest, hs.rest, h, List.getElem?_append_right (Nat.le_refl _), Nat.sub_self,
      List.head?_eq_getElem?]
  have hboundary : s.skipBlanks.isBoundary digits.length = true := by
    simp only [State.isBoundary, State.peek?, hbehind]
    cases hhead : rest.head? with
    | none => rfl
    | some c => simp [hrest.name c hhead]
  have hnonempty : digits.isEmpty = false := by simpa using hdigits.nonempty
  simp only [run, State.number, hscan, hnonempty, hboundary, Bool.not_false, Bool.and_self, if_true,
    State.take_eq_past]
  exact leaves_token hs.rest h rfl

theorem Accepts.number {digits : List Char} (h : Text.dropBlanks cs = digits ++ rest)
    (hdigits : IsNumber digits) (hrest : EndsNumber rest) :
    Accepts body .number cs rest [(.number, String.ofList digits)] :=
  ⟨0, fun _ _ => AcceptsAt.number h hdigits hrest⟩

/-! ## Quoted texts -/

theorem scanQuoted_close (rest read : List Char) (length : Nat) :
    Text.scanQuoted '\'' read length ('\'' :: rest) = .closed read.reverse (length + 1) rest := by
  rw [Text.scanQuoted.eq_def]
  rfl

theorem scanQuoted_escaped (e : Char) (rest read : List Char) (length : Nat) :
    Text.scanQuoted '\'' read length ('\\' :: e :: rest) =
      Text.scanQuoted '\'' (Text.unescape e :: read) (length + 2) rest := by
  rw [Text.scanQuoted.eq_def]
  rfl

theorem scanQuoted_plain {c : Char} (rest read : List Char) (length : Nat) (hquote : c ≠ '\'')
    (hescape : c ≠ '\\') : Text.scanQuoted '\'' read length (c :: rest) =
      Text.scanQuoted '\'' (c :: read) (length + 1) rest := by
  rw [Text.scanQuoted.eq_def]
  simp [hquote, hescape]

theorem scanQuoted_quoted (text rest read : List Char) (length : Nat) :
    Text.scanQuoted '\'' read length (text.flatMap Text.quoteChar ++ '\'' :: rest) =
      .closed (read.reverse ++ text) (length + (text.flatMap Text.quoteChar).length + 1) rest := by
  induction text generalizing read length with
  | nil => simp [scanQuoted_close]
  | cons c text ih =>
    have hplain : ∀ e : Char, Text.unescape e = c → Text.quoteChar c = ['\\', e] →
        Text.scanQuoted '\'' read length ((c :: text).flatMap Text.quoteChar ++ '\'' :: rest) =
          .closed (read.reverse ++ c :: text)
            (length + ((c :: text).flatMap Text.quoteChar).length + 1) rest := by
      intro e hunescape hquote
      have hstep := ih (c :: read) (length + 2)
      simp only [List.flatMap_cons, hquote, List.cons_append, List.nil_append, List.length_cons]
      rw [scanQuoted_escaped, hunescape, hstep]
      simp only [List.reverse_cons, List.append_assoc, List.singleton_append]
      congr 1
      omega
    by_cases hescape : c = '\'' ∨ c = '\\'
    · refine hplain c ?_ ?_
      · rcases hescape with rfl | rfl <;> rfl
      · rcases hescape with rfl | rfl <;> rfl
    · by_cases hcontrol : c = '\n' ∨ c = '\t' ∨ c = '\r'
      · rcases hcontrol with rfl | rfl | rfl
        · exact hplain 'n' rfl rfl
        · exact hplain 't' rfl rfl
        · exact hplain 'r' rfl rfl
      · simp only [not_or] at hescape hcontrol
        have hquote : Text.quoteChar c = [c] := by
          simp [Text.quoteChar, hescape, hcontrol]
        have hstep := ih (c :: read) (length + 1)
        simp only [List.flatMap_cons, hquote, List.cons_append, List.nil_append, List.length_cons]
        rw [scanQuoted_plain _ _ _ hescape.1 hescape.2, hstep]
        simp only [List.reverse_cons, List.append_assoc, List.singleton_append]
        congr 1
        omega

theorem toList_quote (text : String) :
    (Text.quote text).toList = '\'' :: (text.toList.flatMap Text.quoteChar ++ ['\'']) := by
  simp [Text.quote]

/-- Behind white space a quoted text is taken up to the quote that ends it, whatever follows. -/
theorem quotedText_quote {s : State} {text : String}
    (h : s.skipBlanks.rest = (Text.quote text).toList ++ rest) :
    s.quotedText = .matched (s.skipBlanks.take .quoted text (Text.quote text).toList.length) := by
  have hrest : s.skipBlanks.rest =
      '\'' :: (text.toList.flatMap Text.quoteChar ++ '\'' :: rest) := by
    rw [h, toList_quote]
    simp
  have hscan := scanQuoted_quoted text.toList rest [] 0
  rw [List.reverse_nil, List.nil_append, Nat.zero_add] at hscan
  have hquote : State.isQuote '\'' = true := by decide
  have hlength : (text.toList.flatMap Text.quoteChar).length + 1 + 1 =
      (Text.quote text).toList.length := by
    rw [toList_quote]
    simp
  simp only [State.quotedText, hrest, hquote, Bool.not_true, Bool.false_eq_true, if_false, hscan,
    String.ofList_toList]
  rw [hlength]

theorem Accepts.quoted {text : String}
    (h : Text.dropBlanks cs = (Text.quote text).toList ++ rest) :
    Accepts body .quoted cs rest [(.quoted, text)] := by
  refine ⟨0, fun levels _ s hs => ?_⟩
  have hrest : s.skipBlanks.rest = (Text.quote text).toList ++ rest := by
    rw [State.skipBlanks_rest, hs.rest, h]
  simp only [run, quotedText_quote hrest, State.take_eq_past]
  exact leaves_token hs.rest h rfl

/--
A quoted text ends at its own last quote: in every state it is matched, just its characters are
consumed, and its token holds the text, whatever the text contains and whatever follows.
-/
theorem matchAt_quote (body : ν → Rule ν) (text : String) (following : List Char) (s : State)
    (h : s.rest = (Text.quote text).toList ++ following) :
    matchAt body .quoted s = .matched { s with
      rest := following
      cursor := s.cursor + (Text.quote text).length
      log := s.log.push ⟨.quoted, text, s.cursor⟩ } := by
  -- The first character is a quote, so no white space is skipped.
  have hblanks : s.skipBlanks = s := by
    rw [State.skipBlanks_eq_past, h, toList_quote]
    exact s.past_zero
  have hbehind : s.skipBlanks.rest = (Text.quote text).toList ++ following := by
    rw [hblanks, h]
  have hquoted := quotedText_quote hbehind
  rw [hblanks] at hquoted
  have hadvance : s.advance (Text.quote text).toList.length =
      { s with rest := following, cursor := s.cursor + (Text.quote text).length } := by
    simp [State.advance, h, String.length_toList]
  rw [matchAt, runWithin_eq, run, hquoted, State.take, hadvance]
  rfl

/-- Quotes, a backslash at the end and a line break, with another quote right behind. -/
theorem matchAt_quote_mixed : ∃ s : State,
    s.rest = (Text.quote "it's \"so\"\n\\").toList ++ "'n".toList ∧
      matchAt (fun name : Unit => .nonterminal name) .quoted s = .matched { s with
        rest := "'n".toList
        cursor := s.cursor + (Text.quote "it's \"so\"\n\\").length
        log := s.log.push ⟨.quoted, "it's \"so\"\n\\", s.cursor⟩ } :=
  ⟨State.start ((Text.quote "it's \"so\"\n\\").toList ++ "'n".toList) 8, rfl,
    matchAt_quote _ _ _ _ rfl⟩

/-! ## The longest alternative -/

theorem past_cursor {s : State} {levels : Nat} {read mid : List Char}
    (hs : s.Before levels (read ++ mid)) (tokens : List Token) :
    (s.past read.length tokens).cursor = s.cursor + read.length := by
  simp [State.past, State.advance, hs.rest]

/-- Alternatives that fail or end earlier leave only such a best one. -/
theorem runEach_before {before : List (Rule ν)}
    (h : ∀ rule ∈ before, Rejects body rule cs ∨
      ∃ mid lexemes, Accepts body rule cs mid lexemes ∧ rest.length < mid.length) :
    ∃ enough, ∀ levels ≥ enough, ∀ s : State, s.Before levels cs →
      ∀ (more : List (Rule ν)) (index : Nat) (best : Option Best),
        (∀ b ∈ best, b.cursor + rest.length < s.cursor + cs.length) →
        ∃ best' : Option Best, (∀ b ∈ best', b.cursor + rest.length < s.cursor + cs.length) ∧
          runEach (calls body levels) s.mark (before ++ more) index best s =
            runEach (calls body levels) s.mark more (index + before.length) best' s := by
  induction before with
  | nil => exact ⟨0, fun _ _ s _ more index best hbest => ⟨best, hbest, rfl⟩⟩
  | cons rule before ih =>
    simp only [List.mem_cons, forall_eq_or_imp] at h
    obtain ⟨enough, ih⟩ := ih h.2
    obtain ⟨enough', hone⟩ : ∃ enough, ∀ levels ≥ enough, ∀ s : State, s.Before levels cs →
        ∀ (more : List (Rule ν)) (index : Nat) (best : Option Best),
          (∀ b ∈ best, b.cursor + rest.length < s.cursor + cs.length) →
          ∃ best' : Option Best, (∀ b ∈ best', b.cursor + rest.length < s.cursor + cs.length) ∧
            runEach (calls body levels) s.mark (rule :: more) index best s =
              runEach (calls body levels) s.mark more (index + 1) best' s := by
      rcases h.1 with ⟨enough, hreject⟩ | ⟨mid, lexemes, ⟨enough, haccept⟩, hshort⟩
      · refine ⟨enough, fun levels hlevels s hs more index best hbest => ⟨best, hbest, ?_⟩⟩
        simp only [runEach, hreject levels hlevels s hs, State.reset_mark]
      · refine ⟨enough, fun levels hlevels s hs more index best hbest => ?_⟩
        obtain ⟨read, tokens, rfl, hrun, -⟩ := haccept levels hlevels s hs
        refine ⟨Best.improve best index (s.past read.length tokens).cursor, ?_,
          by simp only [runEach, hrun, State.past_reset]⟩
        have hcursor := past_cursor hs tokens
        have hnew : (s.past read.length tokens).cursor + rest.length <
            s.cursor + (read ++ mid).length := by
          rw [hcursor, List.length_append]
          omega
        unfold Best.improve
        split
        · rintro _ ⟨⟩
          exact hnew
        · split
          · rintro _ ⟨⟩
            exact hnew
          · exact hbest
    refine ⟨max enough enough', fun levels hlevels s hs more index best hbest => ?_⟩
    obtain ⟨best', hbest', hstep⟩ :=
      hone levels (by omega) s hs (before ++ more) index best hbest
    obtain ⟨last, hlast, hrest⟩ := ih levels (by omega) s hs more (index + 1) best' hbest'
    refine ⟨last, hlast, ?_⟩
    rw [List.cons_append, hstep, hrest, List.length_cons]
    congr 1
    omega

/-- Alternatives that fail or end no later leave the best one. -/
theorem runEach_after {after : List (Rule ν)}
    (h : ∀ rule ∈ after, Rejects body rule cs ∨
      ∃ mid lexemes, Accepts body rule cs mid lexemes ∧ rest.length ≤ mid.length) :
    ∃ enough, ∀ levels ≥ enough, ∀ s : State, s.Before levels cs →
      ∀ (index : Nat) (best : Best), best.cursor + rest.length = s.cursor + cs.length →
        runEach (calls body levels) s.mark after index (some best) s = .ok (some best, s) := by
  induction after with
  | nil => exact ⟨0, fun _ _ s _ index best _ => rfl⟩
  | cons rule after ih =>
    simp only [List.mem_cons, forall_eq_or_imp] at h
    obtain ⟨enough, ih⟩ := ih h.2
    rcases h.1 with ⟨enough', hreject⟩ | ⟨mid, lexemes, ⟨enough', haccept⟩, hshort⟩
    · refine ⟨max enough enough', fun levels hlevels s hs index best hbest => ?_⟩
      simp only [runEach, hreject levels (by omega) s hs, State.reset_mark]
      exact ih levels (by omega) s hs _ best hbest
    · refine ⟨max enough enough', fun levels hlevels s hs index best hbest => ?_⟩
      have hrest := ih levels (by omega) s hs (index + 1) best hbest
      obtain ⟨read, tokens, rfl, hrun, -⟩ := haccept levels (by omega) s hs
      have hcursor := past_cursor hs tokens
      have hold : ¬ best.cursor < (s.past read.length tokens).cursor := by
        rw [List.length_append] at hbest
        omega
      simp only [runEach, hrun, State.past_reset, Best.improve, if_neg hold]
      exact hrest

theorem runNth_append (call : ν → State → Outcome) (before after : List (Rule ν)) (rule : Rule ν)
    (s : State) : runNth call (before ++ rule :: after) before.length s = run call rule s := by
  induction before with
  | nil => rfl
  | cons first before ih => exact ih

/-- The alternative that reaches farther than those in front of it and as far as those behind. -/
theorem Accepts.longest {before after : List (Rule ν)} {rule : Rule ν} {lexemes : List Lexeme}
    (hbefore : ∀ rule ∈ before, Rejects body rule cs ∨
      ∃ mid lexemes, Accepts body rule cs mid lexemes ∧ rest.length < mid.length)
    (h : Accepts body rule cs rest lexemes)
    (hafter : ∀ rule ∈ after, Rejects body rule cs ∨
      ∃ mid lexemes, Accepts body rule cs mid lexemes ∧ rest.length ≤ mid.length) :
    Accepts body (.longest (before ++ rule :: after)) cs rest lexemes := by
  obtain ⟨enough, hbefore⟩ := runEach_before hbefore
  obtain ⟨enough', hafter⟩ := runEach_after hafter
  obtain ⟨enough'', h⟩ := h
  refine ⟨max enough (max enough' enough''), fun levels hlevels s hs => ?_⟩
  obtain ⟨best, hbest, heach⟩ := hbefore levels (by omega) s hs (rule :: after) 0 none (by simp)
  have hbehind := hafter levels (by omega) s hs
  have hone := h levels (by omega) s hs
  obtain ⟨read, tokens, rfl, hrun, -⟩ := h levels (by omega) s hs
  have hcursor := past_cursor hs tokens
  have hbetter : Best.improve best (0 + before.length) (s.past read.length tokens).cursor =
      some ⟨before.length, (s.past read.length tokens).cursor⟩ := by
    unfold Best.improve
    cases best with
    | none => simp
    | some old =>
      have hold := hbest old rfl
      rw [List.length_append] at hold
      simp only [Nat.zero_add]
      rw [if_pos (by omega)]
  have hall : runEach (calls body levels) s.mark (before ++ rule :: after) 0 none s =
      .ok (some ⟨before.length, (s.past read.length tokens).cursor⟩, s) := by
    rw [heach]
    simp only [runEach, hrun, State.past_reset, hbetter]
    refine hbehind _ _ ?_
    dsimp only
    rw [hcursor, List.length_append]
    omega
  simp only [run, hall, runNth_append]
  exact hone

end Rule

end LinkQuery
