import LinkQuery.Proofs.TokenShapes
/-!
# Paired parentheses

`closes` reads a text with some parentheses open in front of it and says whether each parenthesis
outside of quotes has its partner. A rule whose parentheses are paired reads a text that leaves as
many open as there were, and no single token reads on into a closing parenthesis behind the text.

Main statements:
- `Rule.closes`: the parentheses of a text are paired.
- `Rule.pairs`: the parentheses of a rule are paired.
- `Rule.Mirrors`: what a match does on a text and in front of closing parentheses.
- `Rule.literal_mirrors`, `Rule.keyword_mirrors`, `Rule.name_mirrors`, `Rule.number_mirrors`,
  `Rule.quotedText_mirrors`: single tokens.
-/
namespace LinkQuery.Rule

variable {ν : Type}

/-! ## Texts -/

/--
With some parentheses open in front of the text, the parentheses outside of quotes are paired. The
text begins inside of the given quote, if there is one; a quote that does not end takes all of it.
-/
def closes : Option Char → Nat → List Char → Bool
  | none, depth, [] => depth == 0
  | some _, _, [] => true
  | none, depth, c :: cs =>
    if c == '(' then closes none (depth + 1) cs
    else if c == ')' then depth != 0 && closes none (depth - 1) cs
    else if State.isQuote c then closes (some c) depth cs
    else closes none depth cs
  | some quote, depth, c :: cs =>
    if c == quote then closes none depth cs
    else if c == '\\' then
      match cs with
      | [] => true
      | _ :: cs => closes (some quote) depth cs
    else closes (some quote) depth cs

/-- A character that opens, closes and quotes nothing. -/
def isNeutral (c : Char) : Bool :=
  c != '(' && c != ')' && !State.isQuote c

theorem isNeutral_of {p : Char → Bool} {c : Char}
    (hp : ['(', ')', '\'', '"'].all (fun c => !p c) = true) (h : p c = true) :
    isNeutral c = true := by
  simp only [List.all_cons, List.all_nil, Bool.and_true, Bool.and_eq_true, Bool.not_eq_true'] at hp
  obtain ⟨hopen, hclose, hsingle, hdouble⟩ := hp
  have hne : ∀ {d : Char}, p d = false → c ≠ d := by
    rintro d hd rfl
    rw [h] at hd
    cases hd
  simp [isNeutral, State.isQuote, hne hopen, hne hclose, hne hsingle, hne hdouble]

section Closes

variable {depth : Nat} {cs rest : List Char} {c quote : Char}

theorem closes_cons (h : isNeutral c = true) :
    closes none depth (c :: cs) = closes none depth cs := by
  simp only [isNeutral, Bool.and_eq_true, bne_iff_ne, ne_eq, Bool.not_eq_true'] at h
  simp [closes, h.1.1, h.1.2, h.2]

theorem closes_append {read : List Char} (h : ∀ c ∈ read, isNeutral c = true) :
    closes none depth (read ++ rest) = closes none depth rest := by
  induction read with
  | nil => rfl
  | cons c read ih =>
    rw [List.forall_mem_cons] at h
    rw [List.cons_append, closes_cons h.1, ih h.2]

theorem closes_dropBlanks : closes none depth (Text.dropBlanks cs) = closes none depth cs := by
  have hblank : ∀ c ∈ cs.takeWhile Text.isBlank, isNeutral c = true := fun c hc =>
    isNeutral_of (by decide) (List.all_eq_true.mp List.all_takeWhile c hc)
  have hsplit := @closes_append depth (Text.dropBlanks cs) _ hblank
  rwa [Text.dropBlanks, List.takeWhile_append_dropWhile, eq_comm] at hsplit

theorem closes_opening : closes none depth ('(' :: cs) = closes none (depth + 1) cs := by
  simp [closes]

theorem closes_closing : closes none (depth + 1) (')' :: cs) = closes none depth cs := by
  simp [closes]

theorem closes_quote (h : State.isQuote quote = true) :
    closes none depth (quote :: cs) = closes (some quote) depth cs := by
  have hopen : quote ≠ '(' := by
    rintro rfl
    cases h
  have hclose : quote ≠ ')' := by
    rintro rfl
    cases h
  simp [closes, hopen, hclose, h]

/-- Behind a quoted text the parentheses count again. -/
theorem closes_quoted {content found : List Char} {length total : Nat}
    (h : Text.scanQuoted quote content length cs = .closed found total rest) :
    closes (some quote) depth cs = closes none depth rest := by
  fun_induction Text.scanQuoted quote content length cs with
  | case1 content length => cases h
  | case2 content length c next hquote =>
    cases h
    rw [closes.eq_def]
    simp [hquote]
  | case3 content length c hquote hescape => cases h
  | case4 content length c hquote hescape e next ih =>
    rw [← ih h, closes.eq_def]
    simp [hquote, hescape]
  | case5 content length c next hquote hescape ih =>
    rw [← ih h, closes.eq_def]
    simp [hquote, hescape]

/-- With a parenthesis open the text is not at its end. -/
theorem ne_nil_of_closes (h : closes none (depth + 1) cs = true) : Text.dropBlanks cs ≠ [] := by
  intro hnil
  rw [← closes_dropBlanks, hnil] at h
  cases h

end Closes

/-! ## Scanning in front of closing parentheses -/

/-- Closing parentheses and nothing else. -/
def OnlyCloses (tail : List Char) : Prop := ∀ c ∈ tail, c = ')'

theorem OnlyCloses.eq_nil_or_cons {tail : List Char} (h : OnlyCloses tail) :
    tail = [] ∨ ∃ more, tail = ')' :: more := by
  cases tail with
  | nil => exact Or.inl rfl
  | cons c more =>
    obtain rfl := h c (.head _)
    exact Or.inr ⟨more, rfl⟩

section Scanning

variable {tail cs : List Char} (htail : OnlyCloses tail)
include htail

theorem takeWhile_append_closes {p : Char → Bool} (hp : p ')' = false) :
    (cs ++ tail).takeWhile p = cs.takeWhile p := by
  induction cs with
  | nil =>
    rcases htail.eq_nil_or_cons with rfl | ⟨more, rfl⟩
    · rfl
    · simp [hp]
  | cons c cs ih => simp only [List.cons_append, List.takeWhile_cons, ih]

theorem dropWhile_append_closes {p : Char → Bool} (hp : p ')' = false) :
    (cs ++ tail).dropWhile p = cs.dropWhile p ++ tail := by
  induction cs with
  | nil =>
    rcases htail.eq_nil_or_cons with rfl | ⟨more, rfl⟩
    · rfl
    · simp [hp]
  | cons c cs ih =>
    simp only [List.cons_append, List.dropWhile_cons, ih]
    split <;> rfl

theorem dropBlanks_append_closes : Text.dropBlanks (cs ++ tail) = Text.dropBlanks cs ++ tail :=
  dropWhile_append_closes htail (by decide)

theorem startsWith_append_closes {ignoreCase : Bool} {text : List Char}
    (htext : ∀ e ∈ text, State.sameChar ignoreCase ')' e = false) :
    State.startsWith ignoreCase (cs ++ tail) text = State.startsWith ignoreCase cs text := by
  induction text generalizing cs with
  | nil => cases cs <;> cases tail <;> rfl
  | cons e text ih =>
    rw [List.forall_mem_cons] at htext
    cases cs with
    | cons c cs => simp only [List.cons_append, State.startsWith, ih htext.2]
    | nil =>
      rcases htail.eq_nil_or_cons with rfl | ⟨more, rfl⟩
      · rfl
      · simp [State.startsWith, htext.1]

theorem scanName_append_closes : State.scanName (cs ++ tail) = State.scanName cs := by
  cases cs with
  | nil => rcases htail.eq_nil_or_cons with rfl | ⟨more, rfl⟩ <;> rfl
  | cons c cs =>
    simp only [List.cons_append, State.scanName]
    rw [← List.cons_append, takeWhile_append_closes htail (by decide)]

theorem scanPlaces_append_closes : State.scanPlaces (cs ++ tail) = State.scanPlaces cs := by
  cases cs with
  | nil => rcases htail.eq_nil_or_cons with rfl | ⟨more, rfl⟩ <;> rfl
  | cons c cs =>
    by_cases hpoint : c = '.'
    · subst hpoint
      simp only [List.cons_append, State.scanPlaces]
      rw [takeWhile_append_closes htail (by decide)]
    · simp [State.scanPlaces, hpoint]

theorem scanMagnitude_append_closes : State.scanMagnitude (cs ++ tail) = State.scanMagnitude cs := by
  have hle : (cs.takeWhile Char.isDigit).length ≤ cs.length :=
    (List.takeWhile_prefix _).length_le
  simp only [State.scanMagnitude]
  rw [takeWhile_append_closes htail (by decide), List.drop_append_of_le_length hle,
    scanPlaces_append_closes htail]

theorem scanNumber_append_closes : State.scanNumber (cs ++ tail) = State.scanNumber cs := by
  cases cs with
  | nil => rcases htail.eq_nil_or_cons with rfl | ⟨more, rfl⟩ <;> rfl
  | cons c cs =>
    by_cases hminus : c = '-'
    · subst hminus
      simp only [List.cons_append, State.scanNumber, scanMagnitude_append_closes htail]
    · have hplain : ∀ more, State.scanNumber (c :: more) = State.scanMagnitude (c :: more) := by
        intro more
        simp [State.scanNumber, hminus]
      rw [List.cons_append, hplain, hplain, ← List.cons_append, scanMagnitude_append_closes htail]

end Scanning

section Quoted

variable {tail cs content : List Char} {quote : Char} {length : Nat}

theorem scanQuoted_append_closes {found rest : List Char} {total : Nat}
    (h : Text.scanQuoted quote content length cs = .closed found total rest) :
    Text.scanQuoted quote content length (cs ++ tail) = .closed found total (rest ++ tail) := by
  fun_induction Text.scanQuoted quote content length cs with
  | case1 content length => cases h
  | case2 content length c next hquote =>
    cases h
    rw [List.cons_append, Text.scanQuoted.eq_def]
    simp [hquote]
  | case3 content length c hquote hescape => cases h
  | case4 content length c hquote hescape e next ih =>
    rw [← ih h, List.cons_append, List.cons_append, Text.scanQuoted.eq_def]
    simp [hquote, hescape]
  | case5 content length c next hquote hescape ih =>
    rw [← ih h, List.cons_append, Text.scanQuoted.eq_def]
    simp [hquote, hescape]

/-- The quoted text that begins in front of the characters does not end in them. -/
def IsUnclosed (quote : Char) (content : List Char) (length : Nat) (cs : List Char) : Prop :=
  ∀ found total rest, Text.scanQuoted quote content length cs ≠ .closed found total rest

theorem isUnclosed_closes (hquote : quote ≠ ')') (htail : OnlyCloses tail) :
    IsUnclosed quote content length tail := by
  induction tail generalizing content length with
  | nil => exact fun _ _ _ => nofun
  | cons c tail ih =>
    rw [OnlyCloses, List.forall_mem_cons] at htail
    obtain ⟨rfl, htail⟩ := htail
    intro found total rest
    rw [Text.scanQuoted.eq_def]
    simpa [hquote.symm] using ih htail found total rest

/-- A quote that does not end in a text does not end in closing parentheses behind it. -/
theorem IsUnclosed.append_closes (hquote : quote ≠ ')') (htail : OnlyCloses tail)
    (h : IsUnclosed quote content length cs) : IsUnclosed quote content length (cs ++ tail) := by
  fun_induction Text.scanQuoted quote content length cs with
  | case1 content length => exact isUnclosed_closes hquote htail
  | case2 content length c next hend =>
    refine absurd ?_ (h content.reverse (length + 1) next)
    rw [Text.scanQuoted.eq_def]
    simp [hend]
  | case3 content length c hend hescape =>
    intro found total rest
    rw [List.cons_append, Text.scanQuoted.eq_def]
    cases tail with
    | nil => simp [hend, hescape]
    | cons e tail =>
      have hrest : IsUnclosed quote (Text.unescape e :: content) (length + 2) tail :=
        isUnclosed_closes hquote fun c hc => htail c (.tail _ hc)
      simpa [hend, hescape] using hrest found total rest
  | case4 content length c hend hescape e next ih =>
    have hnext : IsUnclosed quote (Text.unescape e :: content) (length + 2) next := by
      intro found total rest
      have hone := h found total rest
      rw [Text.scanQuoted.eq_def] at hone
      simpa [hend, hescape] using hone
    intro found total rest
    rw [List.cons_append, List.cons_append, Text.scanQuoted.eq_def]
    simpa [hend, hescape] using ih hnext found total rest
  | case5 content length c next hend hescape ih =>
    have hnext : IsUnclosed quote (c :: content) (length + 1) next := by
      intro found total rest
      have hone := h found total rest
      rw [Text.scanQuoted.eq_def] at hone
      simpa [hend, hescape] using hone
    intro found total rest
    rw [List.cons_append, Text.scanQuoted.eq_def]
    simpa [hend, hescape] using ih hnext found total rest

end Quoted

/-! ## Matching in front of closing parentheses -/

/-- The match halts because nonterminals nest too deeply. -/
def Halt.IsLimit (why : Halt) : Prop := ∃ limit, why.cause = .nestingLimit limit

/--
The outcomes of a rule on a text and on the text with closing parentheses behind it, from two
states. Both matches read the same, and the text has `behind` instead of `before` parentheses open;
or both fail. Where the first halts the second does, unless it was for the nesting limit.
-/
inductive Mirrors (before behind : Nat) (cs : List Char) (s s' : State) :
    Outcome → Outcome → Prop
  | matched {read rest : List Char} {tokens tokens' : List Token} (hcs : cs = read ++ rest)
    (hsame : tokens.map Token.lexeme = tokens'.map Token.lexeme)
    (hdepth : ∀ n, closes none (n + before) cs = closes none (n + behind) rest) :
    Mirrors before behind cs s s' (.matched (s.past read.length tokens))
      (.matched (s'.past read.length tokens'))
  | failed : Mirrors before behind cs s s' (.failed s) (.failed s')
  | halted {why : Halt} {t : State} {o : Outcome}
    (h : why.IsLimit ∨ ∃ why' t', o = .halted why' t') :
    Mirrors before behind cs s s' (.halted why t) o

section Tokens

variable {before behind : Nat} {cs tail : List Char} {s s' : State}
  (hs : s.rest = cs) (hs' : s'.rest = cs ++ tail) (htail : OnlyCloses tail)
include hs hs' htail

theorem mirrors_token {token rest : List Char} {tokens tokens' : List Token}
    (h : Text.dropBlanks cs = token ++ rest)
    (hsame : tokens.map Token.lexeme = tokens'.map Token.lexeme)
    (hdepth : ∀ n, closes none (n + before) (token ++ rest) = closes none (n + behind) rest) :
    Mirrors before behind cs s s' (.matched (s.skipBlanks.past token.length tokens))
      (.matched (s'.skipBlanks.past token.length tokens')) := by
  rw [State.skipBlanks_eq_past, State.skipBlanks_eq_past, State.past_past, State.past_past, hs, hs',
    takeWhile_append_closes htail (by decide), List.nil_append, List.nil_append,
    ← List.length_append]
  refine .matched (blanks_append h) hsame fun n => ?_
  rw [← closes_dropBlanks, h, hdepth]

theorem literal_mirrors {text : String} {logged : Bool}
    (hfront : State.startsWith false (Text.dropBlanks cs ++ tail) text.toList =
      State.startsWith false (Text.dropBlanks cs) text.toList)
    (hdepth : ∀ n rest, closes none (n + before) (text.toList ++ rest) =
      closes none (n + behind) rest) :
    Mirrors before behind cs s s' (s.literal text logged) (s'.literal text logged) := by
  have hlength : text.length = text.toList.length := String.length_toList.symm
  simp only [State.literal, State.lookingAt, State.skipBlanks_rest, hs, hs',
    dropBlanks_append_closes htail, hfront, State.take_eq_past, State.advance_eq_past, hlength]
  split
  · rename_i hat
    obtain ⟨rest, hrest⟩ := startsWith_exact hat
    cases logged with
    | true => exact mirrors_token hs hs' htail hrest rfl fun n => hdepth n rest
    | false => exact mirrors_token hs hs' htail hrest rfl fun n => hdepth n rest
  · exact .failed

theorem neutral_mirrors {text : String} {logged : Bool} (htext : text.toList.all isNeutral = true) :
    Mirrors 0 0 cs s s' (s.literal text logged) (s'.literal text logged) := by
  have hneutral := List.all_eq_true.mp htext
  refine literal_mirrors hs hs' htail (startsWith_append_closes htail fun e he => ?_) fun n rest =>
    closes_append hneutral
  have hclose : e ≠ ')' := by
    rintro rfl
    cases hneutral ')' he
  simpa [State.sameChar] using hclose.symm

theorem opening_mirrors {logged : Bool} :
    Mirrors 0 1 cs s s' (s.literal "(" logged) (s'.literal "(" logged) :=
  literal_mirrors hs hs' htail (startsWith_append_closes htail (by simp [State.sameChar]))
    fun _ _ => closes_opening

/-- A closing parenthesis is read from the text if it is not at its end. -/
theorem closing_mirrors {logged : Bool} (hinside : tail = [] ∨ Text.dropBlanks cs ≠ []) :
    Mirrors 1 0 cs s s' (s.literal ")" logged) (s'.literal ")" logged) := by
  refine literal_mirrors hs hs' htail ?_ fun _ _ => closes_closing
  rcases hinside with rfl | hinside
  · rw [List.append_nil]
  · obtain ⟨c, more, hfront⟩ := List.exists_cons_of_ne_nil hinside
    rw [hfront]
    simp [State.startsWith]

end Tokens

/-- A closing parenthesis ends a name like the end of the text. -/
theorem isBoundary_append_closes {tail : List Char} {t t' : State} {offset : Nat}
    (htail : OnlyCloses tail) (h : t'.rest = t.rest ++ tail) (hle : offset ≤ t.rest.length) :
    t'.isBoundary offset = t.isBoundary offset := by
  unfold State.isBoundary State.peek?
  rw [h]
  rcases Nat.lt_or_eq_of_le hle with hlt | rfl
  · rw [List.getElem?_append_left hlt]
  · rw [List.getElem?_append_right (Nat.le_refl _), Nat.sub_self, List.getElem?_eq_none (Nat.le_refl _)]
    rcases htail.eq_nil_or_cons with rfl | ⟨more, rfl⟩ <;> rfl

/-- A quote that does not end halts the match. -/
theorem quotedText_halts {s : State} {quote : Char} {more : List Char}
    (hfront : Text.dropBlanks s.rest = quote :: more) (hquote : State.isQuote quote = true)
    (h : IsUnclosed quote [] 0 more) : ∃ why t, s.quotedText = .halted why t := by
  simp only [State.quotedText, State.skipBlanks_rest, hfront, hquote, Bool.not_true,
    Bool.false_eq_true, if_false]
  cases hscan : Text.scanQuoted quote [] 0 more with
  | closed content length rest => exact absurd hscan (h content length rest)
  | unclosed length => exact ⟨_, _, rfl⟩
  | danglingEscape length => exact ⟨_, _, rfl⟩

section Words

variable {cs tail : List Char} {s s' : State}
  (hs : s.rest = cs) (hs' : s'.rest = cs ++ tail) (htail : OnlyCloses tail)
include hs hs' htail

theorem skipBlanks_append_closes : s'.skipBlanks.rest = s.skipBlanks.rest ++ tail := by
  rw [State.skipBlanks_rest, State.skipBlanks_rest, hs, hs', dropBlanks_append_closes htail]

theorem keyword_mirrors {word : String} (hword : Capital word) :
    Mirrors 0 0 cs s s' (s.keyword word) (s'.keyword word) := by
  have hrest := skipBlanks_append_closes hs hs' htail
  have hfront : s'.skipBlanks.lookingAt word true = s.skipBlanks.lookingAt word true := by
    rw [State.lookingAt, State.lookingAt, hrest]
    refine startsWith_append_closes htail fun e he => ?_
    rw [sameChar_upper (hword e he), beq_eq_false_iff_ne]
    rintro rfl
    exact absurd (hword _ he) (by decide)
  simp only [State.keyword, hfront]
  by_cases hat : s.skipBlanks.lookingAt word true = true
  · have hupper : (s.skipBlanks.rest.take word.length).map Char.toUpper = word.toList := by
      rw [← String.length_toList]
      exact (startsWith_capital hword).mp hat
    have hlength := congrArg List.length hupper
    rw [List.length_map, String.length_toList] at hlength
    have hle : word.length ≤ s.skipBlanks.rest.length := by
      rw [List.length_take] at hlength
      omega
    rw [isBoundary_append_closes htail hrest hle, hat, Bool.true_and]
    split
    · rw [State.take_eq_past, State.take_eq_past, ← hlength]
      have hsplit : Text.dropBlanks cs = s.skipBlanks.rest.take word.length ++
          s.skipBlanks.rest.drop word.length := by
        rw [List.take_append_drop, State.skipBlanks_rest, hs]
      refine mirrors_token hs hs' htail hsplit rfl fun n => closes_append fun c hc => ?_
      refine isNeutral_of (p := fun c => c.toUpper.isUpper) (by decide) (hword c.toUpper ?_)
      rw [← hupper]
      exact List.mem_map_of_mem hc
    · exact .failed
  · rw [Bool.not_eq_true] at hat
    rw [hat]
    exact .failed

theorem name_mirrors : Mirrors 0 0 cs s s' s.name s'.name := by
  simp only [State.name, State.skipBlanks_rest, hs, hs', dropBlanks_append_closes htail,
    scanName_append_closes htail, State.take_eq_past]
  split
  · exact .failed
  · obtain ⟨rest, hrest⟩ := scanName_prefix (Text.dropBlanks cs)
    refine mirrors_token hs hs' htail hrest.symm rfl fun n => closes_append fun c hc => ?_
    exact isNeutral_of (p := Text.isNameChar) (by decide) (isNameChar_of_scanName c hc)

theorem number_mirrors : Mirrors 0 0 cs s s' s.number s'.number := by
  have hrest := skipBlanks_append_closes hs hs' htail
  have hscan : State.scanNumber s'.skipBlanks.rest = State.scanNumber s.skipBlanks.rest := by
    rw [hrest, scanNumber_append_closes htail]
  have hprefix := scanNumber_prefix s.skipBlanks.rest
  simp only [State.number, hscan, isBoundary_append_closes htail hrest hprefix.length_le,
    State.take_eq_past]
  split
  · obtain ⟨rest, hsplit⟩ := hprefix
    have hfront : Text.dropBlanks cs = State.scanNumber s.skipBlanks.rest ++ rest := by
      rw [hsplit, State.skipBlanks_rest, hs]
    refine mirrors_token hs hs' htail hfront rfl fun n => closes_append fun c hc => ?_
    exact isNeutral_of (p := isNumberChar) (by decide) (isNumberChar_of_scanNumber c hc)
  · exact .failed

theorem quotedText_mirrors : Mirrors 0 0 cs s s' s.quotedText s'.quotedText := by
  cases hfront : Text.dropBlanks cs with
  | nil =>
    have hnone : s.quotedText = .failed s := quoted_of_front (by simp [front, hs, hfront])
    have hnone' : s'.quotedText = .failed s' := quoted_of_front (by
      rw [front, hs', dropBlanks_append_closes htail, hfront, List.nil_append]
      rcases htail.eq_nil_or_cons with rfl | ⟨more, rfl⟩ <;> rfl)
    rw [hnone, hnone']
    exact .failed
  | cons quote more =>
    have hfront' : Text.dropBlanks s'.rest = quote :: (more ++ tail) := by
      rw [hs', dropBlanks_append_closes htail, hfront, List.cons_append]
    by_cases hquote : State.isQuote quote = true
    · by_cases hopen : IsUnclosed quote [] 0 more
      · have hne : quote ≠ ')' := by
          rintro rfl
          cases hquote
        obtain ⟨why, t, hhalt⟩ := quotedText_halts (by rw [hs, hfront]) hquote hopen
        rw [hhalt]
        exact .halted (Or.inr (quotedText_halts hfront' hquote (hopen.append_closes hne htail)))
      · obtain ⟨content, length, rest, hscan⟩ : ∃ content length rest,
            Text.scanQuoted quote [] 0 more = .closed content length rest := by
          simpa [IsUnclosed] using hopen
        obtain ⟨body, _, rfl, -, rfl, -⟩ := Text.scanQuoted_closed hscan
        have hsplit : Text.dropBlanks cs = (quote :: (body ++ [quote])) ++ rest := by
          simp [hfront]
        have hlength : 0 + body.length + 1 + 1 = (quote :: (body ++ [quote])).length := by
          simp
        simp only [State.quotedText, State.skipBlanks_rest, hs, hfront, hfront', hquote, hscan,
          scanQuoted_append_closes hscan, Bool.not_true, Bool.false_eq_true, if_false,
          State.take_eq_past]
        rw [hlength]
        refine mirrors_token hs hs' htail hsplit rfl fun n => ?_
        rw [← hsplit, hfront, closes_quote hquote, closes_quoted hscan]
    · simp only [State.quotedText, State.skipBlanks_rest, hs, hfront, hfront', hquote,
        Bool.not_false, if_true]
      exact .failed

end Words

end LinkQuery.Rule
