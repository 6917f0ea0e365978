import LinkQuery.Proofs.Lexing
import LinkQuery.Proofs.Primitives
import LinkQuery.Proofs.Refusal
import LinkQuery.TokenLog
/-!
# What the log of a text accounts for

Each token of a log stands for a piece of the input that begins at its position and spells it. The
pieces follow one another, and what lies between them is white space, a symbol that is never
logged, or the keyword in front of a filter.

Main statements:
- `Rule.Traverses`: the pieces of the input between two states of a match.
- `TokenLog.ofText_accounts`: the log of an accepted text accounts for the whole text.
-/
namespace LinkQuery

/-! ## Quoted texts -/

namespace Text

/-- What the characters between two equal quotes stand for. -/
inductive Unescapes (quote : Char) : List Char → List Char → Prop
  | nil : Unescapes quote [] []
  | escaped (e : Char) {body content : List Char} (h : Unescapes quote body content) :
    Unescapes quote ('\\' :: e :: body) (unescape e :: content)
  | plain {c : Char} {body content : List Char} (hquote : c ≠ quote) (hescape : c ≠ '\\')
    (h : Unescapes quote body content) : Unescapes quote (c :: body) (c :: content)

/-- The text is a content in quotes of either kind. -/
def IsQuoted (text content : List Char) : Prop :=
  ∃ quote body, Rule.State.isQuote quote = true ∧ text = quote :: (body ++ [quote]) ∧
    Unescapes quote body content

/-- What has been read between quotes. -/
theorem scanQuoted_closed {quote : Char} {read content cs rest : List Char} {length total : Nat}
    (h : scanQuoted quote read length cs = .closed content total rest) :
    ∃ body more, cs = body ++ quote :: rest ∧ content = read.reverse ++ more ∧
      total = length + body.length + 1 ∧ Unescapes quote body more := by
  fun_induction scanQuoted quote read length cs with
  | case1 read length => cases h
  | case2 read length c next hquote =>
    obtain rfl : c = quote := by simpa using hquote
    cases h
    exact ⟨[], [], rfl, (List.append_nil _).symm, rfl, .nil⟩
  | case3 read length c hquote hescape => cases h
  | case4 read length c hquote hescape e next ih =>
    obtain rfl : c = '\\' := by simpa using hescape
    obtain ⟨body, more, rfl, rfl, rfl, hmore⟩ := ih h
    refine ⟨'\\' :: e :: body, unescape e :: more, rfl, ?_, ?_, hmore.escaped e⟩
    · simp
    · simp only [List.length_cons]
      omega
  | case5 read length c next hquote hescape ih =>
    obtain ⟨body, more, rfl, rfl, rfl, hmore⟩ := ih h
    refine ⟨c :: body, c :: more, rfl, ?_, ?_, ?_⟩
    · simp
    · simp only [List.length_cons]
      omega
    · exact .plain (by simpa using hquote) (by simpa using hescape) hmore

end Text

/-! ## Pieces of the input -/

/-- The text stands for the token. -/
def Token.Spelled (t : Token) (text : List Char) : Prop :=
  match t.kind with
  | .keyword => String.ofList (text.map Char.toUpper) = t.value
  | .quoted => Text.IsQuoted text t.value.toList
  | .marker _ => False
  | _ => String.ofList text = t.value

/-- The token takes a place in the input. -/
def Token.isPlaced (t : Token) : Bool :=
  match t.kind with
  | .marker _ => false
  | _ => true

namespace Rule

variable {ν : Type}

/-- The symbols that grammars match without logging them. -/
def silentSymbols : List String := [".", "(", ")", "[", "]", "^"]

/-- A text that is consumed without being logged, in front of others. -/
inductive IsGap : List Char → List Char → Prop
  | blank {c : Char} {rest : List Char} (h : Text.isBlank c = true) : IsGap [c] rest
  | silent {text : String} {rest : List Char} (h : text ∈ silentSymbols) : IsGap text.toList rest
  | whereWord {text rest : List Char} (h : text.map Char.toUpper = "WHERE".toList)
    (hrest : EndsName rest) : IsGap text rest

/-- The text from one position to another is made of gaps and of the texts of tokens. -/
inductive Covers : Nat → List Char → Nat → List Char → List Token → Prop
  | done {n : Nat} {rest : List Char} : Covers n rest n rest []
  | gap {n m : Nat} {text cs rest : List Char} {tokens : List Token} (h : IsGap text cs)
    (hmore : Covers (n + text.length) cs m rest tokens) : Covers n (text ++ cs) m rest tokens
  | token {n m : Nat} {text cs rest : List Char} {t : Token} {tokens : List Token}
    (hposition : t.position = n) (hne : text ≠ []) (h : t.Spelled text)
    (hmore : Covers (n + text.length) cs m rest tokens) :
    Covers n (text ++ cs) m rest (t :: tokens)

theorem Covers.append {n m k : Nat} {cs mid rest : List Char} {a b : List Token}
    (ha : Covers n cs m mid a) (hb : Covers m mid k rest b) : Covers n cs k rest (a ++ b) := by
  induction ha with
  | done => exact hb
  | gap h _ ih => exact .gap h (ih hb)
  | token hposition hne h _ ih => exact .token hposition hne h (ih hb)

theorem Covers.blanks {n : Nat} {blanks rest : List Char}
    (h : ∀ c ∈ blanks, Text.isBlank c = true) :
    Covers n (blanks ++ rest) (n + blanks.length) rest [] := by
  induction blanks generalizing n with
  | nil => exact .done
  | cons c blanks ih =>
    have hmore := @ih (n + 1) fun d hd => h d (List.mem_cons_of_mem _ hd)
    have hend : n + (c :: blanks).length = n + 1 + blanks.length := by
      simp only [List.length_cons]
      omega
    rw [hend]
    have hgap : IsGap [c] (blanks ++ rest) := .blank (h c (List.mem_cons_self ..))
    show Covers n ([c] ++ (blanks ++ rest)) _ _ _
    exact .gap hgap hmore

/-- What the second state has consumed is covered by the tokens that it has logged. -/
def Traverses (s t : State) : Prop :=
  ∃ tokens, t.log.toList = s.log.toList ++ tokens ∧
    Covers s.cursor s.rest t.cursor t.rest (tokens.filter Token.isPlaced)

theorem traverses_chains : Chains Traverses where
  refl s := ⟨[], (List.append_nil _).symm, .done⟩
  trans := by
    intro s t u hst htu
    obtain ⟨a, hloga, ha⟩ := hst
    obtain ⟨b, hlogb, hb⟩ := htu
    refine ⟨a ++ b, ?_, ?_⟩
    · rw [hlogb, hloga, List.append_assoc]
    · rw [List.filter_append]
      exact ha.append hb

/-! ## Primitive rules -/

theorem skipBlanks_traverses (s : State) : Traverses s s.skipBlanks := by
  have hsplit : s.rest = s.rest.takeWhile Text.isBlank ++ s.skipBlanks.rest := by
    rw [State.skipBlanks_rest]
    exact List.takeWhile_append_dropWhile.symm
  have hcursor : s.skipBlanks.cursor = s.cursor + (s.rest.takeWhile Text.isBlank).length := by
    have hle := (@List.takeWhile_prefix _ s.rest Text.isBlank).length_le
    simp only [State.skipBlanks, State.advance, List.length_take]
    omega
  have hcovers : Covers s.cursor (s.rest.takeWhile Text.isBlank ++ s.skipBlanks.rest)
      s.skipBlanks.cursor s.skipBlanks.rest [] := by
    rw [hcursor]
    exact Covers.blanks (List.all_eq_true.mp List.all_takeWhile)
  rw [← hsplit] at hcovers
  exact ⟨[], (List.append_nil _).symm, hcovers⟩

section Consumed

variable {s : State} {text rest : List Char}

theorem advance_traverses (hrest : s.rest = text ++ rest) (h : IsGap text rest) :
    Traverses s (s.advance text.length) := by
  refine ⟨[], (List.append_nil _).symm, ?_⟩
  simp only [State.advance, hrest, List.drop_left, List.take_left, List.filter_nil]
  exact .gap h .done

theorem take_traverses {kind : TokenKind} {value : String} (hrest : s.rest = text ++ rest)
    (hne : text ≠ []) (h : (⟨kind, value, s.cursor⟩ : Token).Spelled text) :
    Traverses s (s.take kind value text.length) := by
  have hplaced : (⟨kind, value, s.cursor⟩ : Token).isPlaced = true := by
    cases kind with
    | marker m => exact h.elim
    | _ => rfl
  refine ⟨[⟨kind, value, s.cursor⟩], by simp [State.take, State.push, State.advance], ?_⟩
  simp only [State.take, State.push, State.advance, hrest, List.drop_left, List.take_left,
    List.filter_cons, hplaced, if_true, List.filter_nil]
  exact .token rfl hne h .done

end Consumed

/-- The state behind the white space in front of a primitive rule. -/
theorem Traverses.behindBlanks {s t : State} (h : Traverses s.skipBlanks t) : Traverses s t :=
  traverses_chains.trans _ _ _ (skipBlanks_traverses s) h

theorem startsWith_exact {cs text : List Char} (h : State.startsWith false cs text = true) :
    ∃ rest, cs = text ++ rest := by
  induction text generalizing cs with
  | nil => exact ⟨cs, rfl⟩
  | cons e text ih =>
    cases cs with
    | nil => simp [State.startsWith] at h
    | cons c cs =>
      simp only [State.startsWith, State.sameChar, Bool.false_and, Bool.or_false, Bool.and_eq_true,
        beq_iff_eq] at h
      obtain ⟨rfl, h⟩ := h
      obtain ⟨rest, rfl⟩ := ih h
      exact ⟨rest, rfl⟩

theorem literal_traverses {s t : State} {text : String} {logged : Bool} (hne : text.toList ≠ [])
    (hsilent : logged = false → text ∈ silentSymbols) (h : s.literal text logged = .matched t) :
    Traverses s t := by
  simp only [State.literal] at h
  split at h
  · rename_i hat
    obtain ⟨rest, hrest⟩ := startsWith_exact hat
    have hlength : text.length = text.toList.length := String.length_toList.symm
    rw [hlength] at h
    cases logged with
    | true =>
      obtain rfl := Outcome.matched.inj h
      refine (take_traverses hrest hne ?_).behindBlanks
      exact String.ofList_toList
    | false =>
      obtain rfl := Outcome.matched.inj h
      exact (advance_traverses hrest (.silent (hsilent rfl))).behindBlanks
  · cases h

/-- What a keyword consumes. -/
theorem keyword_consumes {s t : State} {word : String} (hword : Capital word)
    (h : s.keyword word = .matched t) : ∃ text rest, s.skipBlanks.rest = text ++ rest ∧
      text.map Char.toUpper = word.toList ∧ EndsName rest ∧
      t = s.skipBlanks.take .keyword word text.length := by
  simp only [State.keyword] at h
  split at h
  · rename_i hat
    simp only [Bool.and_eq_true, State.lookingAt, startsWith_capital hword] at hat
    obtain ⟨hupper, hboundary⟩ := hat
    obtain rfl := Outcome.matched.inj h
    have hlength := congrArg List.length hupper
    rw [List.length_map, String.length_toList] at hlength
    refine ⟨s.skipBlanks.rest.take word.toList.length, s.skipBlanks.rest.drop word.toList.length,
      (List.take_append_drop ..).symm, hupper, ?_, ?_⟩
    · intro c hc
      rw [List.head?_drop, String.length_toList] at hc
      have hc : s.skipBlanks.rest[word.length]? = some c := hc
      simpa [State.isBoundary, State.peek?, hc] using hboundary
    · rw [String.length_toList, hlength]
  · cases h

theorem keyword_traverses {s t : State} {word : String} (hword : Capital word)
    (hne : word.toList ≠ []) (h : s.keyword word = .matched t) : Traverses s t := by
  obtain ⟨text, rest, hrest, hupper, -, rfl⟩ := keyword_consumes hword h
  have htext : text ≠ [] := by
    rintro rfl
    exact hne hupper.symm
  refine (take_traverses hrest htext ?_).behindBlanks
  show String.ofList (text.map Char.toUpper) = word
  rw [hupper, String.ofList_toList]

/-- A keyword in front of a filter is consumed without a trace. -/
theorem silentWhere_traverses {call : ν → State → Outcome} {s t : State}
    (h : run call (.silent (.keyword "WHERE")) s = .matched t) : Traverses s t := by
  simp only [run] at h
  cases hout : s.keyword "WHERE" with
  | halted why u => simp [hout, Outcome.andThen] at h
  | failed u => simp [hout, Outcome.andThen] at h
  | matched u =>
    have hcapital : Capital "WHERE" := by
      simp [Capital]
    obtain ⟨text, rest, hrest, hupper, hends, rfl⟩ := keyword_consumes hcapital hout
    have hback : (s.skipBlanks.take .keyword "WHERE" text.length).discardSince s.mark =
        s.skipBlanks.advance text.length := by
      rw [State.take_eq_past, State.skipBlanks_eq_past, State.past_past, State.past_discardSince,
        State.advance_eq_past, State.past_past, List.nil_append]
    rw [hout] at h
    obtain rfl := Outcome.matched.inj h
    rw [hback]
    exact (advance_traverses hrest (.whereWord hupper hends)).behindBlanks

theorem scanName_prefix (cs : List Char) : State.scanName cs <+: cs := by
  cases cs with
  | nil => exact List.nil_prefix
  | cons c cs =>
    simp only [State.scanName]
    split
    · exact List.takeWhile_prefix _
    · exact List.nil_prefix

theorem name_traverses {s t : State} (h : s.name = .matched t) : Traverses s t := by
  simp only [State.name] at h
  split at h
  · cases h
  · rename_i hfound
    simp only [Bool.or_eq_true, List.isEmpty_iff, not_or] at hfound
    obtain rfl := Outcome.matched.inj h
    obtain ⟨rest, hrest⟩ := scanName_prefix s.skipBlanks.rest
    refine (take_traverses hrest.symm hfound.1 ?_).behindBlanks
    rfl

theorem scanMagnitude_prefix (cs : List Char) : State.scanMagnitude cs <+: cs := by
  have hplaces : ∀ more, State.scanPlaces more <+: more := by
    intro more
    unfold State.scanPlaces
    split
    · simp only
      split
      · exact List.nil_prefix
      · exact List.cons_prefix_cons.mpr ⟨rfl, List.takeWhile_prefix _⟩
    · exact List.nil_prefix
  simp only [State.scanMagnitude]
  split
  · exact List.nil_prefix
  · have hsplit := (List.prefix_append_right_inj (cs.takeWhile Char.isDigit)).mpr
      (hplaces (cs.drop (cs.takeWhile Char.isDigit).length))
    rwa [drop_takeWhile, List.takeWhile_append_dropWhile, ← drop_takeWhile] at hsplit

theorem scanNumber_prefix (cs : List Char) : State.scanNumber cs <+: cs := by
  unfold State.scanNumber
  split
  · simp only
    split
    · exact List.nil_prefix
    · exact List.cons_prefix_cons.mpr ⟨rfl, scanMagnitude_prefix _⟩
  · exact scanMagnitude_prefix _

theorem number_traverses {s t : State} (h : s.number = .matched t) : Traverses s t := by
  simp only [State.number] at h
  split at h
  · rename_i hfound
    simp only [Bool.and_eq_true, Bool.not_eq_true', List.isEmpty_eq_false_iff] at hfound
    obtain rfl := Outcome.matched.inj h
    obtain ⟨rest, hrest⟩ := scanNumber_prefix s.skipBlanks.rest
    refine (take_traverses hrest.symm hfound.1 ?_).behindBlanks
    rfl
  · cases h

theorem quotedText_traverses {s t : State} (h : s.quotedText = .matched t) : Traverses s t := by
  simp only [State.quotedText] at h
  split at h
  · cases h
  · rename_i quote next hrest
    split at h
    · cases h
    · rename_i hquote
      split at h
      · rename_i content total rest hscan
        obtain rfl := Outcome.matched.inj h
        obtain ⟨body, more, rfl, rfl, rfl, hmore⟩ := Text.scanQuoted_closed hscan
        have hlength : 0 + body.length + 1 + 1 = (quote :: (body ++ [quote])).length := by
          simp
        rw [hlength]
        have hread : s.skipBlanks.rest = (quote :: (body ++ [quote])) ++ rest := by
          rw [hrest]
          simp
        refine (take_traverses hread (by simp) ?_).behindBlanks
        · refine ⟨quote, body, by simpa using hquote, rfl, ?_⟩
          simpa using hmore
      · cases h
      · cases h

/-- A match of the rule consumes tokens that it logs, and besides them only what is never logged. -/
def isAccountable : Rule ν → Bool
  | .literal text logged =>
    if logged then !text.toList.isEmpty else silentSymbols.contains text
  | .keyword text => !text.toList.isEmpty && text.toList.all Char.isUpper
  | .silent (.keyword text) => text == "WHERE"
  | .word => true
  | .number => true
  | .quoted => true
  | .action _ => true
  | _ => false

theorem run_traverses {call : ν → State → Outcome} {p : Rule ν} {s t : State}
    (hp : p.isAccountable = true) (h : run call p s = .matched t) : Traverses s t := by
  cases p with
  | literal text logged =>
    refine literal_traverses ?_ ?_ h
    · cases logged with
      | true => simpa [isAccountable] using hp
      | false =>
        have hmem : text ∈ silentSymbols := by simpa [isAccountable] using hp
        have hall : ∀ text ∈ silentSymbols, text.toList ≠ [] := by decide
        exact hall text hmem
    · rintro rfl
      simpa [isAccountable] using hp
  | keyword text =>
    simp only [isAccountable, Bool.and_eq_true, Bool.not_eq_true', List.isEmpty_eq_false_iff,
      List.all_eq_true] at hp
    exact keyword_traverses hp.2 hp.1 h
  | word => exact name_traverses h
  | number => exact number_traverses h
  | quoted => exact quotedText_traverses h
  | silent rule =>
    cases rule with
    | keyword text =>
      obtain rfl : text = "WHERE" := by simpa [isAccountable] using hp
      exact silentWhere_traverses h
    | _ => cases hp
  | action m =>
    obtain rfl := Outcome.matched.inj h
    exact ⟨[.ofMarker m s.cursor], by simp [State.pushMarker], .done⟩
  | _ => cases hp

/-- A match of a grammar whose primitive rules are accountable traverses what it consumes. -/
theorem matchAt_traverses {body : ν → Rule ν} {rule : Rule ν}
    (hbody : ∀ name, (body name).primitives.all isAccountable = true)
    (hrule : rule.primitives.all isAccountable = true) {s t : State}
    (h : matchAt body rule s = .matched t) : Traverses s t := by
  have henter : ∀ s t : State, Traverses s.enter.2 t → Traverses s t.leave := by
    intro s t hst
    unfold State.enter at hst
    split at hst
    · exact hst
    · exact hst
  refine runWithin_related traverses_chains body henter ?_ _ rule ?_ s t (Nat.le_refl _) h
  · exact fun name p hp _ _ _ => run_traverses (List.all_eq_true.mp (hbody name) p hp)
  · exact fun p hp _ _ _ => run_traverses (List.all_eq_true.mp hrule p hp)

end Rule

namespace TokenLog

open Rule

/-! ## Logs of texts -/

theorem body_accountable (part : Language.Part) :
    part.body.primitives.all isAccountable = true := by
  cases part <;> decide +kernel

theorem kind_accountable (kind : ExpressionKind) :
    kind.rule.primitives.all isAccountable = true := by
  cases kind <;> decide

/-- The placed tokens of a log cover the text. -/
theorem ofText_covers {settings : Settings} {kind : ExpressionKind} {input : String}
    {tokens : List Token} (h : ofText settings kind input = .ok tokens) :
    ∃ n, Covers 0 input.toList n [] (tokens.filter Token.isPlaced) := by
  obtain ⟨_, -, h⟩ := bind_eq_ok h
  split at h
  · rename_i hblank
    obtain rfl := Except.ok.inj h
    have hcovers : Covers 0 (input.toList ++ []) (0 + input.toList.length) [] [] :=
      Covers.blanks (List.all_eq_true.mp hblank)
    rw [List.append_nil] at hcovers
    exact ⟨_, hcovers⟩
  · simp only [scan] at h
    split at h
    · cases h
    · cases h
    · rename_i s hmatched
      have hmatch := matchAt_traverses body_accountable (kind_accountable kind) hmatched
      simp only [finish] at h
      split at h
      · rename_i hend
        split at h
        · cases h
        · obtain rfl := Except.ok.inj h
          obtain ⟨tokens, hlog, hcovers⟩ :=
            traverses_chains.trans _ _ _ hmatch (skipBlanks_traverses s)
          have hrest : s.skipBlanks.rest = [] := by simpa [State.atEnd] using hend
          have hall : s.skipBlanks.log.toList = tokens := by simpa [State.start] using hlog
          rw [hrest] at hcovers
          rw [hall]
          exact ⟨_, hcovers⟩
      · cases h

/-! ## Spans -/

/-- A token with the position behind its text. -/
structure Span where
  token : Token
  finish : Nat

/-- The position lies in the text of the token. -/
def Span.Holds (s : Span) (k : Nat) : Prop :=
  s.token.position ≤ k ∧ k < s.finish

/-- The characters from one position up to another. -/
def slice (input : List Char) (start finish : Nat) : List Char :=
  (input.take finish).drop start

/-- The keyword in front of a filter begins at a position, in some letter case and apart from the
texts of all tokens. -/
structure IsWhereAt (input : List Char) (spans : List Span) (start : Nat) : Prop where
  upper : (slice input start (start + 5)).map Char.toUpper = "WHERE".toList
  ends : EndsName (input.drop (start + 5))
  apart : ∀ s ∈ spans, s.finish ≤ start ∨ start + 5 ≤ s.token.position

/-- The character at a position is never logged. -/
def IsUnlogged (input : List Char) (spans : List Span) (lower k : Nat) : Prop :=
  (∃ c, input[k]? = some c ∧ (Text.isBlank c = true ∨ String.singleton c ∈ silentSymbols)) ∨
    ∃ start, lower ≤ start ∧ start ≤ k ∧ k < start + 5 ∧ IsWhereAt input spans start

/-- The tokens account for the input from one position up to another: the spans of their texts
follow one another, each spells its token, and what lies outside of them is never logged. -/
structure Accounts (input : List Char) (lower upper : Nat) (tokens : List Token)
    (spans : List Span) : Prop where
  tokens_eq : spans.map Span.token = tokens
  ordered : spans.Pairwise fun a b => a.finish ≤ b.token.position
  inside : ∀ s ∈ spans, lower ≤ s.token.position ∧ s.token.position < s.finish ∧ s.finish ≤ upper
  spelled : ∀ s ∈ spans, s.token.Spelled (slice input s.token.position s.finish)
  between : ∀ k, lower ≤ k → k < upper →
    (∃ s ∈ spans, s.Holds k) ∨ IsUnlogged input spans lower k

section Spans

variable {before text cs input : List Char} {spans : List Span} {tokens : List Token}
  {lower upper : Nat}

theorem slice_middle (hinput : input = before ++ text ++ cs) :
    slice input before.length (before.length + text.length) = text := by
  have hlength : before.length + text.length = (before ++ text).length :=
    (List.length_append ..).symm
  rw [slice, hinput, hlength, List.take_left, List.drop_left]

theorem IsUnlogged.mono {less k : Nat} (h : IsUnlogged input spans lower k) (hless : less ≤ lower) :
    IsUnlogged input spans less k := by
  cases h with
  | inl h => exact Or.inl h
  | inr h =>
    obtain ⟨start, hstart, h⟩ := h
    exact Or.inr ⟨start, Nat.le_trans hless hstart, h⟩

/-- A span further in front. -/
theorem IsUnlogged.behind {s : Span} {k : Nat} (h : IsUnlogged input spans s.finish k) :
    IsUnlogged input (s :: spans) s.finish k := by
  cases h with
  | inl h => exact Or.inl h
  | inr h =>
    obtain ⟨start, hstart, hfrom, hto, hat⟩ := h
    refine Or.inr ⟨start, hstart, hfrom, hto, hat.upper, hat.ends, ?_⟩
    intro other hother
    cases List.mem_cons.mp hother with
    | inl heq => exact Or.inl (heq ▸ hstart)
    | inr hmem => exact hat.apart other hmem

/-- A character of a gap is never logged. -/
theorem IsUnlogged.of_gap (h : IsGap text cs) (hinput : input = before ++ text ++ cs)
    (hspans : ∀ s ∈ spans, before.length + text.length ≤ s.token.position) {k : Nat}
    (hfrom : before.length ≤ k) (hto : k < before.length + text.length) :
    IsUnlogged input spans before.length k := by
  have hone : ∀ c, text = [c] → input[k]? = some c := by
    rintro c rfl
    obtain rfl : k = before.length := by
      simp only [List.length_singleton] at hto
      omega
    rw [hinput]
    simp
  cases h with
  | @blank c _ h => exact Or.inl ⟨c, hone c rfl, Or.inl h⟩
  | @silent symbol _ h =>
    have hall : ∀ symbol ∈ silentSymbols, ∃ c, symbol.toList = [c] ∧ String.singleton c = symbol := by
      simp only [silentSymbols, List.forall_mem_cons]
      exact ⟨⟨_, rfl, rfl⟩, ⟨_, rfl, rfl⟩, ⟨_, rfl, rfl⟩, ⟨_, rfl, rfl⟩, ⟨_, rfl, rfl⟩, ⟨_, rfl, rfl⟩,
        by simp⟩
    obtain ⟨c, hsymbol, hsingle⟩ := hall symbol h
    exact Or.inl ⟨c, hone c hsymbol, Or.inr (hsingle ▸ h)⟩
  | whereWord hupper hends =>
    have hlength : text.length = 5 := by
      simpa using congrArg List.length hupper
    refine Or.inr ⟨before.length, Nat.le_refl _, hfrom, hlength ▸ hto, ?_, ?_, ?_⟩
    · have hslice := slice_middle hinput
      rw [hlength] at hslice
      rw [hslice, hupper]
    · have hbehind : before.length + 5 = (before ++ text).length := by
        rw [List.length_append, hlength]
      rw [hinput, hbehind, List.drop_left]
      exact hends
    · exact fun s hs => Or.inr (hlength ▸ hspans s hs)

theorem Accounts.nil (input : List Char) (n : Nat) : Accounts input n n [] [] :=
  ⟨rfl, .nil, by simp, by simp, fun k hfrom hto => by omega⟩

/-- A gap in front of what is accounted for. -/
theorem Accounts.gap (hinput : input = before ++ text ++ cs) (hgap : IsGap text cs)
    (h : Accounts input (before.length + text.length) upper tokens spans) :
    Accounts input before.length upper tokens spans := by
  refine ⟨h.tokens_eq, h.ordered, ?_, h.spelled, ?_⟩
  · intro s hs
    have hinside := h.inside s hs
    exact ⟨by omega, hinside.2⟩
  · intro k hfrom hto
    by_cases hk : k < before.length + text.length
    · exact Or.inr (.of_gap hgap hinput (fun s hs => (h.inside s hs).1) hfrom hk)
    · cases h.between k (by omega) hto with
      | inl hspan => exact Or.inl hspan
      | inr hgap => exact Or.inr (hgap.mono (by omega))

/-- A token in front of what is accounted for. -/
theorem Accounts.cons {t : Token} (hinput : input = before ++ text ++ cs)
    (hposition : t.position = before.length) (hne : text ≠ []) (hspelled : t.Spelled text)
    (hupper : before.length + text.length ≤ upper)
    (h : Accounts input (before.length + text.length) upper tokens spans) :
    Accounts input before.length upper (t :: tokens)
      (⟨t, before.length + text.length⟩ :: spans) := by
  have hpos : 0 < text.length := List.length_pos_iff.mpr hne
  refine ⟨congrArg (t :: ·) h.tokens_eq, ?_, ?_, ?_, ?_⟩
  · exact List.pairwise_cons.mpr ⟨fun s hs => (h.inside s hs).1, h.ordered⟩
  · intro s hs
    cases List.mem_cons.mp hs with
    | inl heq =>
      subst heq
      simp only
      omega
    | inr hmem =>
      have hinside := h.inside s hmem
      exact ⟨by omega, hinside.2⟩
  · intro s hs
    cases List.mem_cons.mp hs with
    | inl heq =>
      subst heq
      simp only
      rwa [hposition, slice_middle hinput]
    | inr hmem => exact h.spelled s hmem
  · intro k hfrom hto
    by_cases hk : k < before.length + text.length
    · have hholds : (⟨t, before.length + text.length⟩ : Span).Holds k := ⟨hposition ▸ hfrom, hk⟩
      exact Or.inl ⟨_, List.mem_cons_self .., hholds⟩
    · cases h.between k (by omega) hto with
      | inl hspan =>
        obtain ⟨s, hs, hholds⟩ := hspan
        exact Or.inl ⟨s, List.mem_cons_of_mem _ hs, hholds⟩
      | inr hgap =>
        have hbehind : IsUnlogged input (⟨t, before.length + text.length⟩ :: spans)
            (before.length + text.length) k := IsUnlogged.behind hgap
        exact Or.inr (hbehind.mono (by omega))

/-- What covers a text to its end accounts for it. -/
theorem exists_accounts {n m : Nat} {rest : List Char} (h : Covers n cs m rest tokens)
    (hrest : rest = []) : ∀ before : List Char, before.length = n →
      m = n + cs.length ∧ ∃ spans, Accounts (before ++ cs) n m tokens spans := by
  induction h with
  | done =>
    subst hrest
    exact fun before _ => ⟨rfl, [], .nil _ _⟩
  | @gap n m text cs _ tokens hgap _ ih =>
    rintro before rfl
    obtain ⟨hend, spans, h⟩ := ih hrest (before ++ text) (List.length_append ..)
    refine ⟨by rw [hend, List.length_append, Nat.add_assoc], spans, ?_⟩
    rw [← List.append_assoc]
    exact h.gap rfl hgap
  | @token n m text cs _ t tokens hposition hne hspelled _ ih =>
    rintro before rfl
    obtain ⟨hend, spans, h⟩ := ih hrest (before ++ text) (List.length_append ..)
    refine ⟨by rw [hend, List.length_append, Nat.add_assoc],
      ⟨t, before.length + text.length⟩ :: spans, ?_⟩
    rw [← List.append_assoc]
    exact h.cons rfl hposition hne hspelled (by omega)

/-- What covers a text from its beginning to its end accounts for the whole text. -/
theorem exists_accounts_whole {m : Nat} {input : String} {tokens : List Token}
    (h : Covers 0 input.toList m [] tokens) :
    ∃ spans, Accounts input.toList 0 input.length tokens spans := by
  obtain ⟨hend, spans, haccounts⟩ := exists_accounts h rfl [] rfl
  rw [Nat.zero_add, String.length_toList] at hend
  subst hend
  exact ⟨spans, haccounts⟩

end Spans

/-- The log of an accepted text accounts for the whole text, whatever its kind and the limits. -/
theorem ofText_accounts {settings : Settings} {kind : ExpressionKind} {input : String}
    {tokens : List Token} (h : ofText settings kind input = .ok tokens) :
    ∃ spans, Accounts input.toList 0 input.length (tokens.filter Token.isPlaced) spans := by
  obtain ⟨n, hcovers⟩ := ofText_covers h
  exact exists_accounts_whole hcovers

/-- The keyword, the parentheses and the mark of a followed link are between the tokens. -/
theorem ofText_accounts_boss : ∃ tokens,
    ofText (.standard ⟨0, 0, 0⟩) .filter "Boss^.where (Age >= 5)" = .ok tokens ∧
      (tokens.filter Token.isPlaced).map Token.position = [0, 13, 17, 20] ∧
      ∃ spans, Accounts "Boss^.where (Age >= 5)".toList 0 22 (tokens.filter Token.isPlaced)
        spans := by
  have hpositions : (ofText (.standard ⟨0, 0, 0⟩) .filter "Boss^.where (Age >= 5)").toOption.map
      (fun tokens => (tokens.filter Token.isPlaced).map Token.position) = some [0, 13, 17, 20] := by
    decide +kernel
  cases hlog : ofText (.standard ⟨0, 0, 0⟩) .filter "Boss^.where (Age >= 5)" with
  | error why => simp [hlog, Except.toOption] at hpositions
  | ok tokens =>
    rw [hlog] at hpositions
    exact ⟨tokens, rfl, Option.some.inj hpositions, ofText_accounts hlog⟩

end TokenLog

end LinkQuery
