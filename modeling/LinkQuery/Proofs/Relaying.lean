import LinkQuery.Proofs.AcceptedTexts
import LinkQuery.Proofs.Lockstep
import LinkQuery.Proofs.Scanning
/-!
# Reading a text that is laid out anew

The matches of a text and of its new layout are in lockstep: both stand between the same pieces of
their texts, and the tokens that they log say the same, except that a name read from a keyword has
the letter case of its text. No keyword is a name in the log of an accepted text, so the new layout
has the same log.

Main statements:
- `Rule.read_abreast`: a token is read from the same pieces of both texts.
- `TokenLog.ofText_relaid`: the log of a text that is laid out anew.
-/
namespace LinkQuery

namespace Rule

open Piece

/-! ## States between the pieces of two texts -/

/-- The state stands between these pieces of one of the texts. -/
structure State.At (side : Side) (done more : List Piece) (s : State) : Prop where
  rest : s.rest = texts side more
  cursor : s.cursor = (texts side done).length
  size : s.input.size = (texts side (done ++ more)).length

/-- The tokens say the same, but a name says what its pieces are in each of the texts. -/
inductive TokenAlike (pieces : List Piece) : Token → Token → Prop
  | same {kind : TokenKind} {value : String} {position position' : Nat} (hkind : kind ≠ .word) :
    TokenAlike pieces ⟨kind, value, position⟩ ⟨kind, value, position'⟩
  | word {done mid more : List Piece} {position' : Nat} (h : pieces = done ++ (mid ++ more))
    (hmid : ∀ piece ∈ mid, piece.isChar = true) :
    TokenAlike pieces ⟨.word, String.ofList (texts .before mid), (texts .before done).length⟩
      ⟨.word, String.ofList (texts .after mid), position'⟩

/-- The tokens of two logs are alike. -/
inductive LogsAlike (pieces : List Piece) : List Token → List Token → Prop
  | nil : LogsAlike pieces [] []
  | cons {t t' : Token} {log log' : List Token} (h : TokenAlike pieces t t')
    (hmore : LogsAlike pieces log log') : LogsAlike pieces (t :: log) (t' :: log')

theorem LogsAlike.append {pieces : List Piece} {a a' b b' : List Token}
    (ha : LogsAlike pieces a a') (hb : LogsAlike pieces b b') :
    LogsAlike pieces (a ++ b) (a' ++ b') := by
  induction ha with
  | nil => exact hb
  | cons h _ ih => exact .cons h ih

theorem LogsAlike.single {pieces : List Piece} {t t' : Token} (h : TokenAlike pieces t t') :
    LogsAlike pieces [t] [t'] :=
  .cons h .nil

/-- The states stand between the same pieces of the two texts, with logs that are alike. -/
structure AbreastAt (pieces done more : List Piece) (s s' : State) : Prop where
  pieces_eq : pieces = done ++ more
  before : s.At .before done more
  after : s'.At .after done more
  logs : LogsAlike pieces s.log.toList s'.log.toList

/-- The states stand between some pieces of the two texts. -/
def Abreast (pieces : List Piece) (s s' : State) : Prop :=
  ∃ done more, AbreastAt pieces done more s s'

section States

variable {pieces done mid more : List Piece} {side : Side} {s s' : State}

theorem State.At.past (h : s.At side done (mid ++ more)) (tokens : List Token) :
    (s.past (texts side mid).length tokens).At side (done ++ mid) more := by
  refine ⟨?_, ?_, ?_⟩
  · simp [h.rest]
  · simp [State.past, State.advance, h.rest, h.cursor]
  · simpa [State.past, State.advance] using h.size

theorem State.At.left (h : s.At side done more) : s.rest.length = s.remaining := by
  have hsize := h.size
  rw [texts_append, List.length_append] at hsize
  rw [State.remaining, h.rest, h.cursor, hsize]
  omega

theorem past_log (s : State) (count : Nat) (tokens : List Token) :
    (s.past count tokens).log.toList = s.log.toList ++ tokens := by
  simp [State.past]

theorem AbreastAt.past (h : AbreastAt pieces done (mid ++ more) s s') {tokens tokens' : List Token}
    (htokens : LogsAlike pieces tokens tokens') :
    AbreastAt pieces (done ++ mid) more (s.past (texts .before mid).length tokens)
      (s'.past (texts .after mid).length tokens') := by
  refine ⟨?_, h.before.past tokens, h.after.past tokens', ?_⟩
  · rw [h.pieces_eq, List.append_assoc]
  · rw [past_log, past_log]
    exact h.logs.append htokens

variable (hsound : ∀ piece ∈ pieces, piece.Sound)
include hsound

/-- One cursor is in front of another in both texts or in none. -/
theorem abreast_order {t t' : State} (hs : Abreast pieces s s') (ht : Abreast pieces t t') :
    s.cursor < t.cursor ↔ s'.cursor < t'.cursor := by
  obtain ⟨done, more, hs⟩ := hs
  obtain ⟨further, rest, ht⟩ := ht
  have hboth : done ++ more = further ++ rest := hs.pieces_eq.symm.trans ht.pieces_eq
  rw [hs.before.cursor, hs.after.cursor, ht.before.cursor, ht.after.cursor]
  rcases List.append_eq_append_iff.mp hboth with ⟨between, rfl, -⟩ | ⟨between, rfl, -⟩
  · have hbetween : ∀ piece ∈ between, piece.Sound := by
      intro piece hpiece
      refine hsound piece ?_
      rw [ht.pieces_eq]
      simp [hpiece]
    have hlength : ∀ side, 0 < (texts side between).length ↔ between ≠ [] := by
      intro side
      rw [List.length_pos_iff, ne_eq, texts_eq_nil hbetween]
    have hone := hlength .before
    have htwo := hlength .after
    simp only [texts_append, List.length_append]
    rw [Nat.lt_add_right_iff_pos, Nat.lt_add_right_iff_pos, hone, htwo]
  · simp only [texts_append, List.length_append]
    omega

theorem abreast_lockstep : Lockstep (Abreast pieces) fun _ => True where
  left h := by
    obtain ⟨done, more, h⟩ := h
    exact ⟨Nat.le_of_eq h.before.left, Nat.le_of_eq h.after.left⟩
  order hs ht := abreast_order hsound hs ht
  discard hs ht := by
    obtain ⟨_, _, hs⟩ := hs
    obtain ⟨done, more, ht⟩ := ht
    have hbefore := ht.before
    have hafter := ht.after
    refine ⟨done, more, ht.pieces_eq, ⟨hbefore.rest, hbefore.cursor, hbefore.size⟩,
      ⟨hafter.rest, hafter.cursor, hafter.size⟩, ?_⟩
    rw [past_log, past_log, List.append_nil, List.append_nil]
    exact hs.logs
  marker {s s'} m h := by
    obtain ⟨done, more, h⟩ := h
    have hmarker : TokenAlike pieces (.ofMarker m s.cursor) (.ofMarker m s'.cursor) := by
      refine .same ?_
      simp
    have hnext : AbreastAt pieces done ([] ++ more) s s' := h
    exact ⟨_, _, hnext.past (.single hmarker)⟩
  depth _ _ h := by
    obtain ⟨done, more, h⟩ := h
    exact ⟨done, more, h.pieces_eq, ⟨h.before.rest, h.before.cursor, h.before.size⟩,
      ⟨h.after.rest, h.after.cursor, h.after.size⟩, h.logs⟩
  halt _ _ := ⟨Or.inl trivial, Or.inl trivial⟩
  limit _ := trivial

end States

/-! ## White space in front of a token -/

section Front

variable {pieces done more : List Piece} {s s' : State}

/-- Behind white space the states are abreast, in front of a piece that is none. -/
theorem AbreastAt.skipBlanks (hsound : ∀ piece ∈ pieces, piece.Sound)
    (h : AbreastAt pieces done more s s') :
    ∃ further rest, AbreastAt pieces further rest s.skipBlanks s'.skipBlanks ∧
      (∀ piece ∈ rest.head?, piece.isBlanks = false) := by
  have hmore : ∀ piece ∈ more, piece.Sound := by
    intro piece hpiece
    refine hsound piece ?_
    rw [h.pieces_eq]
    exact List.mem_append_right done hpiece
  refine ⟨done ++ more.takeWhile isBlanks, more.dropWhile isBlanks, ?_, ?_⟩
  · rw [State.skipBlanks_eq_past, State.skipBlanks_eq_past, h.before.rest, h.after.rest,
      takeWhile_isBlank hmore, takeWhile_isBlank hmore]
    have hsplit : AbreastAt pieces done (more.takeWhile isBlanks ++ more.dropWhile isBlanks) s s' := by
      rwa [List.takeWhile_append_dropWhile]
    exact hsplit.past .nil
  · intro piece hpiece
    have hhead := List.head?_dropWhile_not isBlanks more
    rw [Option.mem_def.mp hpiece] at hhead
    simpa using hhead

end Front

/-! ## Tokens -/

/-- What the lockstep of two layouts needs of a token: its text is in one letter case, or a keyword
of letters. -/
def TokenRule.isMovable : TokenRule → Bool
  | .literal text _ => text.toList.all fun e => isSolid e && !e.isAlpha
  | .keyword text => text.toList.all Char.isAlpha
  | _ => true

section Tokens

variable {pieces done mid rest : List Piece} {s s' : State}

/-- The outcomes when a token is matched in the pieces behind the white space. -/
theorem matched_abreast (h : AbreastAt pieces done (mid ++ rest) s.skipBlanks s'.skipBlanks)
    {tokens tokens' : List Token} (htokens : LogsAlike pieces tokens tokens') :
    Outcome.InStep (Abreast pieces) (fun _ => True) s s'
      (.matched (s.skipBlanks.past (texts .before mid).length tokens))
      (.matched (s'.skipBlanks.past (texts .after mid).length tokens')) := by
  have hnext := h.past htokens
  rw [State.skipBlanks_eq_past, State.skipBlanks_eq_past, State.past_past, State.past_past]
    at hnext ⊢
  exact .matched ⟨_, _, hnext⟩

/-- The same when the pieces are single characters. -/
theorem matched_chars (h : AbreastAt pieces done (mid ++ rest) s.skipBlanks s'.skipBlanks)
    (hmid : ∀ piece ∈ mid, piece.isChar = true) {tokens tokens' : List Token}
    (htokens : LogsAlike pieces tokens tokens') :
    Outcome.InStep (Abreast pieces) (fun _ => True) s s'
      (.matched (s.skipBlanks.past mid.length tokens))
      (.matched (s'.skipBlanks.past mid.length tokens')) := by
  have hall := matched_abreast h htokens
  rwa [length_texts_chars hmid, length_texts_chars hmid] at hall

/-- A name character stands behind the pieces of a token, or none does. -/
theorem isBoundary_texts {side : Side} {t : State} (h : t.rest = texts side (mid ++ rest))
    (hmid : ∀ piece ∈ mid, piece.isChar = true) :
    t.isBoundary mid.length = !(texts side rest).head?.any Text.isNameChar := by
  have hpeek : t.peek? mid.length = (texts side rest).head? := by
    rw [State.peek?, h, texts_append, ← length_texts_chars hmid side,
      List.getElem?_append_right (Nat.le_refl _), Nat.sub_self, List.head?_eq_getElem?]
  rw [State.isBoundary, hpeek]
  cases (texts side rest).head? <;> rfl

theorem isEmpty_texts (hmid : ∀ piece ∈ mid, piece.isChar = true) (side : Side) :
    (texts side mid).isEmpty = mid.isEmpty := by
  have hlength := length_texts_chars hmid side
  cases mid with
  | nil => rfl
  | cons piece mid =>
    rw [List.isEmpty_cons, List.isEmpty_eq_false_iff]
    intro hnil
    rw [hnil] at hlength
    cases hlength

/-- Characters that agree up to letter case agree in upper case. -/
theorem map_toUpper_texts (hsound : ∀ piece ∈ mid, piece.Sound)
    (hmid : ∀ piece ∈ mid, piece.isChar = true) :
    (texts .after mid).map Char.toUpper = (texts .before mid).map Char.toUpper := by
  induction mid with
  | nil => rfl
  | cons piece mid ih =>
    rw [List.forall_mem_cons] at hsound hmid
    have hmore := ih hsound.2 hmid.2
    cases piece with
    | char c c' =>
      have hupper : c'.toUpper = c.toUpper := Text.toUpper_eq_of_toLower hsound.1.2
      simpa [Piece.text, hupper] using hmore
    | _ => cases hmid.1

/-- Characters that are no letters are the same in both texts. -/
theorem texts_eq_of_numberChars (hsound : ∀ piece ∈ mid, piece.Sound)
    (hmid : ∀ piece ∈ mid, piece.isChar = true)
    (hnumber : ∀ c ∈ texts .before mid, isNumberChar c = true) :
    texts .after mid = texts .before mid := by
  induction mid with
  | nil => rfl
  | cons piece mid ih =>
    rw [List.forall_mem_cons] at hsound hmid
    cases piece with
    | char c c' =>
      have hc : isNumberChar c = true := hnumber c (by simp [Piece.text])
      have hmore := ih hsound.2 hmid.2 fun d hd => hnumber d (by simp [hd])
      obtain rfl : c' = c := by
        rcases Text.eq_or_isAlpha_of_toLower hsound.1.2 with rfl | ⟨hletter, -⟩
        · rfl
        · simp only [isNumberChar, isDigit_of_isAlpha hletter, Bool.false_or, Bool.or_eq_true,
            beq_iff_eq] at hc
          rcases hc with rfl | rfl
          · exact absurd hletter (by decide)
          · exact absurd hletter (by decide)
      simpa [Piece.text] using hmore
    | _ => cases hmid.1

variable (hsound : ∀ piece ∈ pieces, piece.Sound)
include hsound

theorem AbreastAt.sound (h : AbreastAt pieces done rest s s') : ∀ piece ∈ rest, piece.Sound := by
  intro piece hpiece
  refine hsound piece ?_
  rw [h.pieces_eq]
  exact List.mem_append_right done hpiece

theorem literal_abreast {text : String} {logged : Bool}
    (htext : ∀ e ∈ text.toList, isSolid e = true ∧ e.isAlpha = false)
    (h : AbreastAt pieces done rest s.skipBlanks s'.skipBlanks) :
    Outcome.InStep (Abreast pieces) (fun _ => True) s s' (s.literal text logged)
      (s'.literal text logged) := by
  have hblind : ∀ e ∈ text.toList, CaseBlind (State.sameChar false · e) := fun e he =>
    sameChar_exact_caseBlind (htext e he).1 (htext e he).2
  simp only [State.literal, State.lookingAt, State.take_eq_past, State.advance_eq_past,
    h.before.rest, h.after.rest]
  rcases startsWith_alike hblind (h.sound hsound) with ⟨mid, last, rfl, hmid, hlength, hat⟩ | hnone
  · simp only [hat, if_true]
    rw [← String.length_toList, ← hlength]
    cases logged with
    | true => exact matched_chars h hmid (.single (.same (by decide)))
    | false => exact matched_chars h hmid .nil
  · simp only [hnone, Bool.false_eq_true, if_false]
    exact .failed

theorem keyword_abreast {word : String} (hword : ∀ e ∈ word.toList, e.isAlpha = true)
    (h : AbreastAt pieces done rest s.skipBlanks s'.skipBlanks) :
    Outcome.InStep (Abreast pieces) (fun _ => True) s s' (s.keyword word) (s'.keyword word) := by
  have hblind : ∀ e ∈ word.toList, CaseBlind (State.sameChar true · e) := fun e he =>
    sameChar_caseBlind (hword e he)
  simp only [State.keyword, State.lookingAt, State.take_eq_past, h.before.rest, h.after.rest]
  rcases startsWith_alike hblind (h.sound hsound) with ⟨mid, last, rfl, hmid, hlength, hat⟩ | hnone
  · have hlast : ∀ piece ∈ last, piece.Sound := fun piece hpiece =>
      h.sound hsound piece (List.mem_append_right mid hpiece)
    simp only [hat, Bool.true_and]
    rw [← String.length_toList, ← hlength, isBoundary_texts h.before.rest hmid,
      isBoundary_texts h.after.rest hmid, head_texts isNameChar_caseBlind hlast]
    cases (texts .before last).head?.any Text.isNameChar with
    | true => exact .failed
    | false => exact matched_chars h hmid (.single (.same (by decide)))
  · simp only [hnone, Bool.false_and, Bool.false_eq_true, if_false]
    exact .failed

theorem name_abreast (h : AbreastAt pieces done rest s.skipBlanks s'.skipBlanks) :
    Outcome.InStep (Abreast pieces) (fun _ => True) s s' s.name s'.name := by
  obtain ⟨mid, last, rfl, hmid, hscan⟩ := scanName_alike rest (h.sound hsound)
  have hreserved : State.isReserved (String.ofList (texts .after mid)) =
      State.isReserved (String.ofList (texts .before mid)) := by
    have hupper := map_toUpper_texts
      (fun piece hpiece => h.sound hsound piece (List.mem_append_left last hpiece)) hmid
    simp only [State.isReserved, String.toUpper, String.map_eq_internal, String.toList_ofList,
      hupper]
  simp only [State.name, State.take_eq_past, h.before.rest, h.after.rest, hscan, hreserved,
    isEmpty_texts hmid]
  split
  · exact .failed
  · refine matched_abreast h (.single ?_)
    rw [h.before.cursor]
    exact .word h.pieces_eq hmid

theorem number_abreast (h : AbreastAt pieces done rest s.skipBlanks s'.skipBlanks) :
    Outcome.InStep (Abreast pieces) (fun _ => True) s s' s.number s'.number := by
  obtain ⟨mid, last, rfl, hmid, hscan⟩ := scanNumber_alike rest (h.sound hsound)
  have hlast : ∀ piece ∈ last, piece.Sound := fun piece hpiece =>
    h.sound hsound piece (List.mem_append_right mid hpiece)
  have hsame : texts .after mid = texts .before mid := by
    refine texts_eq_of_numberChars
      (fun piece hpiece => h.sound hsound piece (List.mem_append_left last hpiece)) hmid ?_
    rw [← hscan]
    exact isNumberChar_of_scanNumber
  simp only [State.number, State.take_eq_past, h.before.rest, h.after.rest, hscan,
    isEmpty_texts hmid, length_texts_chars hmid, isBoundary_texts h.before.rest hmid,
    isBoundary_texts h.after.rest hmid, head_texts isNameChar_caseBlind hlast, hsame]
  split
  · exact matched_chars h hmid (.single (.same (by decide)))
  · exact .failed

theorem quotedText_abreast (h : AbreastAt pieces done rest s.skipBlanks s'.skipBlanks)
    (hfront : ∀ piece ∈ rest.head?, piece.isBlanks = false) :
    Outcome.InStep (Abreast pieces) (fun _ => True) s s' s.quotedText s'.quotedText := by
  have hbefore := h.before.rest
  have hafter := h.after.rest
  cases rest with
  | nil =>
    simp only [State.quotedText, hbefore, hafter, texts_nil]
    exact .failed
  | cons piece rest =>
    have hpiece := h.sound hsound piece (.head _)
    cases piece with
    | blanks run run' => cases hfront _ rfl
    | char c c' =>
      have hquote : ∀ d, isSolid d = true → State.isQuote d = false := by
        intro d hd
        simp only [isSolid, Bool.and_eq_true, Bool.not_eq_true'] at hd
        exact hd.2
      have hb : s.skipBlanks.rest = c :: texts .before rest := hbefore
      have ha : s'.skipBlanks.rest = c' :: texts .after rest := hafter
      simp only [State.quotedText, hb, ha, hquote c hpiece.1, hquote c' hpiece.isSolid_after, Bool.not_false,
        if_true]
      exact .failed
    | quoted text content =>
      obtain ⟨quote, body, hquote, rfl, hbody⟩ := hpiece
      have hescape : quote ≠ '\\' := by
        rintro rfl
        cases hquote
      have hb : s.skipBlanks.rest = quote :: (body ++ quote :: texts .before rest) := by
        simp [hbefore, Piece.text]
      have ha : s'.skipBlanks.rest = quote :: (body ++ quote :: texts .after rest) := by
        simp [hafter, Piece.text]
      have hlength : ∀ side, (texts side [.quoted (quote :: (body ++ [quote])) content]).length =
          0 + body.length + 1 + 1 := by
        intro side
        cases side <;> simp [Piece.text]
      have hall : AbreastAt pieces done ([.quoted (quote :: (body ++ [quote])) content] ++ rest)
          s.skipBlanks s'.skipBlanks := h
      have htoken : TokenAlike pieces ⟨.quoted, String.ofList content, s.skipBlanks.cursor⟩
          ⟨.quoted, String.ofList content, s'.skipBlanks.cursor⟩ := .same (by decide)
      have hmatched := matched_abreast hall (.single htoken)
      rw [hlength, hlength] at hmatched
      simp only [State.quotedText, hb, ha, hquote, Bool.not_true, Bool.false_eq_true, if_false,
        scanQuoted_unescapes hescape hbody, State.take_eq_past]
      exact hmatched

/-- A token is read from the same pieces of both texts. -/
theorem read_abreast (token : TokenRule) (hmovable : token.isMovable = true)
    (h : Abreast pieces s s') :
    Outcome.InStep (Abreast pieces) (fun _ => True) s s' (token.read s) (token.read s') := by
  obtain ⟨_, _, h⟩ := h
  obtain ⟨done, rest, h, hfront⟩ := h.skipBlanks hsound
  cases token with
  | literal text logged =>
    simp only [TokenRule.isMovable, List.all_eq_true, Bool.and_eq_true, Bool.not_eq_true']
      at hmovable
    exact literal_abreast hsound hmovable h
  | keyword text => exact keyword_abreast hsound (List.all_eq_true.mp hmovable) h
  | word => exact name_abreast hsound h
  | number => exact number_abreast hsound h
  | quoted => exact quotedText_abreast hsound h hfront

end Tokens

/-! ## Logs that are alike -/

/-- Characters at positions that are not allowed to differ are the same in both texts. -/
theorem texts_eq_of_differs {allowed : Nat → Prop} {mid more : List Piece}
    (hmid : ∀ piece ∈ mid, piece.isChar = true) {k : Nat} (h : Differs allowed k (mid ++ more))
    (hnone : ∀ i < mid.length, ¬ allowed (k + i)) : texts .after mid = texts .before mid := by
  induction mid generalizing k with
  | nil => rfl
  | cons piece mid ih =>
    rw [List.forall_mem_cons] at hmid
    cases piece with
    | char c c' =>
      obtain ⟨hsame, hmore⟩ : (c' = c ∨ allowed k) ∧ Differs allowed (k + 1) (mid ++ more) := h
      have hhere : ¬ allowed k := hnone 0 (Nat.succ_pos _)
      have hrest := ih hmid.2 hmore fun i hi => by
        have hnext := hnone (i + 1) (Nat.succ_lt_succ hi)
        rwa [Nat.add_comm i 1, ← Nat.add_assoc] at hnext
      obtain rfl : c' = c := hsame.resolve_right hhere
      simpa [Piece.text] using hrest
    | _ => cases hmid.1

theorem LogsAlike.lexemes {pieces : List Piece} {log log' : List Token}
    (h : LogsAlike pieces log log')
    (hone : ∀ t ∈ log, ∀ t', TokenAlike pieces t t' → t'.lexeme = t.lexeme) :
    log'.map Token.lexeme = log.map Token.lexeme := by
  induction h with
  | nil => rfl
  | @cons t t' log log' h _ ih =>
    rw [List.forall_mem_cons] at hone
    rw [List.map_cons, List.map_cons, hone.1 t' h, ih hone.2]

end Rule

namespace TokenLog

open Rule Piece

section Logs

variable {input : List Char} {spans : List Span} {tokens : List Token} {pieces : List Piece}

/-- A name of the log has the same characters in both texts, as no keyword is in its span. -/
theorem lexeme_of_alike
    (h : Accounts input 0 input.length (tokens.filter Token.isPlaced) spans)
    (hdiffers : Differs (IsInKeyword input spans) 0 pieces) {t t' : Token} (ht : t ∈ tokens)
    (halike : TokenAlike pieces t t') : t'.lexeme = t.lexeme := by
  cases halike with
  | same hkind => rfl
  | @word done mid more position' hpieces hmid =>
    have hplaced := (List.mem_filter (p := Token.isPlaced)).mpr ⟨ht, rfl⟩
    rw [← h.tokens_eq] at hplaced
    obtain ⟨s, hs, hspan⟩ := List.mem_map.mp hplaced
    have hinside := h.inside s hs
    have hspelled := h.spelled s hs
    have hposition : s.token.position = (texts .before done).length := by rw [hspan]
    have hkind : s.token.kind = .word := by rw [hspan]
    have hvalue : s.token.value = String.ofList (texts .before mid) := by rw [hspan]
    simp only [Token.Spelled, hkind, hvalue, String.ofList_inj] at hspelled
    have hlength := congrArg List.length hspelled
    rw [slice, List.length_drop, List.length_take, Nat.min_eq_left hinside.2.2,
      length_texts_chars hmid] at hlength
    have hbehind := (hpieces ▸ hdiffers).split
    rw [Nat.zero_add, ← hposition] at hbehind
    have hsame : texts .after mid = texts .before mid := by
      refine texts_eq_of_differs hmid hbehind fun i hi hkeyword => ?_
      refine not_holds_of_keyword h hkeyword hs (by rw [hkind]; decide) ?_
      simp only [Span.Holds]
      omega
    simp only [Token.lexeme, hsame]

end Logs

/-! ## Logs of texts -/

theorem body_movable (part : Language.Part) :
    part.body.tokenRules.all TokenRule.isMovable = true := by
  cases part <;> decide +kernel

theorem kind_movable (kind : ExpressionKind) :
    kind.rule.tokenRules.all TokenRule.isMovable = true := by
  cases kind <;> decide +kernel

section Texts

variable {kind : ExpressionKind} {limit : Nat} {pieces : List Piece} {tokens : List Token}
  {input output : List Char}

/-- Both matches end their texts. -/
theorem finish_relaid (hsound : ∀ piece ∈ pieces, piece.Sound) {s s' : State}
    (hs : Abreast pieces s s') (h : finish input limit s = .ok tokens)
    (hsame : ∀ tokens', LogsAlike pieces tokens tokens' →
      tokens'.map Token.lexeme = tokens.map Token.lexeme) :
    ∃ tokens', finish output limit s' = .ok tokens' ∧
      tokens'.map Token.lexeme = tokens.map Token.lexeme := by
  obtain ⟨_, _, hs⟩ := hs
  obtain ⟨done, rest, hs, -⟩ := hs.skipBlanks hsound
  simp only [finish] at h
  split at h
  · rename_i hend
    split at h
    · cases h
    · rename_i hdepth
      obtain rfl := Except.ok.inj h
      have hlexemes := hsame _ hs.logs
      have hrest : rest = [] := by
        rw [State.atEnd, hs.before.rest, List.isEmpty_iff] at hend
        exact (texts_eq_nil (hs.sound hsound)).mp hend
      have hend' : s'.skipBlanks.atEnd = true := by
        rw [State.atEnd, hs.after.rest, hrest]
        rfl
      have hdepth' : pathDepth s'.skipBlanks.log.toList = pathDepth s.skipBlanks.log.toList :=
        (pathDepth_of_lexemes hlexemes).trans (pathDepth_of_lexemes rfl).symm
      refine ⟨s'.skipBlanks.log.toList, ?_, hlexemes⟩
      simp only [finish, hend', hdepth', if_true, if_neg hdepth]
  · cases h

theorem scan_relaid (hsound : ∀ piece ∈ pieces, piece.Sound) (hbefore : texts .before pieces = input)
    (hafter : texts .after pieces = output) (h : scan kind limit input = .ok tokens)
    (hsame : ∀ tokens', LogsAlike pieces tokens tokens' →
      tokens'.map Token.lexeme = tokens.map Token.lexeme) :
    ∃ tokens', scan kind limit output = .ok tokens' ∧
      tokens'.map Token.lexeme = tokens.map Token.lexeme := by
  have hstart : Abreast pieces (State.start input limit) (State.start output limit) := by
    refine ⟨[], pieces, rfl, ⟨hbefore.symm, rfl, ?_⟩, ⟨hafter.symm, rfl, ?_⟩, .nil⟩
    · simp [State.start, hbefore]
    · simp [State.start, hafter]
  have htokens : ∀ rules : List TokenRule, rules.all TokenRule.isMovable = true →
      TokensInStep (Abreast pieces) (fun _ => True) rules := by
    intro rules hrules token htoken s s' hs
    exact read_abreast hsound token (List.all_eq_true.mp hrules token htoken) hs
  have hmatch : Outcome.InStep (Abreast pieces) (fun _ => True) (State.start input limit)
      (State.start output limit)
      (Rule.matchAt Language.Part.body kind.rule (State.start input limit))
      (Rule.matchAt Language.Part.body kind.rule (State.start output limit)) :=
    runWithin_inStep (abreast_lockstep hsound) (fun part => htokens _ (body_movable part)) _ _
      (Nat.le_refl _) kind.rule (htokens _ (kind_movable kind))
      ⟨hstart, Nat.le_refl _, Nat.le_refl _⟩
  simp only [scan] at h ⊢
  generalize Rule.matchAt Language.Part.body kind.rule (State.start input limit) = o at hmatch h
  generalize Rule.matchAt Language.Part.body kind.rule (State.start output limit) = o' at hmatch
  cases hmatch with
  | matched hs => exact finish_relaid hsound hs h hsame
  | failed => cases h
  | halted _ => cases h

end Texts

/--
A text that is laid out anew has a log that says the same, token by token: runs of white space
outside of quotes may be replaced by other white space, and keywords may be in any letter case.
-/
theorem ofText_relaid {settings : Settings} {kind : ExpressionKind} {input : String}
    {tokens : List Token} (h : ofText settings kind input = .ok tokens) :
    (∃ spans, Accounts input.toList 0 input.length (tokens.filter Token.isPlaced) spans) ∧
    ∀ spans, Accounts input.toList 0 input.length (tokens.filter Token.isPlaced) spans →
      ∀ output : String, Relaid input.toList spans 0 input.toList output.toList →
        settings.checkLength output = .ok () →
        ∃ tokens', ofText settings kind output = .ok tokens' ∧
          tokens'.map Token.lexeme = tokens.map Token.lexeme := by
  obtain ⟨n, hcovers⟩ := ofText_covers h
  refine ⟨exists_accounts_whole hcovers, fun spans haccounts output hlaid hlength => ?_⟩
  have hshaped : ∀ t ∈ tokens.filter Token.isPlaced, t.Shaped := fun t ht =>
    ofText_shaped h t (List.mem_filter.mp ht).1
  rw [← String.length_toList] at haccounts
  obtain ⟨pieces, hsound, hbefore, hafter, hdiffers⟩ := exists_pieces haccounts hshaped hlaid
  have hsame : ∀ tokens', LogsAlike pieces tokens tokens' →
      tokens'.map Token.lexeme = tokens.map Token.lexeme := fun tokens' halike =>
    halike.lexemes fun t ht t' hone => lexeme_of_alike haccounts hdiffers ht hone
  have hblank : Text.isBlankText output = Text.isBlankText input := by
    rw [Text.isBlankText, Text.isBlankText, ← hbefore, ← hafter, all_isBlank_texts hsound,
      all_isBlank_texts hsound]
  obtain ⟨_, -, h⟩ := bind_eq_ok h
  simp only [ofText, hlength, hblank, bind, Except.bind]
  split at h
  · rename_i hinput
    obtain rfl := Except.ok.inj h
    exact ⟨[], by simp [hinput]; rfl, rfl⟩
  · rename_i hinput
    simp only [hinput, Bool.false_eq_true, if_false]
    exact scan_relaid hsound hbefore hafter h hsame

/-- Two spaces and a capital letter in front of a test for null. -/
theorem ofText_relaid_null : ∃ tokens tokens',
    ofText (.standard ⟨0, 0, 0⟩) .filter "Name is null" = .ok tokens ∧
      ofText (.standard ⟨0, 0, 0⟩) .filter "Name  Is null" = .ok tokens' ∧
      tokens'.map Token.lexeme = tokens.map Token.lexeme := by
  have hplaced : (ofText (.standard ⟨0, 0, 0⟩) .filter "Name is null").toOption.map
      (·.filter Token.isPlaced) =
        some [⟨.word, "Name", 0⟩, ⟨.keyword, "IS", 5⟩, ⟨.keyword, "NULL", 8⟩] := by
    decide +kernel
  cases hlog : ofText (.standard ⟨0, 0, 0⟩) .filter "Name is null" with
  | error why => simp [hlog, Except.toOption] at hplaced
  | ok tokens =>
    rw [hlog] at hplaced
    have htokens := Option.some.inj hplaced
    obtain ⟨⟨spans, haccounts⟩, hall⟩ := ofText_relaid hlog
    have hspans := haccounts.tokens_eq.trans htokens
    have hkeyword : IsInKeyword "Name is null".toList spans 5 := by
      obtain ⟨s, hs, hspan⟩ : ∃ s ∈ spans, s.token = ⟨.keyword, "IS", 5⟩ :=
        List.mem_map.mp (hspans ▸ by simp)
      have hinside := haccounts.inside s hs
      rw [hspan] at hinside
      exact Or.inl ⟨s, hs, by rw [hspan], by rw [hspan], hinside.2.1⟩
    have hquotes : ∀ k, ¬ IsInQuotes spans k := by
      rintro k ⟨s, hs, hquoted, -⟩
      have hmem : s.token ∈ spans.map Span.token := List.mem_map_of_mem hs
      rw [hspans] at hmem
      have hkinds : ∀ t ∈ ([⟨.word, "Name", 0⟩, ⟨.keyword, "IS", 5⟩, ⟨.keyword, "NULL", 8⟩] :
          List Token), t.kind ≠ .quoted := by decide +kernel
      exact hkinds s.token hmem hquoted
    have hspace : Text.isBlank ' ' = true := by decide
    have hone : IsBlanks [' '] := ⟨List.cons_ne_nil _ _, by simp [hspace]⟩
    have htwo : IsBlanks [' ', ' '] := ⟨List.cons_ne_nil _ _, by simp [hspace]⟩
    have hlaid : Relaid "Name is null".toList spans 0 "Name is null".toList
        "Name  Is null".toList := by
      refine Relaid.solid "Name".toList (by decide) ?_
      refine .blanks hone htwo (fun _ _ => hquotes _) ?_
      refine .recased hkeyword (by decide) ?_
      refine Relaid.solid "s".toList (by decide) ?_
      refine .blanks hone hone (fun _ _ => hquotes _) ?_
      exact Relaid.solid "null".toList (by decide) .done
    obtain ⟨tokens', hlog', hsame⟩ := hall spans haccounts "Name  Is null" hlaid (by decide)
    exact ⟨tokens, tokens', rfl, hlog', hsame⟩

end TokenLog

end LinkQuery
