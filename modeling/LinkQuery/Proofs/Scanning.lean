import LinkQuery.Proofs.Layout
/-!
# Scanning two layouts of a text

What is scanned at the front of a text, a name, a number, a literal or a quoted text, is scanned from
the same pieces in the other layout of the text.

Main statements:
- `Piece.ScansAlike`: a scan that takes the same pieces of both texts.
- `Piece.scanName_alike`, `Piece.scanNumber_alike`, `Piece.startsWith_alike`,
  `Piece.scanQuoted_unescapes`: the scans of single tokens.
-/
namespace LinkQuery.Piece

open Rule (State isSolid)

/-! ## Kinds of pieces -/

/-- The piece is one character outside of quotes. -/
def isChar : Piece → Bool
  | .char _ _ => true
  | _ => false

/-- The piece is white space. -/
def isBlanks : Piece → Bool
  | .blanks _ _ => true
  | _ => false

theorem length_texts_chars {pieces : List Piece} (h : ∀ piece ∈ pieces, piece.isChar = true)
    (side : Side) : (texts side pieces).length = pieces.length := by
  induction pieces with
  | nil => rfl
  | cons piece pieces ih =>
    rw [List.forall_mem_cons] at h
    obtain ⟨hpiece, hpieces⟩ := h
    cases piece with
    | char c c' =>
      rw [texts_cons, List.length_append, ih hpieces]
      cases side <;> exact Nat.add_comm _ _
    | _ => cases hpiece

/-- A piece that is not one character begins with white space or a quote. -/
theorem Sound.first_of_not_char {piece : Piece} (h : piece.Sound) (hchar : piece.isChar = false)
    (side : Side) : ∃ c rest, piece.text side = c :: rest ∧ isSolid c = false := by
  have hblanks : ∀ run : List Char, IsBlanks run →
      ∃ c rest, run = c :: rest ∧ isSolid c = false := by
    intro run hrun
    obtain ⟨c, rest, rfl⟩ := List.exists_cons_of_ne_nil hrun.1
    have hblank := hrun.2 c (.head _)
    exact ⟨c, rest, rfl, by simp [isSolid, hblank]⟩
  cases piece with
  | char c c' => cases hchar
  | blanks run run' =>
    cases side with
    | before => exact hblanks run h.1
    | after => exact hblanks run' h.2
  | quoted text content =>
    obtain ⟨quote, body, hquote, rfl, -⟩ := h
    have hsolid : isSolid quote = false := by simp [isSolid, hquote]
    cases side with
    | before => exact ⟨quote, _, rfl, hsolid⟩
    | after => exact ⟨quote, _, rfl, hsolid⟩

/-- A character outside of quotes is solid in both texts. -/
theorem Sound.isSolid_after {c c' : Char} (h : (Piece.char c c').Sound) : isSolid c' = true := by
  rcases Text.eq_or_isAlpha_of_toLower h.2 with rfl | ⟨-, hletter⟩
  · exact h.1
  · exact Rule.isSolid_of_isNameChar (Text.isNameChar_of_isAlpha hletter)

theorem Sound.all_isBlank {piece : Piece} (h : piece.Sound) (hblanks : piece.isBlanks = true)
    (side : Side) : ∀ c ∈ piece.text side, Text.isBlank c = true := by
  cases piece with
  | blanks run run' =>
    cases side with
    | before => exact h.1.2
    | after => exact h.2.2
  | _ => cases hblanks

/-- A piece that is no white space does not begin with any. -/
theorem Sound.first_not_blank {piece : Piece} (h : piece.Sound) (hblanks : piece.isBlanks = false)
    (side : Side) : ∃ c rest, piece.text side = c :: rest ∧ Text.isBlank c = false := by
  have hsolid : ∀ c, isSolid c = true → Text.isBlank c = false := by
    intro c hc
    simp only [isSolid, Bool.and_eq_true, Bool.not_eq_true'] at hc
    exact hc.1
  cases piece with
  | blanks run run' => cases hblanks
  | char c c' =>
    cases side with
    | before => exact ⟨c, [], rfl, hsolid c h.1⟩
    | after => exact ⟨c', [], rfl, hsolid c' h.isSolid_after⟩
  | quoted text content =>
    obtain ⟨quote, body, hquote, rfl, -⟩ := h
    have hnone : Text.isBlank quote = false := by
      simp only [State.isQuote, Bool.or_eq_true, beq_iff_eq] at hquote
      rcases hquote with rfl | rfl <;> decide
    cases side with
    | before => exact ⟨quote, _, rfl, hnone⟩
    | after => exact ⟨quote, _, rfl, hnone⟩

/-- The white space at the front of both texts is made of the same pieces. -/
theorem takeWhile_isBlank {pieces : List Piece} (hsound : ∀ piece ∈ pieces, piece.Sound)
    (side : Side) :
    (texts side pieces).takeWhile Text.isBlank = texts side (pieces.takeWhile isBlanks) := by
  induction pieces with
  | nil => rfl
  | cons piece pieces ih =>
    rw [List.forall_mem_cons] at hsound
    obtain ⟨hpiece, hpieces⟩ := hsound
    cases hblanks : piece.isBlanks with
    | true =>
      rw [texts_cons, List.takeWhile_append_of_pos (hpiece.all_isBlank hblanks side), ih hpieces,
        List.takeWhile_cons_of_pos hblanks, texts_cons]
    | false =>
      obtain ⟨c, rest, htext, hc⟩ := hpiece.first_not_blank hblanks side
      simp [htext, hc, hblanks]

/-- One text is nothing but white space if the other is. -/
theorem all_isBlank_texts {pieces : List Piece} (hsound : ∀ piece ∈ pieces, piece.Sound)
    (side : Side) : (texts side pieces).all Text.isBlank = pieces.all isBlanks := by
  induction pieces with
  | nil => rfl
  | cons piece pieces ih =>
    rw [List.forall_mem_cons] at hsound
    obtain ⟨hpiece, hpieces⟩ := hsound
    rw [texts_cons, List.all_append, List.all_cons, ih hpieces]
    congr 1
    cases hblanks : piece.isBlanks with
    | true => exact List.all_eq_true.mpr (hpiece.all_isBlank hblanks side)
    | false =>
      obtain ⟨c, rest, htext, hc⟩ := hpiece.first_not_blank hblanks side
      simp [htext, hc]

/-! ## Tests of characters -/

/-- The test does not look at letter case, and holds of neither white space nor quotes. -/
structure CaseBlind (p : Char → Bool) : Prop where
  solid : ∀ {c}, p c = true → isSolid c = true
  same : ∀ {c d}, d.toLower = c.toLower → p d = p c

theorem caseBlind_of_isAlpha {p : Char → Bool} (hsolid : ∀ {c}, p c = true → isSolid c = true)
    (b : Bool) (hletter : ∀ {c}, c.isAlpha = true → p c = b) : CaseBlind p where
  solid := hsolid
  same := by
    intro c d hcase
    rcases Text.eq_or_isAlpha_of_toLower hcase with rfl | ⟨hc, hd⟩
    · rfl
    · rw [hletter hc, hletter hd]

theorem isNameChar_caseBlind : CaseBlind Text.isNameChar :=
  caseBlind_of_isAlpha Rule.isSolid_of_isNameChar true Text.isNameChar_of_isAlpha

theorem isNameStart_caseBlind : CaseBlind Text.isNameStart := by
  refine caseBlind_of_isAlpha (fun h => ?_) true fun {c} h => ?_
  · exact Rule.isSolid_of_isNameChar (Text.isNameChar_of_isNameStart h)
  · have hascii : c.toNat < 128 := by
      rw [Text.isAlpha_iff] at h
      omega
    simp [Text.isNameStart, Text.isLetter, hascii, h]

theorem isDigit_of_isAlpha {c : Char} (h : c.isAlpha = true) : c.isDigit = false := by
  have hfirst : '0'.toNat = 48 := rfl
  have hlast : '9'.toNat = 57 := rfl
  rw [Text.isAlpha_iff] at h
  rw [← Bool.not_eq_true, Char.isDigit_iff_toNat]
  omega

theorem isDigit_caseBlind : CaseBlind Char.isDigit :=
  caseBlind_of_isAlpha (fun h => Rule.isSolid_of_isNameChar (Rule.isNameChar_of_isDigit h)) false
    isDigit_of_isAlpha

theorem equals_caseBlind {e : Char} (hsolid : isSolid e = true) (hletter : e.isAlpha = false) :
    CaseBlind (· == e) := by
  refine caseBlind_of_isAlpha (fun {c} h => ?_) false fun {c} h => ?_
  · obtain rfl : c = e := by simpa using h
    exact hsolid
  · rw [beq_eq_false_iff_ne]
    rintro rfl
    rw [h] at hletter
    cases hletter

/-- The characters of literals have no letter case. -/
theorem sameChar_exact_caseBlind {e : Char} (hsolid : isSolid e = true)
    (hletter : e.isAlpha = false) : CaseBlind (State.sameChar false · e) := by
  have hsame : (State.sameChar false · e) = (· == e) := by
    funext c
    simp [State.sameChar]
  rw [hsame]
  exact equals_caseBlind hsolid hletter

/-- The characters of keywords are letters. -/
theorem sameChar_caseBlind {e : Char} (hletter : e.isAlpha = true) :
    CaseBlind (State.sameChar true · e) where
  solid := by
    intro c h
    simp only [State.sameChar, Bool.true_and, Bool.or_eq_true, beq_iff_eq] at h
    have hcase : e.toLower = c.toLower := by
      rcases h with rfl | h
      · rfl
      · exact h.symm
    refine isNameChar_caseBlind.solid ?_
    rw [← isNameChar_caseBlind.same hcase]
    exact Text.isNameChar_of_isAlpha hletter
  same := by
    intro c d hcase
    have hone : ∀ c, State.sameChar true c e = (c.toLower == e.toLower) := by
      intro c
      rw [Bool.eq_iff_iff]
      simp only [State.sameChar, Bool.true_and, Bool.or_eq_true, beq_iff_eq]
      exact ⟨fun h => h.elim (congrArg _) id, Or.inr⟩
    rw [hone, hone, hcase]

/-! ## Scans -/

/-- The scan takes the same characters from both texts. -/
def ScansAlike (scan : List Char → List Char) : Prop :=
  ∀ pieces : List Piece, (∀ piece ∈ pieces, piece.Sound) →
    ∃ mid rest, pieces = mid ++ rest ∧ (∀ piece ∈ mid, piece.isChar = true) ∧
      ∀ side, scan (texts side pieces) = texts side mid

section Scans

variable {p : Char → Bool}

/-- The first characters of both texts pass a test, or they do not. -/
theorem head_texts (hp : CaseBlind p) {pieces : List Piece}
    (hsound : ∀ piece ∈ pieces, piece.Sound) :
    (texts .after pieces).head?.any p = (texts .before pieces).head?.any p := by
  cases pieces with
  | nil => rfl
  | cons piece pieces =>
    have hpiece := hsound piece (.head _)
    cases hchar : piece.isChar with
    | false =>
      have hfails : ∀ side, (texts side (piece :: pieces)).head?.any p = false := by
        intro side
        obtain ⟨c, rest, htext, hsolid⟩ := hpiece.first_of_not_char hchar side
        have hc : p c = false := by
          cases hc : p c with
          | false => rfl
          | true =>
            rw [hp.solid hc] at hsolid
            cases hsolid
        simp [htext, hc]
      rw [hfails, hfails]
    | true =>
      cases piece with
      | char c c' => exact hp.same hpiece.2
      | _ => cases hchar

theorem takeWhile_alike (hp : CaseBlind p) : ScansAlike (List.takeWhile p) := by
  intro pieces hsound
  induction pieces with
  | nil => exact ⟨[], [], rfl, nofun, fun _ => rfl⟩
  | cons piece pieces ih =>
    have hpiece := hsound piece (.head _)
    have hhead := head_texts hp hsound
    obtain ⟨mid, rest, hsplit, hmid, htake⟩ := ih fun q hq => hsound q (.tail _ hq)
    cases hchar : piece.isChar with
    | false =>
      refine ⟨[], piece :: pieces, rfl, nofun, fun side => ?_⟩
      obtain ⟨c, more, htext, hsolid⟩ := hpiece.first_of_not_char hchar side
      have hc : ¬ p c = true := by
        intro hc
        rw [hp.solid hc] at hsolid
        cases hsolid
      simp [htext, hc]
    | true =>
      cases piece with
      | char c c' =>
        have hsame : p c' = p c := hp.same hpiece.2
        by_cases hc : p c = true
        · refine ⟨.char c c' :: mid, rest, by rw [hsplit]; rfl,
            List.forall_mem_cons.mpr ⟨rfl, hmid⟩, fun side => ?_⟩
          have hone := htake side
          cases side with
          | before => simpa [text, hc] using hone
          | after => simpa [text, hsame, hc] using hone
        · refine ⟨[], .char c c' :: pieces, rfl, nofun, fun side => ?_⟩
          cases side with
          | before => simp [text, hc]
          | after => simp [text, hsame, hc]
      | _ => cases hchar

/-- A scan that is taken only behind a first character that passes a test. -/
theorem guarded_alike (hp : CaseBlind p) {scan guarded : List Char → List Char}
    (hscan : ScansAlike scan)
    (hguarded : ∀ cs, guarded cs = if cs.head?.any p then scan cs else []) :
    ScansAlike guarded := by
  intro pieces hsound
  have hhead := head_texts hp hsound
  cases hfirst : (texts .before pieces).head?.any p with
  | true =>
    obtain ⟨mid, rest, hsplit, hmid, htake⟩ := hscan pieces hsound
    refine ⟨mid, rest, hsplit, hmid, fun side => ?_⟩
    rw [hguarded, ← htake side]
    cases side with
    | before => rw [if_pos hfirst]
    | after => rw [if_pos (hhead.trans hfirst)]
  | false =>
    refine ⟨[], pieces, rfl, nofun, fun side => ?_⟩
    rw [hguarded, if_neg]
    · rfl
    · cases side with
      | before => simp [hfirst]
      | after => simp [hhead, hfirst]

theorem scanName_alike : ScansAlike State.scanName := by
  refine guarded_alike isNameStart_caseBlind (takeWhile_alike isNameChar_caseBlind) fun cs => ?_
  cases cs with
  | nil => rfl
  | cons c cs => rfl

/-- A scan of one certain character and of what a scan takes behind it, if it takes anything. -/
theorem behind_alike {e : Char} (he : CaseBlind (· == e)) {scan all : List Char → List Char}
    (hscan : ScansAlike scan)
    (hall : ∀ cs, all (e :: cs) = if (scan cs).isEmpty then [] else e :: scan cs)
    (hnone : ∀ cs, cs.head?.any (· == e) = false → all cs = []) : ScansAlike all := by
  intro pieces hsound
  have hhead := head_texts he hsound
  cases hfirst : (texts .before pieces).head?.any (· == e) with
  | false =>
    refine ⟨[], pieces, rfl, nofun, fun side => ?_⟩
    refine hnone _ ?_
    cases side with
    | before => exact hfirst
    | after => exact hhead.trans hfirst
  | true =>
    cases pieces with
    | nil => cases hfirst
    | cons piece pieces =>
      have hpiece := hsound piece (.head _)
      cases hchar : piece.isChar with
      | false =>
        obtain ⟨c, more, htext, hsolid⟩ := hpiece.first_of_not_char hchar .before
        have hc : (c == e) = true := by simpa [htext] using hfirst
        rw [he.solid hc] at hsolid
        cases hsolid
      | true =>
        cases piece with
        | char c c' =>
          obtain rfl : c = e := by simpa [text] using hfirst
          obtain rfl : c' = c := by simpa [text] using hhead
          obtain ⟨mid, rest, hsplit, hmid, htake⟩ :=
            hscan pieces fun q hq => hsound q (.tail _ hq)
          have hside : ∀ side, all (texts side (.char c' c' :: pieces)) =
              if (texts side mid).isEmpty then [] else c' :: texts side mid := by
            intro side
            rw [← htake side, ← hall]
            cases side <;> rfl
          cases mid with
          | nil => exact ⟨[], .char c' c' :: pieces, rfl, nofun, fun side => hside side⟩
          | cons first mid =>
            refine ⟨.char c' c' :: first :: mid, rest, by rw [hsplit]; rfl,
              List.forall_mem_cons.mpr ⟨rfl, hmid⟩, fun side => ?_⟩
            have hne := (hsound first (by simp [hsplit])).text_ne_nil side
            rw [hside, if_neg (by simp [hne])]
            cases side <;> rfl
        | _ => cases hchar

/-- One scan and another behind what it takes, if it takes anything. -/
theorem followed_alike {first second all : List Char → List Char} (hfirst : ScansAlike first)
    (hsecond : ScansAlike second)
    (hall : ∀ cs, all cs = if (first cs).isEmpty then []
      else first cs ++ second (cs.drop (first cs).length)) : ScansAlike all := by
  intro pieces hsound
  obtain ⟨mid, rest, rfl, hmid, htake⟩ := hfirst pieces hsound
  obtain ⟨more, last, rfl, hmore, htakeMore⟩ := hsecond rest fun q hq => hsound q (by simp [hq])
  have hside : ∀ side, all (texts side (mid ++ (more ++ last))) =
      if (texts side mid).isEmpty then [] else texts side (mid ++ more) := by
    intro side
    have hbehind : (texts side (mid ++ (more ++ last))).drop (texts side mid).length =
        texts side (more ++ last) := by
      rw [texts_append, List.drop_left]
    rw [hall, htake, hbehind, htakeMore, texts_append]
  cases mid with
  | nil => exact ⟨[], more ++ last, rfl, nofun, fun side => hside side⟩
  | cons one mid =>
    refine ⟨one :: mid ++ more, last, by simp, List.forall_mem_append.mpr ⟨hmid, hmore⟩,
      fun side => ?_⟩
    have hne := (hsound one (by simp)).text_ne_nil side
    rw [hside, if_neg (by simp [hne])]

theorem scanPlaces_alike : ScansAlike State.scanPlaces := by
  have hpoint : CaseBlind (· == '.') := equals_caseBlind (by decide) (by decide)
  refine behind_alike hpoint (takeWhile_alike isDigit_caseBlind) (fun cs => rfl) fun cs hcs => ?_
  cases cs with
  | nil => rfl
  | cons c cs =>
    have hc : c ≠ '.' := by simpa using hcs
    simp [State.scanPlaces, hc]

theorem scanMagnitude_alike : ScansAlike State.scanMagnitude :=
  followed_alike (takeWhile_alike isDigit_caseBlind) scanPlaces_alike fun _ => rfl

/-- The number behind a minus sign. -/
def scanNegative : List Char → List Char
  | '-' :: rest =>
    let magnitude := State.scanMagnitude rest
    if magnitude.isEmpty then [] else '-' :: magnitude
  | _ => []

theorem scanNegative_alike : ScansAlike scanNegative := by
  have hminus : CaseBlind (· == '-') := equals_caseBlind (by decide) (by decide)
  refine behind_alike hminus scanMagnitude_alike (fun cs => rfl) fun cs hcs => ?_
  cases cs with
  | nil => rfl
  | cons c cs =>
    have hc : c ≠ '-' := by simpa using hcs
    simp [scanNegative, hc]

theorem scanNumber_alike : ScansAlike State.scanNumber := by
  have hminus : CaseBlind (· == '-') := equals_caseBlind (by decide) (by decide)
  intro pieces hsound
  have hhead := head_texts hminus hsound
  have hsign : ∀ cs : List Char, State.scanNumber cs =
      if cs.head?.any (· == '-') then scanNegative cs else State.scanMagnitude cs := by
    intro cs
    cases cs with
    | nil => rfl
    | cons c cs =>
      by_cases hc : c = '-'
      · subst hc
        rfl
      · simp [State.scanNumber, hc]
  cases hfirst : (texts .before pieces).head?.any (· == '-') with
  | true =>
    obtain ⟨mid, rest, hsplit, hmid, htake⟩ := scanNegative_alike pieces hsound
    refine ⟨mid, rest, hsplit, hmid, fun side => ?_⟩
    rw [hsign, ← htake side]
    cases side with
    | before => rw [if_pos hfirst]
    | after => rw [if_pos (hhead.trans hfirst)]
  | false =>
    obtain ⟨mid, rest, hsplit, hmid, htake⟩ := scanMagnitude_alike pieces hsound
    refine ⟨mid, rest, hsplit, hmid, fun side => ?_⟩
    rw [hsign, ← htake side]
    cases side with
    | before => simp [hfirst]
    | after => simp [hhead, hfirst]

/-- The text stands at the front of both texts, read from the same pieces, or of neither. -/
theorem startsWith_alike {ignoreCase : Bool} {expected : List Char}
    (he : ∀ e ∈ expected, CaseBlind (State.sameChar ignoreCase · e)) :
    ∀ {pieces : List Piece}, (∀ piece ∈ pieces, piece.Sound) →
      (∃ mid rest, pieces = mid ++ rest ∧ (∀ piece ∈ mid, piece.isChar = true) ∧
        mid.length = expected.length ∧
        ∀ side, State.startsWith ignoreCase (texts side pieces) expected = true) ∨
      ∀ side, State.startsWith ignoreCase (texts side pieces) expected = false := by
  induction expected with
  | nil =>
    intro pieces _
    refine Or.inl ⟨[], pieces, rfl, nofun, rfl, fun side => ?_⟩
    cases texts side pieces <;> rfl
  | cons e expected ih =>
    rw [List.forall_mem_cons] at he
    intro pieces hsound
    cases pieces with
    | nil => exact Or.inr fun _ => rfl
    | cons piece pieces =>
      have hpiece := hsound piece (.head _)
      cases hchar : piece.isChar with
      | false =>
        refine Or.inr fun side => ?_
        obtain ⟨c, more, htext, hsolid⟩ := hpiece.first_of_not_char hchar side
        have hc : State.sameChar ignoreCase c e = false := by
          cases hc : State.sameChar ignoreCase c e with
          | false => rfl
          | true =>
            rw [he.1.solid hc] at hsolid
            cases hsolid
        simp [htext, State.startsWith, hc]
      | true =>
        cases piece with
        | char c c' =>
          have hsame : State.sameChar ignoreCase c' e = State.sameChar ignoreCase c e :=
            he.1.same hpiece.2
          have hside : ∀ side, State.startsWith ignoreCase (texts side (.char c c' :: pieces))
              (e :: expected) = (State.sameChar ignoreCase c e &&
                State.startsWith ignoreCase (texts side pieces) expected) := by
            intro side
            cases side with
            | before => rfl
            | after =>
              rw [← hsame]
              rfl
          rcases ih he.2 fun q hq => hsound q (.tail _ hq) with
            ⟨mid, rest, hsplit, hmid, hlength, hstarts⟩ | hfails
          · cases hc : State.sameChar ignoreCase c e with
            | false =>
              refine Or.inr fun side => ?_
              rw [hside, hc, Bool.false_and]
            | true =>
              refine Or.inl ⟨.char c c' :: mid, rest, by rw [hsplit]; rfl,
                List.forall_mem_cons.mpr ⟨rfl, hmid⟩, congrArg (· + 1) hlength, fun side => ?_⟩
              rw [hside, hc, hstarts, Bool.true_and]
          · refine Or.inr fun side => ?_
            rw [hside, hfails, Bool.and_false]
        | _ => cases hchar

end Scans

/-- A quoted text is read up to its closing quote. -/
theorem scanQuoted_unescapes {quote : Char} {body content : List Char} (hquote : quote ≠ '\\')
    (h : Text.Unescapes quote body content) (rest : List Char) :
    ∀ (read : List Char) (length : Nat), Text.scanQuoted quote read length (body ++ quote :: rest) =
      .closed (read.reverse ++ content) (length + body.length + 1) rest := by
  induction h with
  | nil =>
    intro read length
    rw [List.nil_append, Text.scanQuoted.eq_def]
    simp
  | @escaped e body content _ ih =>
    intro read length
    have hnext := ih (Text.unescape e :: read) (length + 2)
    rw [List.cons_append, List.cons_append, Text.scanQuoted.eq_def]
    simp only [beq_eq_false_iff_ne.mpr hquote.symm, Bool.false_eq_true, if_false, beq_self_eq_true,
      if_true, hnext, List.reverse_cons, List.append_assoc, List.singleton_append,
      List.length_cons]
    congr 1
    omega
  | @plain c body content hne hescape _ ih =>
    intro read length
    have hnext := ih (c :: read) (length + 1)
    rw [List.cons_append, Text.scanQuoted.eq_def]
    simp only [beq_eq_false_iff_ne.mpr hne, beq_eq_false_iff_ne.mpr hescape, Bool.false_eq_true,
      if_false, hnext, List.reverse_cons, List.append_assoc, List.singleton_append,
      List.length_cons]
    congr 1
    omega

end LinkQuery.Piece
