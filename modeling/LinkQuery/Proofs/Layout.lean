import LinkQuery.Proofs.TokenShapes
/-!
# Two layouts of a text

A text is laid out anew by replacing runs of white space outside of quotes by other white space, and
by writing keywords in another letter case. The two texts are made of the same pieces: white space,
quoted texts, and characters that agree up to letter case.

Main statements:
- `TokenLog.Relaid`: a text that is laid out anew, given the spans of its tokens.
- `TokenLog.exists_pieces`: the pieces of the two texts.
-/
namespace LinkQuery

/-! ## Letter case -/

namespace Text

/-- Characters that agree up to letter case are equal, or both are letters. -/
theorem eq_or_isAlpha_of_toLower {c d : Char} (h : d.toLower = c.toLower) :
    d = c ∨ c.isAlpha = true ∧ d.isAlpha = true := by
  rw [← Char.toNat_inj, toNat_toLower, toNat_toLower] at h
  rw [← Char.toNat_inj, isAlpha_iff, isAlpha_iff]
  split at h
  · split at h <;> omega
  · split at h <;> omega

theorem toUpper_eq_of_toLower {c d : Char} (h : d.toLower = c.toLower) :
    d.toUpper = c.toUpper := by
  rw [← Char.toNat_inj, toNat_toLower, toNat_toLower] at h
  rw [← Char.toNat_inj, toNat_toUpper, toNat_toUpper]
  split at h
  · split at h
    · split <;> split <;> omega
    · split <;> split <;> omega
  · split at h
    · split <;> split <;> omega
    · split <;> split <;> omega

theorem isNameChar_of_isAlpha {c : Char} (h : c.isAlpha = true) : isNameChar c = true := by
  have hupper : c.toUpper.isUpper = true := by
    rw [isAlpha_iff] at h
    rw [isUpper_iff, toNat_toUpper]
    split <;> omega
  exact isNameChar_of_upper hupper

end Text

/-! ## Pieces -/

/-- One of the two texts. -/
inductive Side where
  | before
  | after

/-- A piece of two texts. -/
inductive Piece where
  | blanks (run run' : List Char)
  | char (c c' : Char)
  | quoted (text content : List Char)

namespace Piece

/-- The characters of the piece. -/
def text : Side → Piece → List Char
  | .before, .blanks run _ => run
  | .after, .blanks _ run' => run'
  | .before, .char c _ => [c]
  | .after, .char _ c' => [c']
  | _, .quoted text _ => text

/-- The characters of some pieces. -/
def texts (side : Side) (pieces : List Piece) : List Char :=
  pieces.flatMap (text side)

/-- White space, and some of it. -/
def IsBlanks (run : List Char) : Prop := run ≠ [] ∧ ∀ c ∈ run, Text.isBlank c = true

/-- The piece is white space in both texts, or one character up to its case, or in quotes. -/
def Sound : Piece → Prop
  | .blanks run run' => IsBlanks run ∧ IsBlanks run'
  | .char c c' => Rule.isSolid c = true ∧ c'.toLower = c.toLower
  | .quoted text content => Text.IsQuoted text content

/-- Where a character differs, its position in the first text is one of those given. -/
def Differs (allowed : Nat → Prop) : Nat → List Piece → Prop
  | _, [] => True
  | k, .char c c' :: pieces => (c' = c ∨ allowed k) ∧ Differs allowed (k + 1) pieces
  | k, piece :: pieces => Differs allowed (k + (piece.text .before).length) pieces

section Texts

variable (side : Side) (piece : Piece) (a b : List Piece)

@[simp]
theorem texts_nil : texts side [] = [] := rfl

@[simp]
theorem texts_cons : texts side (piece :: a) = piece.text side ++ texts side a := rfl

@[simp]
theorem texts_append : texts side (a ++ b) = texts side a ++ texts side b :=
  List.flatMap_append

end Texts

theorem Sound.text_ne_nil {piece : Piece} (h : piece.Sound) (side : Side) :
    piece.text side ≠ [] := by
  cases piece with
  | blanks run run' =>
    cases side with
    | before => exact h.1.1
    | after => exact h.2.1
  | char c c' => cases side <;> exact List.cons_ne_nil _ _
  | quoted text content =>
    obtain ⟨quote, body, -, rfl, -⟩ := h
    cases side <;> exact List.cons_ne_nil _ _

theorem texts_eq_nil {pieces : List Piece} (h : ∀ piece ∈ pieces, piece.Sound) {side : Side} :
    texts side pieces = [] ↔ pieces = [] := by
  cases pieces with
  | nil => simp
  | cons piece pieces =>
    have hne := (h piece (.head _)).text_ne_nil side
    simp [hne]

theorem Differs.split {allowed : Nat → Prop} {k : Nat} {a b : List Piece}
    (h : Differs allowed k (a ++ b)) : Differs allowed (k + (texts .before a).length) b := by
  induction a generalizing k with
  | nil => exact h
  | cons piece a ih =>
    have hrest : Differs allowed (k + (piece.text .before).length) (a ++ b) := by
      cases piece with
      | char c c' => exact h.2
      | blanks run run' => exact h
      | quoted text content => exact h
    rw [texts_cons, List.length_append, ← Nat.add_assoc]
    exact ih hrest

end Piece

/-! ## Layouts -/

namespace TokenLog

open Piece

/-- The position is in a quoted token. -/
def IsInQuotes (spans : List Span) (k : Nat) : Prop :=
  ∃ s ∈ spans, s.token.kind = .quoted ∧ s.Holds k

/-- The position is in a keyword, the one in front of a filter included. -/
def IsInKeyword (input : List Char) (spans : List Span) (k : Nat) : Prop :=
  (∃ s ∈ spans, s.token.kind = .keyword ∧ s.Holds k) ∨
    ∃ start, start ≤ k ∧ k < start + 5 ∧ IsWhereAt input spans start

/--
The second text is the first one laid out anew, from a position of the input on: runs of white space
outside of quotes are replaced by some white space, and the letters of keywords are in any case.
-/
inductive Relaid (input : List Char) (spans : List Span) : Nat → List Char → List Char → Prop
  | done {k : Nat} : Relaid input spans k [] []
  | blanks {k : Nat} {run run' cs cs' : List Char} (hrun : IsBlanks run) (hrun' : IsBlanks run')
    (houtside : ∀ i < run.length, ¬ IsInQuotes spans (k + i))
    (h : Relaid input spans (k + run.length) cs cs') : Relaid input spans k (run ++ cs) (run' ++ cs')
  | kept {k : Nat} {c : Char} {cs cs' : List Char}
    (hblank : Text.isBlank c = true → IsInQuotes spans k)
    (h : Relaid input spans (k + 1) cs cs') : Relaid input spans k (c :: cs) (c :: cs')
  | recased {k : Nat} {c c' : Char} {cs cs' : List Char} (hkeyword : IsInKeyword input spans k)
    (hcase : c'.toLower = c.toLower) (h : Relaid input spans (k + 1) cs cs') :
    Relaid input spans k (c :: cs) (c' :: cs')

/-- A text without white space may stay as it is. -/
theorem Relaid.solid {input : List Char} {spans : List Span} (text : List Char)
    (htext : text.all (!Text.isBlank ·) = true) {k : Nat} {cs cs' : List Char}
    (h : Relaid input spans (k + text.length) cs cs') :
    Relaid input spans k (text ++ cs) (text ++ cs') := by
  induction text generalizing k with
  | nil => exact h
  | cons c text ih =>
    rw [List.all_cons, Bool.and_eq_true, Bool.not_eq_true'] at htext
    rw [List.length_cons, Nat.add_comm text.length 1, ← Nat.add_assoc] at h
    refine .kept (fun hblank => ?_) (ih htext.2 h)
    rw [htext.1] at hblank
    cases hblank

/-! ## The pieces of a text and its new layout -/

/-- Quoted tokens end in front of the position or begin at it or behind it. -/
def NotInside (spans : List Span) (k : Nat) : Prop :=
  ∀ s ∈ spans, s.token.kind = .quoted → k ≤ s.token.position ∨ s.finish ≤ k

section Spans

variable {input : List Char} {spans : List Span} {tokens : List Token} {k : Nat}

theorem NotInside.next (h : NotInside spans k) (hout : ¬ IsInQuotes spans k) :
    NotInside spans (k + 1) := by
  intro s hs hquoted
  have hside := h s hs hquoted
  have hholds : ¬ s.Holds k := fun hholds => hout ⟨s, hs, hquoted, hholds⟩
  simp only [Span.Holds, not_and, Nat.not_lt] at hholds
  omega

theorem NotInside.skip (h : NotInside spans k) : ∀ {count : Nat},
    (∀ i < count, ¬ IsInQuotes spans (k + i)) → NotInside spans (k + count) := by
  intro count
  induction count with
  | zero => exact fun _ => h
  | succ count ih =>
    intro hout
    have hback := ih fun i hi => hout i (Nat.lt_succ_of_lt hi)
    exact hback.next (hout count (Nat.lt_succ_self count))

/-- Two tokens of a log are the same or do not meet. -/
theorem spans_apart (h : spans.Pairwise fun a b => a.finish ≤ b.token.position) {a b : Span}
    (ha : a ∈ spans) (hb : b ∈ spans) :
    a = b ∨ a.finish ≤ b.token.position ∨ b.finish ≤ a.token.position := by
  induction h with
  | nil => cases ha
  | cons hfirst _ ih =>
    cases List.mem_cons.mp ha with
    | inl heqa =>
      cases List.mem_cons.mp hb with
      | inl heqb => exact Or.inl (heqa.trans heqb.symm)
      | inr hmemb => exact Or.inr (Or.inl (heqa ▸ hfirst b hmemb))
    | inr hmema =>
      cases List.mem_cons.mp hb with
      | inl heqb => exact Or.inr (Or.inr (heqb ▸ hfirst a hmema))
      | inr hmemb => exact ih hmema hmemb

variable (h : Accounts input 0 input.length tokens spans) (hshaped : ∀ t ∈ tokens, t.Shaped)
include h

/-- A position in a keyword is in no other token. -/
theorem not_holds_of_keyword (hkeyword : IsInKeyword input spans k) {s : Span} (hs : s ∈ spans)
    (hkind : s.token.kind ≠ .keyword) : ¬ s.Holds k := by
  intro hholds
  rcases hkeyword with ⟨word, hword, hwordKind, hwordHolds⟩ | ⟨start, hfrom, hto, hat⟩
  · rcases spans_apart h.ordered hs hword with rfl | hapart
    · exact hkind hwordKind
    · simp only [Span.Holds] at hholds hwordHolds
      omega
  · have hapart := hat.apart s hs
    simp only [Span.Holds] at hholds
    omega

theorem not_inQuotes_of_keyword (hkeyword : IsInKeyword input spans k) :
    ¬ IsInQuotes spans k := by
  rintro ⟨s, hs, hquoted, hholds⟩
  have hkind : s.token.kind ≠ .keyword := by
    rw [hquoted]
    exact nofun
  exact not_holds_of_keyword h hkeyword hs hkind hholds

omit h in
/-- A character of a keyword in front of a filter. -/
theorem isSolid_of_where {start : Nat} {c : Char} (hat : IsWhereAt input spans start)
    (hfrom : start ≤ k) (hto : k < start + 5) (hc : input[k]? = some c) :
    Rule.isSolid c = true := by
  have hmem : c ∈ slice input start (start + 5) := by
    have hindex : (slice input start (start + 5))[k - start]? = some c := by
      rw [slice, List.getElem?_drop, List.getElem?_take_of_lt (by omega)]
      rw [← hc]
      congr 1
      omega
    exact List.mem_of_getElem? hindex
  have hupper : c.toUpper ∈ "WHERE".toList := hat.upper ▸ List.mem_map_of_mem hmem
  have hall : ∀ e ∈ "WHERE".toList, e.isUpper = true := by simp
  exact Rule.isSolid_of_upper (hall _ hupper)

include hshaped

/-- A character of a token without quotes. -/
theorem isSolid_of_span {s : Span} {c : Char} (hs : s ∈ spans) (hquoted : s.token.kind ≠ .quoted)
    (hholds : s.Holds k) (hc : input[k]? = some c) : Rule.isSolid c = true := by
  have hmem : c ∈ slice input s.token.position s.finish := by
    have hindex : (slice input s.token.position s.finish)[k - s.token.position]? = some c := by
      simp only [Span.Holds] at hholds
      rw [slice, List.getElem?_drop, List.getElem?_take_of_lt (by omega)]
      rw [← hc]
      congr 1
      omega
    exact List.mem_of_getElem? hindex
  have htoken : s.token ∈ tokens := h.tokens_eq ▸ List.mem_map_of_mem hs
  exact (hshaped s.token htoken).solid (h.spelled s hs) hquoted c hmem

theorem isSolid_of_keyword {c : Char} (hkeyword : IsInKeyword input spans k)
    (hc : input[k]? = some c) : Rule.isSolid c = true := by
  rcases hkeyword with ⟨s, hs, hkind, hholds⟩ | ⟨start, hfrom, hto, hat⟩
  · refine isSolid_of_span h hshaped hs ?_ hholds hc
    rw [hkind]
    exact nofun
  · exact isSolid_of_where hat hfrom hto hc

/-- Outside of quotes there is white space and what may stand in a token without quotes. -/
theorem isSolid_outside {c : Char} (hout : ¬ IsInQuotes spans k) (hc : input[k]? = some c)
    (hblank : Text.isBlank c = false) : Rule.isSolid c = true := by
  have hlength := List.getElem?_eq_some_iff.mp hc
  obtain ⟨hlt, -⟩ := hlength
  rcases h.between k (Nat.zero_le k) hlt with ⟨s, hs, hholds⟩ | hunlogged
  · refine isSolid_of_span h hshaped hs ?_ hholds hc
    intro hquoted
    exact hout ⟨s, hs, hquoted, hholds⟩
  · rcases hunlogged with ⟨d, hd, hgap⟩ | ⟨start, -, hfrom, hto, hat⟩
    · obtain rfl : c = d := Option.some.inj (hc.symm.trans hd)
      rcases hgap with hgap | hgap
      · rw [hblank] at hgap
        cases hgap
      · have hall : ∀ text ∈ Rule.silentSymbols, text.toList.all Rule.isSolid = true := by
          decide
        simpa using hall _ hgap
    · exact isSolid_of_where hat hfrom hto hc

omit hshaped

/-- In quotes nothing is replaced. -/
theorem Relaid.inQuotes {text rest cs' : List Char} {k : Nat}
    (hin : ∀ i < text.length, IsInQuotes spans (k + i))
    (hlaid : Relaid input spans k (text ++ rest) cs') :
    ∃ rest', cs' = text ++ rest' ∧ Relaid input spans (k + text.length) rest rest' := by
  induction text generalizing k cs' with
  | nil => exact ⟨cs', rfl, hlaid⟩
  | cons c text ih =>
    have hhere : IsInQuotes spans k := hin 0 (Nat.succ_pos _)
    have hmore : ∀ i < text.length, IsInQuotes spans (k + 1 + i) := by
      intro i hi
      have hnext := hin (i + 1) (Nat.succ_lt_succ hi)
      rwa [Nat.add_comm i 1, ← Nat.add_assoc] at hnext
    rw [List.cons_append] at hlaid
    generalize hall : c :: (text ++ rest) = all at hlaid
    cases hlaid with
    | done => cases hall
    | @blanks _ run run' cs cs' hrun hrun' houtside hlaid =>
      have hfirst := houtside 0 (List.length_pos_iff.mpr hrun.1)
      exact absurd hhere hfirst
    | recased hkeyword hcase hlaid => exact absurd hhere (not_inQuotes_of_keyword h hkeyword)
    | kept hblank hlaid =>
      obtain ⟨rfl, rfl⟩ := List.cons.inj hall
      obtain ⟨rest', rfl, hrest⟩ := ih hmore hlaid
      refine ⟨rest', rfl, ?_⟩
      rw [List.length_cons, Nat.add_comm text.length 1, ← Nat.add_assoc]
      exact hrest

/-- The token that a position in quotes belongs to, if no token reaches over it. -/
theorem quoted_at (hinside : NotInside spans k) (hin : IsInQuotes spans k) :
    ∃ text content rest, input.drop k = text ++ rest ∧ Text.IsQuoted text content ∧
      (∀ i < text.length, IsInQuotes spans (k + i)) ∧ NotInside spans (k + text.length) := by
  obtain ⟨s, hs, hquoted, hholds⟩ := hin
  have hside := hinside s hs hquoted
  have hplace := h.inside s hs
  have hspelled := h.spelled s hs
  have hpos : s.token.position = k := by
    simp only [Span.Holds] at hholds
    omega
  have hlength : (slice input s.token.position s.finish).length = s.finish - k := by
    rw [slice, List.length_drop, List.length_take, Nat.min_eq_left hplace.2.2, hpos]
  have hend : k + (slice input s.token.position s.finish).length = s.finish := by
    omega
  simp only [Token.Spelled, hquoted] at hspelled
  refine ⟨_, _, input.drop s.finish, ?_, hspelled, ?_, ?_⟩
  · have hsplit := List.take_append_drop s.finish input
    have hdrop := congrArg (List.drop k) hsplit
    rw [List.drop_append_of_le_length (by rw [List.length_take]; omega)] at hdrop
    rw [slice, hpos, hdrop]
  · intro i hi
    refine ⟨s, hs, hquoted, ?_, ?_⟩
    · rw [hpos]
      exact Nat.le_add_right k i
    · omega
  · rw [hend]
    intro other hother hkind
    rcases spans_apart h.ordered hs hother with rfl | hapart
    · exact Or.inr (Nat.le_refl _)
    · have hotherPlace := h.inside other hother
      omega

include hshaped

/-- A text and its new layout are made of the same pieces. -/
theorem exists_pieces_within : ∀ (n : Nat) {k : Nat} {cs cs' : List Char}, cs.length < n →
    input.drop k = cs → NotInside spans k → Relaid input spans k cs cs' →
    ∃ pieces : List Piece, (∀ piece ∈ pieces, piece.Sound) ∧ texts .before pieces = cs ∧
      texts .after pieces = cs' ∧ Differs (IsInKeyword input spans) k pieces := by
  intro n
  induction n with
  | zero =>
    intro k cs cs' hlength
    exact absurd hlength (Nat.not_lt_zero _)
  | succ n ih =>
    intro k cs cs' hlength hdrop hinside hlaid
    -- One character, the same in both texts up to letter case, and the pieces behind it.
    have hchar : ∀ {c c' : Char} {rest rest' : List Char}, cs = c :: rest →
        (Text.isBlank c = false ∨ IsInKeyword input spans k) → c'.toLower = c.toLower →
        (c' = c ∨ IsInKeyword input spans k) → ¬ IsInQuotes spans k →
        Relaid input spans (k + 1) rest rest' →
        ∃ pieces : List Piece, (∀ piece ∈ pieces, piece.Sound) ∧ texts .before pieces = cs ∧
          texts .after pieces = c' :: rest' ∧ Differs (IsInKeyword input spans) k pieces := by
      intro c c' rest rest' hcs hkind hcase hsame hout hrest
      subst hcs
      have hhead : input[k]? = some c := by
        rw [← List.head?_drop, hdrop]
        rfl
      have hdropNext : input.drop (k + 1) = rest := by
        rw [← List.tail_drop, hdrop]
        rfl
      have hsolid : Rule.isSolid c = true := by
        rcases hkind with hblank | hkeyword
        · exact isSolid_outside h hshaped hout hhead hblank
        · exact isSolid_of_keyword h hshaped hkeyword hhead
      obtain ⟨pieces, hsound, hbefore, hafter, hdiffers⟩ :=
        ih (Nat.lt_of_succ_lt_succ hlength) hdropNext (hinside.next hout) hrest
      refine ⟨.char c c' :: pieces, List.forall_mem_cons.mpr ⟨⟨hsolid, hcase⟩, hsound⟩, ?_, ?_,
        hsame, hdiffers⟩
      · rw [texts_cons, hbefore]
        rfl
      · rw [texts_cons, hafter]
        rfl
    by_cases hin : IsInQuotes spans k
    · obtain ⟨text, content, rest, hsplit, hquoted, hall, hnext⟩ := quoted_at h hinside hin
      obtain rfl : cs = text ++ rest := hdrop.symm.trans hsplit
      obtain ⟨rest', rfl, hrest⟩ := Relaid.inQuotes h hall hlaid
      have hne : 0 < text.length := by
        obtain ⟨quote, body, -, rfl, -⟩ := hquoted
        exact Nat.succ_pos _
      have hdropNext : input.drop (k + text.length) = rest := by
        rw [← List.drop_drop, hdrop, List.drop_left]
      rw [List.length_append] at hlength
      obtain ⟨pieces, hsound, hbefore, hafter, hdiffers⟩ :=
        ih (by omega) hdropNext hnext hrest
      refine ⟨.quoted text content :: pieces, List.forall_mem_cons.mpr ⟨hquoted, hsound⟩, ?_, ?_,
        hdiffers⟩
      · rw [texts_cons, hbefore]
        rfl
      · rw [texts_cons, hafter]
        rfl
    · cases hlaid with
      | done => exact ⟨[], nofun, rfl, rfl, trivial⟩
      | kept hblank hrest =>
        rename_i c rest rest'
        have hsolid : Text.isBlank c = false := by
          cases hc : Text.isBlank c with
          | false => rfl
          | true => exact absurd (hblank hc) hin
        exact hchar rfl (Or.inl hsolid) rfl (Or.inl rfl) hin hrest
      | recased hkeyword hcase hrest =>
        exact hchar rfl (Or.inr hkeyword) hcase (Or.inr hkeyword) hin hrest
      | @blanks _ run run' rest rest' hrun hrun' houtside hrest =>
        have hne := List.length_pos_iff.mpr hrun.1
        have hdropNext : input.drop (k + run.length) = rest := by
          rw [← List.drop_drop, hdrop, List.drop_left]
        rw [List.length_append] at hlength
        obtain ⟨pieces, hsound, hbefore, hafter, hdiffers⟩ :=
          ih (by omega) hdropNext (hinside.skip houtside) hrest
        refine ⟨.blanks run run' :: pieces,
          List.forall_mem_cons.mpr ⟨⟨hrun, hrun'⟩, hsound⟩, ?_, ?_, hdiffers⟩
        · rw [texts_cons, hbefore]
          rfl
        · rw [texts_cons, hafter]
          rfl

/-- A text and its new layout are made of the same pieces, from the beginning on. -/
theorem exists_pieces {output : List Char} (hlaid : Relaid input spans 0 input output) :
    ∃ pieces : List Piece, (∀ piece ∈ pieces, piece.Sound) ∧ texts .before pieces = input ∧
      texts .after pieces = output ∧ Differs (IsInKeyword input spans) 0 pieces :=
  exists_pieces_within h hshaped (input.length + 1) (Nat.lt_succ_self _) List.drop_zero
    (fun _ _ _ => Or.inl (Nat.zero_le _)) hlaid

end Spans

end TokenLog

end LinkQuery
