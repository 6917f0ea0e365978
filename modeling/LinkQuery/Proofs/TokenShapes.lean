import LinkQuery.Proofs.Coverage
import LinkQuery.Proofs.TokenTexts
/-!
# Characters of tokens

Which characters the tokens of a log are made of: names of name characters, numbers of digits, a
sign and a point, keywords of capitals. Apart from quoted texts no token holds white space or a
quote.

Main statements:
- `TokenLog.ofText_shaped`: the characters of the tokens of an accepted text.
-/
namespace LinkQuery

/-! ## Character classes -/

namespace Text

theorem numerals_apart_blanks : Ranges.apart numericRanges blankRanges = true := by
  decide

theorem isBlank_of_isNameChar {c : Char} (h : isNameChar c = true) : isBlank c = false := by
  simp only [isNameChar, Bool.or_eq_true, beq_iff_eq] at h
  rcases h with (hletter | hnumeral) | hunderscore
  · refine isBlank_of_isNameStart ?_
    rw [isNameStart, hletter, Bool.true_or]
  · unfold isNumeral at hnumeral
    split at hnumeral
    · rename_i hascii
      have hrange : Ranges.has numericRanges c = true := by
        have hfirst : '0'.toNat = 48 := rfl
        have hlast : '9'.toNat = 57 := rfl
        rw [Char.isDigit_iff_toNat] at hnumeral
        simp only [Ranges.has, numericRanges, List.any_cons, Bool.or_eq_true, Bool.and_eq_true,
          decide_eq_true_eq]
        exact Or.inl (by omega)
      exact Ranges.has_of_apart numerals_apart_blanks hrange
    · exact Ranges.has_of_apart numerals_apart_blanks hnumeral
  · subst hunderscore
    decide

end Text

namespace Rule

theorem isNameChar_of_scanName {cs : List Char} :
    ∀ c ∈ State.scanName cs, Text.isNameChar c = true := by
  unfold State.scanName
  split
  · exact nofun
  · split
    · exact List.all_eq_true.mp List.all_takeWhile
    · exact nofun

/-- The characters that numbers are written with. -/
def isNumberChar (c : Char) : Bool := c.isDigit || c == '-' || c == '.'

theorem isNumberChar_of_scanNumber {cs : List Char} :
    ∀ c ∈ State.scanNumber cs, isNumberChar c = true := by
  have hdigits : ∀ more : List Char, ∀ c ∈ more.takeWhile Char.isDigit, isNumberChar c = true := by
    intro more c hc
    have hdigit := List.all_eq_true.mp List.all_takeWhile c hc
    simp [isNumberChar, hdigit]
  have hplaces : ∀ more, ∀ c ∈ State.scanPlaces more, isNumberChar c = true := by
    intro more
    unfold State.scanPlaces
    split
    · simp only
      split
      · exact nofun
      · exact List.forall_mem_cons.mpr ⟨rfl, hdigits _⟩
    · exact nofun
  have hmagnitude : ∀ more, ∀ c ∈ State.scanMagnitude more, isNumberChar c = true := by
    intro more
    simp only [State.scanMagnitude]
    split
    · exact nofun
    · exact List.forall_mem_append.mpr ⟨hdigits _, hplaces _⟩
  unfold State.scanNumber
  split
  · simp only
    split
    · exact nofun
    · exact List.forall_mem_cons.mpr ⟨rfl, hmagnitude _⟩
  · exact hmagnitude _

/-- Neither white space nor a quote: a character that may stand in a token without quotes. -/
def isSolid (c : Char) : Bool := !Text.isBlank c && !State.isQuote c

theorem isSolid_of_isNameChar {c : Char} (h : Text.isNameChar c = true) : isSolid c = true := by
  have hquote : State.isQuote c = false := by
    simp only [State.isQuote, Bool.or_eq_false_iff, beq_eq_false_iff_ne]
    constructor
    · rintro rfl
      exact absurd h (by decide)
    · rintro rfl
      exact absurd h (by decide)
  rw [isSolid, Text.isBlank_of_isNameChar h, hquote]
  rfl

theorem isSolid_of_isNumberChar {c : Char} (h : isNumberChar c = true) : isSolid c = true := by
  simp only [isNumberChar, Bool.or_eq_true, beq_iff_eq] at h
  rcases h with (hdigit | rfl) | rfl
  · exact isSolid_of_isNameChar (isNameChar_of_isDigit hdigit)
  · decide
  · decide

theorem isSolid_of_upper {c : Char} (h : c.toUpper.isUpper = true) : isSolid c = true :=
  isSolid_of_isNameChar (Text.isNameChar_of_upper h)

end Rule

/-! ## Shapes of tokens -/

open Rule (isSolid isNumberChar State Chains Outcome)

/-- The value of a token is made of the characters of its kind. -/
def Token.Shaped (t : Token) : Prop :=
  match t.kind with
  | .word => ∀ c ∈ t.value.toList, Text.isNameChar c = true
  | .number => ∀ c ∈ t.value.toList, isNumberChar c = true
  | .symbol => ∀ c ∈ t.value.toList, isSolid c = true
  | .keyword => ∀ c ∈ t.value.toList, c.isUpper = true
  | _ => True

/-- The text of a token without quotes holds no white space and no quotes. -/
theorem Token.Shaped.solid {t : Token} {text : List Char} (h : t.Shaped) (hspelled : t.Spelled text)
    (hquoted : t.kind ≠ .quoted) : ∀ c ∈ text, isSolid c = true := by
  obtain ⟨kind, value, position⟩ := t
  intro c hc
  cases kind with
  | word =>
    obtain rfl : String.ofList text = value := hspelled
    exact Rule.isSolid_of_isNameChar (h c (by simpa using hc))
  | number =>
    obtain rfl : String.ofList text = value := hspelled
    exact Rule.isSolid_of_isNumberChar (h c (by simpa using hc))
  | symbol =>
    obtain rfl : String.ofList text = value := hspelled
    exact h c (by simpa using hc)
  | keyword =>
    obtain rfl : String.ofList (text.map Char.toUpper) = value := hspelled
    exact Rule.isSolid_of_upper (h c.toUpper (by simpa using ⟨c, hc, rfl⟩))
  | quoted => exact absurd rfl hquoted
  | marker m => exact hspelled.elim

namespace Rule

variable {ν : Type}

/-! ## Logs of well-shaped tokens -/

/-- The tokens that the second state has logged are made of the characters of their kinds. -/
def LogsShaped (s t : State) : Prop :=
  ∃ tokens, t.log.toList = s.log.toList ++ tokens ∧ ∀ token ∈ tokens, token.Shaped

theorem logsShaped_chains : Chains LogsShaped where
  refl s := ⟨[], (List.append_nil _).symm, by simp⟩
  trans := by
    intro s t u hst htu
    obtain ⟨a, hloga, ha⟩ := hst
    obtain ⟨b, hlogb, hb⟩ := htu
    refine ⟨a ++ b, ?_, List.forall_mem_append.mpr ⟨ha, hb⟩⟩
    rw [hlogb, hloga, List.append_assoc]

theorem logsShaped_of_same {s t : State} (h : t.log = s.log) : LogsShaped s t :=
  ⟨[], by rw [h, List.append_nil], by simp⟩

theorem take_logsShaped {s : State} {kind : TokenKind} {value : String} {length : Nat}
    (h : (⟨kind, value, s.skipBlanks.cursor⟩ : Token).Shaped) :
    LogsShaped s (s.skipBlanks.take kind value length) := by
  refine ⟨[⟨kind, value, s.skipBlanks.cursor⟩], ?_, by simpa using h⟩
  simp [State.take, State.push, State.skipBlanks, State.advance]

theorem name_logsShaped {s t : State} (h : s.name = .matched t) : LogsShaped s t := by
  simp only [State.name] at h
  split at h
  · cases h
  · obtain rfl := Outcome.matched.inj h
    refine take_logsShaped ?_
    simpa [Token.Shaped] using isNameChar_of_scanName

theorem number_logsShaped {s t : State} (h : s.number = .matched t) : LogsShaped s t := by
  simp only [State.number] at h
  split at h
  · obtain rfl := Outcome.matched.inj h
    refine take_logsShaped ?_
    simpa [Token.Shaped] using isNumberChar_of_scanNumber
  · cases h

theorem quotedText_logsShaped {s t : State} (h : s.quotedText = .matched t) : LogsShaped s t := by
  simp only [State.quotedText] at h
  split at h
  · cases h
  · split at h
    · cases h
    · split at h
      · obtain rfl := Outcome.matched.inj h
        exact take_logsShaped trivial
      · cases h
      · cases h

theorem keyword_logsShaped {s t : State} {word : String} (hword : ∀ c ∈ word.toList, c.isUpper = true)
    (h : s.keyword word = .matched t) : LogsShaped s t := by
  simp only [State.keyword] at h
  split at h
  · obtain rfl := Outcome.matched.inj h
    exact take_logsShaped hword
  · cases h

/-- The tokens that a match of the rule logs itself are well shaped. -/
def isShapely : Rule ν → Bool
  | .literal text logged => !logged || text.toList.all isSolid
  | .keyword text => text.toList.all Char.isUpper
  | .silent (.keyword _) => true
  | .word => true
  | .number => true
  | .quoted => true
  | .action _ => true
  | _ => false

theorem run_logsShaped {call : ν → State → Outcome} {p : Rule ν} {s t : State}
    (hp : p.isShapely = true) (h : run call p s = .matched t) : LogsShaped s t := by
  cases p with
  | literal text logged =>
    simp only [run, State.literal] at h
    split at h
    · cases logged with
      | true =>
        obtain rfl := Outcome.matched.inj h
        refine take_logsShaped ?_
        simpa [isShapely, Token.Shaped] using hp
      | false =>
        obtain rfl := Outcome.matched.inj h
        exact logsShaped_of_same rfl
    · cases h
  | keyword text => exact keyword_logsShaped (List.all_eq_true.mp hp) h
  | word => exact name_logsShaped h
  | number => exact number_logsShaped h
  | quoted => exact quotedText_logsShaped h
  | silent rule =>
    cases rule with
    | keyword text =>
      simp only [run, State.keyword, State.take_eq_past, State.skipBlanks_eq_past,
        State.past_past] at h
      split at h
      · obtain rfl := Outcome.matched.inj h
        rw [State.past_discardSince]
        exact logsShaped_of_same (by simp [State.past, State.advance])
      · cases h
    | _ => cases hp
  | action m =>
    obtain rfl := Outcome.matched.inj h
    exact ⟨[.ofMarker m s.cursor], by simp [State.pushMarker], by simp [Token.Shaped, Token.ofMarker]⟩
  | _ => cases hp

/-- A match of a grammar whose primitive rules are shapely logs well-shaped tokens. -/
theorem matchAt_logsShaped {body : ν → Rule ν} {rule : Rule ν}
    (hbody : ∀ name, (body name).primitives.all isShapely = true)
    (hrule : rule.primitives.all isShapely = true) {s t : State}
    (h : matchAt body rule s = .matched t) : LogsShaped s t := by
  have henter : ∀ s t : State, LogsShaped s.enter.2 t → LogsShaped s t.leave := by
    intro s t hst
    unfold State.enter at hst
    split at hst
    · exact hst
    · exact hst
  refine runWithin_related logsShaped_chains body henter ?_ _ rule ?_ s t (Nat.le_refl _) h
  · exact fun name p hp _ _ _ => run_logsShaped (List.all_eq_true.mp (hbody name) p hp)
  · exact fun p hp _ _ _ => run_logsShaped (List.all_eq_true.mp hrule p hp)

end Rule

namespace TokenLog

theorem body_shapely (part : Language.Part) : part.body.primitives.all Rule.isShapely = true := by
  cases part <;> decide +kernel

theorem kind_shapely (kind : ExpressionKind) : kind.rule.primitives.all Rule.isShapely = true := by
  cases kind <;> decide

/-- The tokens of an accepted text are made of the characters of their kinds. -/
theorem ofText_shaped {settings : Settings} {kind : ExpressionKind} {input : String}
    {tokens : List Token} (h : ofText settings kind input = .ok tokens) :
    ∀ t ∈ tokens, t.Shaped := by
  obtain ⟨_, -, h⟩ := bind_eq_ok h
  split at h
  · obtain rfl := Except.ok.inj h
    exact nofun
  · simp only [scan] at h
    split at h
    · cases h
    · cases h
    · rename_i s hmatched
      obtain ⟨tokens, hlog, hshaped⟩ :=
        Rule.matchAt_logsShaped body_shapely (kind_shapely kind) hmatched
      simp only [finish] at h
      split at h
      · split at h
        · cases h
        · obtain rfl := Except.ok.inj h
          have hall : s.log.toList = tokens := by simpa [State.start] using hlog
          rw [← hall] at hshaped
          exact hshaped
      · cases h

end TokenLog

end LinkQuery
