import LinkQuery.Language.Kind
import LinkQuery.Literal
import LinkQuery.Proofs.Numerals
import LinkQuery.Proofs.TokenTexts
import LinkQuery.Proofs.ValueLogs
import LinkQuery.Query.Interval
/-!
# Texts of values

Literals, counts and intervals are written as texts that the grammar accepts as values, and their
logs say the same however they are placed.

Main statements:
- `CompareOp.accepts`: the texts of comparison operators.
- `Literal.accepts_value`, `Interval.accepts_value`: what is written is accepted as a value.
-/
namespace LinkQuery

open Rule Language

variable {cs rest : List Char}

/-! ## Comparison operators -/

/-- A comparison operator that no further equality sign follows. -/
theorem CompareOp.accepts (op : CompareOp)
    (h : Text.dropBlanks cs = op.symbol.toList ++ rest) (hrest : rest.head? ≠ some '=') :
    Accepts Part.body Language.compareOp cs rest [(.symbol, op.symbol)] := by
  have hreject : ∀ text : String,
      State.startsWith false (op.symbol.toList ++ rest) text.toList = false →
      Rejects Part.body (.symbol text) cs := fun text htext =>
    Rejects.literal (by rw [h, htext])
  have hequals : ∀ c, State.startsWith false (c :: rest) [c, '='] = false := by
    intro c
    cases rest with
    | nil => simp [State.startsWith]
    | cons d rest =>
      have hd : d ≠ '=' := by simpa using hrest
      simp [State.startsWith, State.sameChar, hd]
  have haccept : Accepts Part.body (.symbol op.symbol) cs rest [(.symbol, op.symbol)] :=
    Accepts.symbol h
  cases op with
  | eq =>
    show Accepts _ (.longest ([] ++ Rule.symbol "=" :: [_, _, _, _, _])) _ _ _
    refine Accepts.longest (by simp) haccept ?_
    simp only [List.forall_mem_cons]
    exact ⟨Or.inl (hreject _ rfl), Or.inl (hreject _ rfl), Or.inl (hreject _ rfl),
      Or.inl (hreject _ rfl), Or.inl (hreject _ rfl), by simp⟩
  | contains =>
    show Accepts _ (.longest ([_] ++ Rule.symbol ":" :: [_, _, _, _])) _ _ _
    refine Accepts.longest ?_ haccept ?_
    · simp only [List.forall_mem_cons]
      exact ⟨Or.inl (hreject _ rfl), by simp⟩
    · simp only [List.forall_mem_cons]
      exact ⟨Or.inl (hreject _ rfl), Or.inl (hreject _ rfl), Or.inl (hreject _ rfl),
        Or.inl (hreject _ rfl), by simp⟩
  | lt =>
    show Accepts _ (.longest ([_, _] ++ Rule.symbol "<" :: [_, _, _])) _ _ _
    refine Accepts.longest ?_ haccept ?_
    · simp only [List.forall_mem_cons]
      exact ⟨Or.inl (hreject _ rfl), Or.inl (hreject _ rfl), by simp⟩
    · simp only [List.forall_mem_cons]
      exact ⟨Or.inl (hreject _ (hequals '<')), Or.inl (hreject _ rfl), Or.inl (hreject _ rfl),
        by simp⟩
  | le =>
    show Accepts _ (.longest ([_, _, Rule.symbol "<"] ++ Rule.symbol "<=" :: [_, _])) _ _ _
    refine Accepts.longest ?_ haccept ?_
    · simp only [List.forall_mem_cons]
      exact ⟨Or.inl (hreject _ rfl), Or.inl (hreject _ rfl),
        Or.inr ⟨'=' :: rest, _, Accepts.symbol h, by simp⟩, by simp⟩
    · simp only [List.forall_mem_cons]
      exact ⟨Or.inl (hreject _ rfl), Or.inl (hreject _ rfl), by simp⟩
  | gt =>
    show Accepts _ (.longest ([_, _, _, _] ++ Rule.symbol ">" :: [_])) _ _ _
    refine Accepts.longest ?_ haccept ?_
    · simp only [List.forall_mem_cons]
      exact ⟨Or.inl (hreject _ rfl), Or.inl (hreject _ rfl), Or.inl (hreject _ rfl),
        Or.inl (hreject _ rfl), by simp⟩
    · simp only [List.forall_mem_cons]
      exact ⟨Or.inl (hreject _ (hequals '>')), by simp⟩
  | ge =>
    show Accepts _ (.longest ([_, _, _, _, Rule.symbol ">"] ++ Rule.symbol ">=" :: [])) _ _ _
    refine Accepts.longest ?_ haccept (by simp)
    simp only [List.forall_mem_cons]
    exact ⟨Or.inl (hreject _ rfl), Or.inl (hreject _ rfl), Or.inl (hreject _ rfl),
      Or.inl (hreject _ rfl), Or.inr ⟨'=' :: rest, _, Accepts.symbol h, by simp⟩, by simp⟩

/-! ## Plain values -/

theorem endsNumber_of_front {c : Char} {more : List Char} (hname : Text.isNameChar c = false)
    (hpoint : c ≠ '.') : EndsNumber (c :: more) :=
  ⟨by rintro _ ⟨⟩; exact hname, by simpa using hpoint⟩

/-- The text is a value, and a bound of an interval, in front of anything that ends a number. -/
structure IsValue (text : List Char) (lexeme : Lexeme) : Prop where
  solid : ∀ rest, Text.dropBlanks (text ++ rest) = text ++ rest
  value : ∀ cs rest, Text.dropBlanks cs = text ++ rest → EndsNumber rest →
    Accepts Part.body Language.value cs rest [lexeme]
  bound : ∀ cs rest, Text.dropBlanks cs = text ++ rest → EndsNumber rest →
    Accepts Part.body Language.bound cs rest [lexeme]

/-- The values that are no ranges. -/
def plainValue : PartRule := .choice [relativeTime, .quoted, .number, .word]

/-- No range and no open bound begins with this character. -/
def beginsPlain (c : Char) : Bool :=
  [.keyword "NULL", range, Rule.symbol "*"].all fun rule =>
    !mayBegin (namesMayBegin Part.body 1) rule (some c)

theorem IsValue.of_plain {c : Char} {more : List Char} {lexeme : Lexeme}
    (hblank : Text.isBlank c = false) (hplain : beginsPlain c = true)
    (h : ∀ cs rest, Text.dropBlanks cs = c :: more ++ rest → EndsNumber rest →
      Accepts Part.body plainValue cs rest [lexeme]) : IsValue (c :: more) lexeme := by
  simp only [beginsPlain, List.all_cons, List.all_nil, Bool.and_true, Bool.and_eq_true,
    Bool.not_eq_true'] at hplain
  obtain ⟨hnull, hrange, hstar⟩ := hplain
  have hfront : ∀ {cs rest : List Char}, Text.dropBlanks cs = c :: more ++ rest →
      front cs = some c := fun hcs => by rw [front, hcs]; rfl
  refine ⟨fun rest => Text.dropBlanks_cons hblank, fun cs rest hcs hrest => ?_,
    fun cs rest hcs hrest => ?_⟩
  · exact Accepts.choiceTail (rejects_of_front 1 (hfront hcs) hnull)
      (Accepts.choiceTail (rejects_of_front 1 (hfront hcs) hrange) (h cs rest hcs hrest))
  · exact Accepts.choiceTail (rejects_of_front 1 (hfront hcs) hstar) (h cs rest hcs hrest)

/-- A quoted text is a value. -/
theorem quote_isValue (text : String) : IsValue (Text.quote text).toList (.quoted, text) := by
  rw [toList_quote]
  refine IsValue.of_plain (by decide) (by decide) fun cs rest hcs _ => ?_
  rw [← toList_quote] at hcs
  have hfront : front cs = some '\'' := by
    rw [front, hcs, toList_quote]
    rfl
  exact Accepts.choiceTail (rejects_of_front 1 hfront (by decide))
    (Accepts.choiceHead (Accepts.quoted hcs))

/-! ## Numbers -/

theorem mem_digits {c : Char} (h : c.isDigit = true) : c ∈ "0123456789".toList := by
  rw [Char.isDigit_iff_toNat] at h
  have hzero : '0'.toNat = 48 := rfl
  have hnine : '9'.toNat = 57 := rfl
  have hdigit : c = Char.ofNat c.toNat := (Char.ofNat_toNat c).symm
  obtain ⟨n, hn, hlow, hhigh⟩ : ∃ n, c.toNat = n ∧ 48 ≤ n ∧ n ≤ 57 := ⟨_, rfl, by omega, by omega⟩
  rw [hdigit, hn]
  have hall : ∀ n, n < 58 → 48 ≤ n → Char.ofNat n ∈ "0123456789".toList := by decide
  exact hall n (by omega) hlow

/-- A number begins with its sign or a digit. -/
theorem Rule.IsNumber.first {digits : List Char} (h : IsNumber digits) :
    ∃ c more, digits = c :: more ∧ c ∈ "-0123456789".toList := by
  have hfirst : ∀ digits tail : List Char, digits ≠ [] → (∀ c ∈ digits, c.isDigit = true) →
      ∃ c more, digits ++ tail = c :: more ∧ c ∈ "-0123456789".toList := by
    intro digits tail hne hall
    obtain ⟨c, more, rfl⟩ := List.exists_cons_of_ne_nil hne
    exact ⟨c, more ++ tail, rfl, List.mem_cons_of_mem _ (mem_digits (hall c (List.mem_cons_self ..)))⟩
  cases h with
  | whole hne h => simpa using hfirst digits [] hne h
  | places hne h _ _ => exact hfirst _ _ hne h
  | negative _ h => exact ⟨'-', _, rfl, List.mem_cons_self ..⟩

/-- A number is a value. -/
theorem Rule.IsNumber.isValue {digits : List Char} (h : IsNumber digits) :
    IsValue digits (.number, String.ofList digits) := by
  obtain ⟨c, more, rfl, hc⟩ := h.first
  have hall : ("-0123456789".toList.all fun c => (!Text.isBlank c && beginsPlain c) &&
      (!mayBegin (namesMayBegin Part.body 1) relativeTime (some c) &&
        !mayBegin (namesMayBegin Part.body 1) .quoted (some c))) = true := by decide
  have hfacts := List.all_eq_true.mp hall c hc
  simp only [Bool.and_eq_true, Bool.not_eq_true'] at hfacts
  obtain ⟨⟨hblank, hplain⟩, hrelative, hquoted⟩ := hfacts
  refine IsValue.of_plain hblank hplain fun cs rest hcs hrest => ?_
  have hfront : Rule.front cs = some c := by
    rw [Rule.front, hcs]
    rfl
  exact Accepts.choiceTail (rejects_of_front 1 hfront hrelative)
    (Accepts.choiceTail (rejects_of_front 1 hfront hquoted)
      (Accepts.choiceHead (Accepts.number hcs h hrest)))

/-- A decimal is written as a number. -/
theorem Decimal.text_isNumber (d : Decimal) : IsNumber d.text.toList := by
  obtain ⟨whole, places, htext, hne, hdigits, hlength, -⟩ := toList_magnitudeText d
  have hwhole : ∀ c ∈ whole, c.isDigit = true := fun c hc => hdigits c (List.mem_append_left _ hc)
  have hplaces : ∀ c ∈ places, c.isDigit = true := fun c hc => hdigits c (List.mem_append_right _ hc)
  have hmagnitude : IsNumber d.magnitudeText.toList := by
    rw [htext]
    split
    · rw [List.append_nil]
      exact .whole hne hwhole
    · rename_i hscale
      refine .places hne hwhole ?_ hplaces
      rintro rfl
      exact hscale hlength.symm
  unfold text
  split
  · rw [String.toList_append]
    refine .negative ?_ hmagnitude
    rw [htext]
    exact @digits_head whole _ hne hwhole
  · exact hmagnitude

theorem toString_isNumber (n : Nat) : IsNumber (toString n).toList := by
  have hdigits : (toString n).toList = Nat.toDigits 10 n := by
    rw [Nat.toString_eq_ofList_toDigits, String.toList_ofList]
  rw [hdigits]
  exact .whole (Nat.toDigits_ne_nil) fun c hc => Text.isDigit_of_mem_toDigits hc

/-! ## Literals -/

namespace Literal

/-- What a literal says as a value. -/
def lexeme : Literal → Lexeme
  | .text value => (.quoted, value)
  | .number value => (.number, value.text)
  | .boolean value => (.word, if value then "true" else "false")
  | .timestamp value => (.quoted, value.text)

/-- No keyword of relative time begins like a truth value. -/
theorem rejects_relativeTime {word : List Char} (h : word = "true".toList ∨ word = "false".toList)
    (hcs : Text.dropBlanks cs = word ++ rest) : Rejects Part.body relativeTime cs := by
  have hwords : ("NOW" :: periodWords).all (fun keyword =>
      !State.startsWith true (Text.dropBlanks cs) keyword.toList) = true := by
    rw [hcs]
    rcases h with rfl | rfl <;> rfl
  rw [List.all_cons, Bool.and_eq_true, Bool.not_eq_true'] at hwords
  exact Rejects.choiceCons (Rejects.seqHead (Rejects.keyword hwords.1))
    (Rejects.choiceCons (Rejects.seqHead (Rejects.keywords hwords.2)) Rejects.choiceNil)

theorem truth_isValue {word : String} (h : word = "true" ∨ word = "false") :
    IsValue word.toList (.word, word) := by
  have hword : IsWord word := by
    rcases h with rfl | rfl <;> exact ⟨by decide, by decide, by decide +kernel⟩
  have hlist : word.toList = "true".toList ∨ word.toList = "false".toList :=
    h.imp (congrArg String.toList) (congrArg String.toList)
  obtain ⟨c, more, htext, hblank, hplain, hquoted, hnumber⟩ : ∃ c more, word.toList = c :: more ∧
      Text.isBlank c = false ∧ beginsPlain c = true ∧
      mayBegin (namesMayBegin Part.body 1) .quoted (some c) = false ∧
      mayBegin (namesMayBegin Part.body 1) .number (some c) = false := by
    rcases h with rfl | rfl
    · exact ⟨'t', _, rfl, by decide, by decide, by decide, by decide⟩
    · exact ⟨'f', _, rfl, by decide, by decide, by decide, by decide⟩
  rw [htext]
  refine IsValue.of_plain hblank hplain fun cs rest hcs hrest => ?_
  have hfront : front cs = some c := by
    rw [front, hcs]
    rfl
  rw [← htext] at hcs
  exact Accepts.choiceTail (rejects_relativeTime hlist hcs)
    (Accepts.choiceTail (rejects_of_front 1 hfront hquoted)
      (Accepts.choiceTail (rejects_of_front 1 hfront hnumber)
        (Accepts.choiceHead (Accepts.word hcs hword hrest.name))))

/-- A literal is written as a value. -/
theorem isValue (value : Literal) : IsValue value.shown.toList value.lexeme := by
  cases value with
  | text value => exact quote_isValue value
  | number value =>
    have hnumber := value.text_isNumber.isValue
    rwa [String.ofList_toList] at hnumber
  | boolean value =>
    refine truth_isValue ?_
    cases value
    · exact Or.inr rfl
    · exact Or.inl rfl
  | timestamp value => exact quote_isValue value.text

end Literal

/-! ## Ranges -/

namespace Interval

variable {α : Type} {shown : α → String} {lexeme : α → Lexeme}

/-- What a bound says. -/
def boundLexeme (lexeme : α → Lexeme) : Option α → Lexeme
  | none => (.symbol, "*")
  | some bound => lexeme bound

/-- What an interval says as a value. -/
def lexemes (lexeme : α → Lexeme) (r : Interval α) : List Lexeme :=
  [(.symbol, if r.minInclusive then "[" else "\x7b"), boundLexeme lexeme r.min, (.keyword, "TO"),
    boundLexeme lexeme r.max, (.symbol, if r.maxInclusive then "]" else "\x7d")]

theorem accepts_bound {bound : Option α} (h : ∀ b ∈ bound, IsValue (shown b).toList (lexeme b))
    (hcs : Text.dropBlanks cs = (boundText shown bound).toList ++ rest) (hrest : EndsNumber rest) :
    Accepts Part.body Language.bound cs rest [boundLexeme lexeme bound] := by
  cases bound with
  | none => exact Accepts.choiceHead (Accepts.symbol hcs)
  | some b => exact (h b rfl).bound cs rest hcs hrest

theorem boundText_solid {bound : Option α} (h : ∀ b ∈ bound, IsValue (shown b).toList (lexeme b))
    (rest : List Char) : Text.dropBlanks ((boundText shown bound).toList ++ rest) =
      (boundText shown bound).toList ++ rest := by
  cases bound with
  | none =>
    rw [show boundText shown none = "*" from rfl]
    exact Text.dropBlanks_cons (show Text.isBlank '*' = false by decide)
  | some b => exact (h b rfl).solid rest

/-- An interval is written as a range. -/
theorem accepts_range {r : Interval α} (h : r.Bounds fun b => IsValue (shown b).toList (lexeme b))
    (hcs : Text.dropBlanks cs = (r.text shown).toList ++ rest) :
    Accepts Part.body range cs rest (r.lexemes lexeme) := by
  obtain ⟨min, max, minInclusive, maxInclusive⟩ := r
  obtain ⟨hmin, hmax⟩ := h
  simp only [text, String.toList_append, List.append_assoc] at hcs
  have hclosing : ∀ inclusive : Bool, EndsNumber
      ((if inclusive then "]" else "\x7d" : String).toList ++ rest) := by
    rintro (_ | _) <;> exact endsNumber_of_front (by decide) (by decide)
  have hclose : Accepts Part.body (.choice [Rule.symbol "]", Rule.symbol "\x7d"])
      ((if maxInclusive then "]" else "\x7d" : String).toList ++ rest) rest
      [(.symbol, if maxInclusive then "]" else "\x7d")] := by
    cases maxInclusive with
    | true => exact Accepts.choiceHead (Accepts.symbol rfl)
    | false => exact Accepts.choiceTail (Rejects.literal rfl) (Accepts.choiceHead (Accepts.symbol rfl))
  have hopen : ∀ rest, Text.dropBlanks cs = (if minInclusive then "[" else "\x7b" : String).toList ++
      rest → Accepts Part.body (.choice [Rule.symbol "[", Rule.symbol "\x7b"]) cs rest
        [(.symbol, if minInclusive then "[" else "\x7b")] := by
    intro rest hcs
    cases minInclusive with
    | true => exact Accepts.choiceHead (Accepts.symbol hcs)
    | false =>
      exact Accepts.choiceTail (Rejects.literal (by rw [hcs]; rfl))
        (Accepts.choiceHead (Accepts.symbol hcs))
  have hto : ∀ rest, EndsNumber (" TO ".toList ++ rest) ∧
      Accepts Part.body (.keyword "TO") (" TO ".toList ++ rest) (' ' :: rest) [(.keyword, "TO")] := by
    refine fun rest => ⟨endsNumber_of_front (by decide) (by decide), Accepts.keyword rfl ?_⟩
    rintro _ ⟨⟩
    decide
  exact Accepts.seq (hopen _ hcs)
    (Accepts.seq (Accepts.required (accepts_bound hmin (boundText_solid hmin _) (hto _).1))
      (Accepts.seq (Accepts.required (hto _).2)
        (Accepts.seq (Accepts.required (accepts_bound hmax
          (show Text.dropBlanks (' ' :: _) = _ from boundText_solid hmax _) (hclosing maxInclusive)))
          (Accepts.seq (Accepts.required hclose) Accepts.seqNil))))

/-- An interval is written as a value. -/
theorem accepts_value {r : Interval α} (h : r.Bounds fun b => IsValue (shown b).toList (lexeme b))
    (hcs : Text.dropBlanks cs = (r.text shown).toList ++ rest) :
    Accepts Part.body Language.value cs rest (r.lexemes lexeme) := by
  refine Accepts.choiceTail ?_ (Accepts.choiceHead (accepts_range h hcs))
  refine Rejects.keyword ?_
  simp only [text, String.toList_append, List.append_assoc] at hcs
  rw [hcs]
  cases r.minInclusive <;> rfl

end Interval

/-! ## Counts -/

/-- A count is written as a value. -/
theorem count_isValue (n : Nat) : IsValue (toString n).toList (.number, toString n) := by
  have hnumber := (toString_isNumber n).isValue
  rwa [String.ofList_toList] at hnumber

/-- What a count is compared with. -/
def countValue : PartRule := .choice [range, .number]

/-- A count is written as what a count is compared with. -/
theorem accepts_count {n : Nat} (hcs : Text.dropBlanks cs = (toString n).toList ++ rest)
    (hrest : EndsNumber rest) : Accepts Part.body countValue cs rest [(.number, toString n)] := by
  obtain ⟨c, more, htext, hc⟩ := (toString_isNumber n).first
  have hall : ("-0123456789".toList.all fun c =>
      !mayBegin (namesMayBegin Part.body 1) range (some c)) = true := by decide
  have hrange : mayBegin (namesMayBegin Part.body 1) range (some c) = false := by
    simpa using List.all_eq_true.mp hall c hc
  have hfront : front cs = some c := by
    rw [front, hcs, htext]
    rfl
  have haccept : Accepts Part.body .number cs rest [(.number, String.ofList (toString n).toList)] :=
    Accepts.number hcs (toString_isNumber n) hrest
  rw [String.ofList_toList] at haccept
  exact Accepts.choiceTail (rejects_of_front 1 hfront hrange) (Accepts.choiceHead haccept)

end LinkQuery
