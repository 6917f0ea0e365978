import LinkQuery.Proofs.Numerals
import LinkQuery.Proofs.SpokenLogs
import LinkQuery.Proofs.TermPhrases
import LinkQuery.Proofs.Terms
import LinkQuery.Proofs.Timestamps
/-!
# Values that are read again

The text of a literal is read as a value that becomes the same literal for the type of its field.
So are the bounds of an interval, and counts. What follows a path is read again with it.

Main statements:
- `Literal.literalOf_written`, `Interval.mapM_map`: literals and intervals come back.
- `Rule.Spoken.literal`, `Rule.Spoken.interval`, `Rule.CountSpoken.exactly`: tests come back.
-/
namespace LinkQuery

open Rule Element ElementReader
open Time (Timestamp Zone)

/-! ## Instants -/

namespace Clock

variable {clock : Clock}

end Clock

namespace Literal

/-- What the text of a literal is read as. -/
def written : Literal → RawValue
  | .text value => .text value
  | .number value => .number value.text
  | .boolean value => .text (if value then "true" else "false")
  | .timestamp value => .text value.text

/-- The literal is no timestamp outside of the years 0 to 9999. -/
def InFourDigits : Literal → Prop
  | .timestamp value => value.InFourDigits
  | _ => True

theorem startOf_lexeme (value : Literal) :
    Value.startOf (Value.token value.lexeme) = .raw value.written := by
  cases value <;> rfl

variable {value : Literal} {field : String}

/-- A literal of a type is read again from its text. -/
theorem ofRaw?_written {type : ScalarType} (h : value.Fits Time.Timestamp.IsProper (some type))
    (hyear : value.InFourDigits) : ofRaw? value.written type = some value := by
  obtain ⟨raw, hgood, hraw⟩ := h
  have hdecimal : ∀ d : Decimal, d.Fits → decimal? (.number d.text) = some d := by
    intro d hd
    rw [decimal?, Decimal.trim_text, Decimal.ofText?_text hd]
  have hfits : ∀ d : Decimal, decimal? raw = some d → d.Fits := by
    intro d hd
    cases raw with
    | text text | number text =>
      rw [decimal?] at hd
      exact Decimal.ofText?_fits hd
    | instant t => cases hd
  cases type with
  | text | binary =>
    obtain rfl := Option.some.inj hraw
    rfl
  | integer =>
    obtain ⟨n, hn, hwhole⟩ := Option.bind_eq_some_iff.mp hraw
    obtain ⟨-, hwhole⟩ := Option.ite_none_right_eq_some.mp hwhole
    obtain rfl := Option.some.inj hwhole
    obtain ⟨hisWhole, htruncate⟩ := Decimal.whole_of_scale (d := n.truncate) rfl
    rw [written, ofRaw?, hdecimal _ (Decimal.truncate_fits (hfits n hn)), Option.bind_some,
      hisWhole, if_pos rfl, htruncate]
  | float =>
    obtain ⟨d, hd, rfl⟩ := Option.map_eq_some_iff.mp hraw
    rw [written, ofRaw?, hdecimal d (hfits d hd)]
    rfl
  | boolean =>
    obtain ⟨b, -, rfl⟩ := Option.map_eq_some_iff.mp hraw
    have htruth : truth? (if b then "true" else "false") = some b := by
      cases b <;> decide +kernel
    rw [written, ofRaw?, RawValue.asText, htruth]
    rfl
  | timestamp =>
    obtain ⟨t, ht, rfl⟩ := Option.map_eq_some_iff.mp hraw
    have hproper : t.IsProper := by
      cases raw with
      | text text => exact Time.Timestamp.ofText?_proper ht
      | number text => cases ht
      | instant found =>
        obtain rfl := Option.some.inj ht
        exact hgood
    rw [written, ofRaw?, timestamp?, Time.Timestamp.ofText?_text hproper hyear]
    rfl

/-- So is a text where there is no type. -/
theorem literalOf_written {type : Option ScalarType}
    (h : value.Fits Time.Timestamp.IsProper type) (hyear : value.InFourDigits) :
    Filter.literalOf type field value.written = .ok value := by
  cases type with
  | some type => rw [Filter.literalOf, convert, ofRaw?_written h hyear]
  | none =>
    obtain ⟨text, rfl⟩ := h
    rfl

end Literal

/-! ## Intervals -/

namespace Interval

/-- The interval with its bounds changed. -/
def map {α β : Type} (f : α → β) (r : Interval α) : Interval β :=
  ⟨r.min.map f, r.max.map f, r.minInclusive, r.maxInclusive⟩

variable {α β : Type} {r : Interval α} {f : α → β}

/-- Bounds that are converted back. -/
theorem mapM_map {convert : β → Except QueryError α}
    (h : r.Bounds fun bound => convert (f bound) = .ok bound) :
    (r.map f).mapM convert = .ok r := by
  obtain ⟨min, max, minInclusive, maxInclusive⟩ := r
  have hbound : ∀ bound : Option α, (∀ b ∈ bound, convert (f b) = .ok b) →
      (bound.map f).mapM convert = .ok bound := by
    intro bound hbound
    cases bound with
    | none => rfl
    | some b =>
      show some <$> convert (f b) = _
      rw [hbound b rfl]
      rfl
  have hmin := hbound min h.1
  have hmax := hbound max h.2
  unfold map mapM
  dsimp only
  rw [hmin, hmax]
  rfl

end Interval

/-! ## What stands behind a path -/

/-- The lexeme stands for itself in a filter, and it opens and closes no block. -/
def Lexeme.IsPlain (x : Lexeme) : Prop :=
  isPlain (Value.token x) = true ∧ x.1 ≠ .marker .whereStart ∧ x.1 ≠ .marker .whereEnd

/-- Lexemes that stand for themselves add themselves. -/
theorem Lexeme.plain_adds {l : List Lexeme} (h : ∀ x ∈ l, x.IsPlain) :
    Block.Balanced (Lexeme.placed l) ∧
      ∀ calls, Adds .filter calls (Lexeme.placed l) (.ok (elements (Lexeme.placed l))) := by
  refine ⟨Block.balanced_of_flat fun x hx => (h x hx).2, fun calls => Adds.plain fun t ht => ?_⟩
  obtain ⟨x, hx, rfl⟩ := List.mem_map.mp ht
  exact (h x hx).1

theorem CompareOp.isPlain_symbol (op : CompareOp) : Lexeme.IsPlain (.symbol, op.symbol) := by
  cases op <;> exact ⟨rfl, nofun, nofun⟩

theorem Lexeme.isPlain_equals : Lexeme.IsPlain (.symbol, "=") :=
  CompareOp.isPlain_symbol .eq

theorem Literal.isPlain_lexeme (value : Literal) : value.lexeme.IsPlain := by
  cases value <;> exact ⟨rfl, nofun, nofun⟩

/-- The lexemes of an interval stand for themselves when those of its bounds do. -/
theorem Interval.isPlain_lexemes {α : Type} {lexeme : α → Lexeme} (r : Interval α)
    (h : ∀ bound, (lexeme bound).IsPlain) : ∀ x ∈ r.lexemes lexeme, x.IsPlain := by
  obtain ⟨min, max, minInclusive, maxInclusive⟩ := r
  have hbound : ∀ bound : Option α, (boundLexeme lexeme bound).IsPlain := by
    intro bound
    cases bound with
    | none => exact ⟨rfl, nofun, nofun⟩
    | some b => exact h b
  simp only [lexemes, List.mem_cons, List.not_mem_nil, or_false, forall_eq_or_imp, forall_eq]
  refine ⟨?_, hbound min, ⟨rfl, nofun, nofun⟩, hbound max, ?_⟩
  · cases minInclusive <;> exact ⟨rfl, nofun, nofun⟩
  · cases maxInclusive <;> exact ⟨rfl, nofun, nofun⟩

namespace Rule.Spoken

open Filter (Tail)

variable {clock : Clock}

/-- Nothing. -/
theorem nothing : Spoken clock [] [] (.ok .bare) :=
  ⟨Block.Balanced.nil, fun _ => Adds.nil, Tail.reads_bare⟩

/-- The test for existence. -/
theorem present : Spoken clock [(.keyword, "IS"), (.keyword, "NOT"), (.keyword, "NULL")]
    [.token (.ofMarker .isNotNull 0)] (.ok .present) :=
  ⟨Block.balanced_of_flat (by simp), fun _ _ _ => collect_isNotNull 0 0 0, Tail.reads_present⟩

/-- A comparison with a literal. -/
theorem literal (op : CompareOp) (value : Literal) :
    Spoken clock [(.symbol, op.symbol), value.lexeme]
      [.token ⟨.symbol, op.symbol, 0⟩, .token (Value.token value.lexeme)]
      (.ok (.compare op (.raw value.written))) := by
  have hplain := @Lexeme.plain_adds [(.symbol, op.symbol), value.lexeme]
    (by simp [op.isPlain_symbol, value.isPlain_lexeme])
  exact ⟨hplain.1, hplain.2, Tail.reads_compare (Value.reads_raw value.startOf_lexeme)⟩

/-- A comparison with an interval. -/
theorem interval (r : Interval Literal) :
    Spoken clock ((.symbol, "=") :: r.lexemes Literal.lexeme)
      (.token ⟨.symbol, "=", 0⟩ :: elements (Lexeme.placed (r.lexemes Literal.lexeme)))
      (.ok (.compare .eq (.interval (r.map Literal.written)))) := by
  have hplain := @Lexeme.plain_adds ((.symbol, "=") :: r.lexemes Literal.lexeme) (by
    rw [List.forall_mem_cons]
    exact ⟨Lexeme.isPlain_equals, r.isPlain_lexemes Literal.isPlain_lexeme⟩)
  have hbounds : r.Bounds fun b => Value.startOf (Value.token b.lexeme) = .raw b.written :=
    ⟨fun b _ => b.startOf_lexeme, fun b _ => b.startOf_lexeme⟩
  exact ⟨hplain.1, hplain.2, @Tail.reads_compare clock .eq _ _ (Value.reads_interval hbounds)⟩

end Rule.Spoken

/-! ## Counts -/

/-- The lexemes behind a counted path are the same test of the count in all places. -/
structure Rule.CountSpoken (clock : Clock) (l : List Lexeme) (es : List Element)
    (test : Filter.CountTest) : Prop where
  balanced : Block.Balanced (Lexeme.placed l)
  adds : ∀ calls, Adds .filter calls (Lexeme.placed l) (.ok es)
  reads : Reads (Filter.CountTest.read clock) es Filter.Behind (.ok test)

namespace Rule.CountSpoken

open Filter (CountTest)

variable {clock : Clock}

/-- What a count says. -/
def countLexeme (count : Nat) : Lexeme := (.number, toString count)

theorem isPlain_countLexeme (count : Nat) : (countLexeme count).IsPlain :=
  ⟨rfl, nofun, nofun⟩

theorem number_toString {count : Nat} (h : count < Text.bitBound 64) :
    CountTest.number (toString count) = .ok count := by
  rw [CountTest.number, Text.unsigned?_toString h]

/-- A count. -/
theorem exactly {count : Nat} (h : count < Text.bitBound 64) :
    CountSpoken clock [(.symbol, "="), countLexeme count]
      [.token ⟨.symbol, "=", 0⟩, .token (Value.token (countLexeme count))] (.exactly count) := by
  have hplain := @Lexeme.plain_adds [(.symbol, "="), countLexeme count]
    (by simp [Lexeme.isPlain_equals, isPlain_countLexeme])
  refine ⟨hplain.1, hplain.2, ?_⟩
  have hvalue : CountTest.ofValue .eq (.raw (.number (toString count))) = .ok (.exactly count) := by
    rw [CountTest.ofValue, number_toString h]
    rfl
  exact @Filter.CountTest.reads clock .eq _ _ _ (Value.reads_raw rfl) hvalue

/-- An interval of counts. -/
theorem within {r : Interval Nat} (h : r.Bounds (· < Text.bitBound 64)) :
    CountSpoken clock ((.symbol, "=") :: r.lexemes countLexeme)
      (.token ⟨.symbol, "=", 0⟩ :: elements (Lexeme.placed (r.lexemes countLexeme)))
      (.within r) := by
  have hplain := @Lexeme.plain_adds ((.symbol, "=") :: r.lexemes countLexeme) (by
    rw [List.forall_mem_cons]
    exact ⟨Lexeme.isPlain_equals, r.isPlain_lexemes isPlain_countLexeme⟩)
  refine ⟨hplain.1, hplain.2, ?_⟩
  have hbounds : r.Bounds fun b => Value.startOf (Value.token (countLexeme b)) =
      .raw (.number (toString b)) := ⟨fun _ _ => rfl, fun _ _ => rfl⟩
  have hvalue : CountTest.ofValue .eq (.interval (r.map fun b => .number (toString b))) =
      .ok (.within r) := by
    rw [CountTest.ofValue, if_pos rfl, Interval.mapM_map (h.mono fun bound hbound => ?_)]
    · rfl
    · exact number_toString hbound
  exact @Filter.CountTest.reads clock .eq _ _ _ (Value.reads_interval hbounds) hvalue

end Rule.CountSpoken

end LinkQuery
