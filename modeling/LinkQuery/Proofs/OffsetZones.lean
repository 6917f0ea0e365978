import LinkQuery.Proofs.Layout
import LinkQuery.Proofs.Numerals
import LinkQuery.Settings
import Mathlib.Data.List.Basic
/-!
# Written offsets

An offset zone is written as a name of UTC or none, white space, a sign, one or two digits of hours,
and two digits of minutes, if there are any, with a colon in front of them or not. The digits may be
those of any script, but only ASCII digits count: an hour or minute with another digit in it is
zero, so that `+٣` is read as UTC.

Main statements:
- `Zone.offset?_eq_some_iff`: the texts that are read as offsets, and the offsets they are read as.
- `Zone.offset_zones_read`: which texts are fixed zones, whatever names a database has, and that
  they mean what they say if they are written in ASCII digits.
- `Zone.foreign_digits_read`: digits of another script are not refused.
-/
namespace LinkQuery.Time.Zone

/-! ## The parts of an offset -/

/-- Hours and perhaps minutes, in digits of any script. -/
structure ClockForm where
  hours : List Char
  hasColon : Bool
  minutes : List Char
  hours_length : hours.length = 1 ∨ hours.length = 2
  minutes_length : minutes.length = 2 ∨ hasColon = false ∧ minutes = []
  hours_digits : ∀ c ∈ hours, Text.isAnyDigit c = true
  minutes_digits : ∀ c ∈ minutes, Text.isAnyDigit c = true

namespace ClockForm

/-- The characters of hours and minutes. -/
def chars (form : ClockForm) : List Char :=
  form.hours ++ ((if form.hasColon then [':'] else []) ++ form.minutes)

/-- Hours and minutes are written in ASCII digits. -/
def IsAscii (form : ClockForm) : Prop :=
  (∀ c ∈ form.hours, c.isDigit = true) ∧ ∀ c ∈ form.minutes, c.isDigit = true

end ClockForm

/-- A written offset: a name of UTC or none, white space, a sign, and hours and minutes. -/
structure OffsetForm where
  utc : List Char
  blanks : List Char
  isEast : Bool
  clock : ClockForm
  utc_name : utc = [] ∨ utc.map Char.toUpper = ['G', 'M', 'T'] ∨
    utc.map Char.toUpper = ['U', 'T', 'C']
  blanks_blank : ∀ c ∈ blanks, Text.isBlank c = true

namespace OffsetForm

/-- The characters of an offset. -/
def chars (form : OffsetForm) : List Char :=
  form.utc ++ (form.blanks ++ (if form.isEast then '+' else '-') :: form.clock.chars)

/-- The seconds of so many hours and minutes in the direction of the sign. -/
def seconds (form : OffsetForm) (hours minutes : Nat) : Int :=
  (if form.isEast then 1 else -1) * ((hours * 3600 + minutes * 60 : Nat) : Int)

end OffsetForm

/-! ## Digits -/

/-- What digits count for: the number that they write in ASCII, and nothing if a digit of another
script is among them. -/
def counted (digits : List Char) : Nat :=
  if digits.all Char.isDigit then Text.digitsValue digits else 0

theorem counted_of_ascii {digits : List Char} (h : ∀ c ∈ digits, c.isDigit = true) :
    counted digits = Text.digitsValue digits :=
  if_pos (List.all_eq_true.mpr h)

theorem asciiValue_eq_counted (digits : List Char) : asciiValue digits = counted digits := by
  unfold asciiValue counted
  by_cases hnil : digits = []
  · rw [hnil]
    rfl
  · by_cases hascii : digits.all Char.isDigit = true
    · rw [Text.digits?_digits hnil (List.all_eq_true.mp hascii), if_pos hascii]
      rfl
    · rw [if_neg hascii, Text.digits?, if_neg]
      · rfl
      · rw [Bool.and_eq_true]
        exact fun h => hascii h.2

theorem ne_colon_of_isAnyDigit {c : Char} (h : Text.isAnyDigit c = true) : c ≠ ':' := by
  rintro rfl
  revert h
  decide

/-- The text is an offset of this many seconds, written in ASCII digits. -/
def WritesOffset (name : String) (offset : Int) : Prop :=
  ∃ form : OffsetForm, form.chars = name.toList ∧ form.clock.IsAscii ∧
    Text.digitsValue form.clock.hours ≤ 14 ∧ Text.digitsValue form.clock.minutes < 60 ∧
      offset = form.seconds (Text.digitsValue form.clock.hours)
        (Text.digitsValue form.clock.minutes)

/-- The text is an offset of this many seconds, as its digits count. -/
def CountsAs (name : String) (offset : Int) : Prop :=
  ∃ form : OffsetForm, form.chars = name.toList ∧
    counted form.clock.hours ≤ 14 ∧ counted form.clock.minutes < 60 ∧
      offset = form.seconds (counted form.clock.hours) (counted form.clock.minutes)

/-! ## Hours and minutes -/

theorem splitOffset?_chars (form : ClockForm) :
    splitOffset? form.chars = some (form.hours, form.minutes) := by
  obtain ⟨hours, hasColon, minutes, hhours, hminutes, hdigits, -⟩ := form
  have hsplit : ∀ a b c d : Char, Text.isAnyDigit b = true →
      splitOffset? [a, b, c, d] = some ([a, b], [c, d]) := by
    intro a b c d hb
    have hcolon := ne_colon_of_isAnyDigit hb
    simp [splitOffset?]
  rcases hhours with h | h
  · obtain ⟨a, rfl⟩ := List.length_eq_one_iff.mp h
    rcases hminutes with h | ⟨rfl, rfl⟩
    · obtain ⟨c, d, rfl⟩ := List.length_eq_two.mp h
      cases hasColon <;> rfl
    · rfl
  · obtain ⟨a, b, rfl⟩ := List.length_eq_two.mp h
    rcases hminutes with h | ⟨rfl, rfl⟩
    · obtain ⟨c, d, rfl⟩ := List.length_eq_two.mp h
      cases hasColon with
      | true => rfl
      -- The second digit is no colon.
      | false => exact hsplit a b c d (hdigits b (by simp))
    · rfl

theorem exists_clockForm {cs hours minutes : List Char}
    (h : splitOffset? cs = some (hours, minutes))
    (hhours : ∀ c ∈ hours, Text.isAnyDigit c = true)
    (hminutes : ∀ c ∈ minutes, Text.isAnyDigit c = true) :
    ∃ form : ClockForm, form.chars = cs ∧ form.hours = hours ∧ form.minutes = minutes := by
  unfold splitOffset? at h
  split at h
  · cases h
    exact ⟨⟨_, false, _, .inl rfl, .inr ⟨rfl, rfl⟩, hhours, hminutes⟩, rfl, rfl, rfl⟩
  · cases h
    exact ⟨⟨_, false, _, .inr rfl, .inr ⟨rfl, rfl⟩, hhours, hminutes⟩, rfl, rfl, rfl⟩
  · cases h
    exact ⟨⟨_, true, _, .inl rfl, .inl rfl, hhours, hminutes⟩, rfl, rfl, rfl⟩
  · cases h
    exact ⟨⟨_, false, _, .inl rfl, .inl rfl, hhours, hminutes⟩, rfl, rfl, rfl⟩
  · cases h
    exact ⟨⟨_, false, _, .inr rfl, .inl rfl, hhours, hminutes⟩, rfl, rfl, rfl⟩
  · cases h
    exact ⟨⟨_, true, _, .inr rfl, .inl rfl, hhours, hminutes⟩, rfl, rfl, rfl⟩
  · cases h

/-- What follows the sign of an offset is read as the hours and minutes that it is made of. -/
theorem offsetSeconds?_eq_some_iff {cs : List Char} {n : Nat} :
    offsetSeconds? cs = some n ↔ ∃ form : ClockForm, form.chars = cs ∧
      counted form.hours ≤ 14 ∧ counted form.minutes < 60 ∧
        n = counted form.hours * 3600 + counted form.minutes * 60 := by
  constructor
  · intro h
    obtain ⟨⟨hours, minutes⟩, hsplit, hread⟩ := Option.bind_eq_some_iff.mp h
    obtain ⟨hbounds, hread⟩ := Option.ite_none_right_eq_some.mp hread
    simp only [Bool.and_eq_true, List.all_eq_true, decide_eq_true_eq,
      asciiValue_eq_counted] at hbounds hread
    obtain ⟨⟨⟨hhours, hminutes⟩, hhour⟩, hminute⟩ := hbounds
    obtain ⟨form, hchars, rfl, rfl⟩ := exists_clockForm hsplit hhours hminutes
    exact ⟨form, hchars, hhour, hminute, (Option.some.inj hread).symm⟩
  · rintro ⟨form, rfl, hhour, hminute, rfl⟩
    have hdigits :
        (form.hours.all Text.isAnyDigit && form.minutes.all Text.isAnyDigit) = true := by
      rw [List.all_eq_true.mpr form.hours_digits, List.all_eq_true.mpr form.minutes_digits]
      rfl
    simp only [offsetSeconds?, splitOffset?_chars, Option.bind_eq_bind, Option.bind_some, hdigits,
      asciiValue_eq_counted, hhour, hminute, decide_true, Bool.and_true, if_true]

/-! ## Offsets -/

theorem dropUtcName_of_name {utc : List Char} (cs : List Char)
    (h : utc.map Char.toUpper = ['G', 'M', 'T'] ∨ utc.map Char.toUpper = ['U', 'T', 'C']) :
    dropUtcName (utc ++ cs) = cs := by
  have hlength : utc.length = 3 := by
    rw [← List.length_map Char.toUpper]
    rcases h with h | h <;> rw [h] <;> rfl
  simp only [dropUtcName, List.take_left' hlength, List.drop_left' hlength]
  rcases h with h | h <;> rw [h] <;> rfl

/-- A name of UTC begins with a letter. -/
theorem dropUtcName_of_front {c : Char} {cs : List Char} (h : Text.isNameChar c = false) :
    dropUtcName (c :: cs) = c :: cs := by
  have hupper : c.toUpper.isUpper = false := by
    rw [← Bool.not_eq_true]
    intro hletter
    rw [Text.isNameChar_of_upper hletter] at h
    cases h
  have hne : ∀ first : Char, first.isUpper = true → c.toUpper ≠ first := by
    rintro first hfirst rfl
    rw [hfirst] at hupper
    cases hupper
  have hg := hne 'G' (by decide)
  have hu := hne 'U' (by decide)
  simp [dropUtcName, hg, hu]

/-- The name of UTC is taken off an offset, and nothing else. -/
theorem dropUtcName_chars (form : OffsetForm) : dropUtcName form.chars =
    form.blanks ++ (if form.isEast then '+' else '-') :: form.clock.chars := by
  unfold OffsetForm.chars
  rcases form.utc_name with h | h
  · rw [h, List.nil_append]
    cases hblanks : form.blanks with
    | nil => cases form.isEast <;> exact dropUtcName_of_front (by decide)
    | cons c blanks =>
      refine dropUtcName_of_front ?_
      rw [← Bool.not_eq_true]
      intro hname
      have hblank := form.blanks_blank c (by simp [hblanks])
      rw [Text.isBlank_of_isNameChar hname] at hblank
      cases hblank
  · exact dropUtcName_of_name _ h

/-- The sign of an offset stands behind a name of UTC and white space. -/
theorem dropBlanks_chars (form : OffsetForm) : Text.dropBlanks (dropUtcName form.chars) =
    (if form.isEast then '+' else '-') :: form.clock.chars := by
  rw [dropUtcName_chars, Text.dropBlanks, List.dropWhile_append_of_pos form.blanks_blank]
  cases form.isEast <;> rfl

theorem dropUtcName_splits (cs : List Char) : ∃ utc, (utc = [] ∨
    utc.map Char.toUpper = ['G', 'M', 'T'] ∨ utc.map Char.toUpper = ['U', 'T', 'C']) ∧
      cs = utc ++ dropUtcName cs := by
  simp only [dropUtcName]
  split
  · rename_i hname
    simp only [Bool.or_eq_true, beq_iff_eq] at hname
    exact ⟨cs.take 3, .inr hname, (List.take_append_drop 3 cs).symm⟩
  · exact ⟨[], .inl rfl, rfl⟩

/-- A sign behind a name of UTC and white space, with hours and minutes behind it, is an offset. -/
theorem exists_offsetForm {cs : List Char} (isEast : Bool) (clock : ClockForm)
    (h : Text.dropBlanks (dropUtcName cs) = (if isEast then '+' else '-') :: clock.chars) :
    ∃ form : OffsetForm, form.chars = cs ∧ form.isEast = isEast ∧ form.clock = clock := by
  obtain ⟨utc, hname, hcs⟩ := dropUtcName_splits cs
  have hblanks : (dropUtcName cs).takeWhile Text.isBlank ++
      (if isEast then '+' else '-') :: clock.chars = dropUtcName cs := by
    rw [← h]
    exact List.takeWhile_append_dropWhile
  refine ⟨⟨utc, (dropUtcName cs).takeWhile Text.isBlank, isEast, clock, hname,
    List.all_eq_true.mp List.all_takeWhile⟩, ?_, rfl, rfl⟩
  rw [OffsetForm.chars, hblanks, ← hcs]

theorem offset?_of_sign {name : String} {cs : List Char} (isEast : Bool)
    (h : Text.dropBlanks (dropUtcName name.toList) = (if isEast then '+' else '-') :: cs) :
    offset? name = (offsetSeconds? cs).map fun n : Nat =>
      (if isEast then 1 else -1) * (n : Int) := by
  unfold offset?
  rw [h]
  cases isEast <;> cases hn : offsetSeconds? cs <;> simp [hn]

theorem exists_sign_of_offset? {name : String} {offset : Int} (h : offset? name = some offset) :
    ∃ (isEast : Bool) (cs : List Char),
      Text.dropBlanks (dropUtcName name.toList) = (if isEast then '+' else '-') :: cs := by
  unfold offset? at h
  split at h
  · exact ⟨true, _, ‹_›⟩
  · exact ⟨false, _, ‹_›⟩
  · cases h

/-- What is read as an offset is a written offset of at most 14 hours and fewer than 60 minutes,
as its digits count, and it is read as the seconds that they make. -/
theorem offset?_eq_some_iff {name : String} {offset : Int} :
    offset? name = some offset ↔ CountsAs name offset := by
  constructor
  · intro h
    obtain ⟨isEast, cs, hsign⟩ := exists_sign_of_offset? h
    rw [offset?_of_sign isEast hsign] at h
    obtain ⟨n, hn, rfl⟩ := Option.map_eq_some_iff.mp h
    obtain ⟨clock, rfl, hhour, hminute, rfl⟩ := offsetSeconds?_eq_some_iff.mp hn
    obtain ⟨form, hchars, rfl, rfl⟩ := exists_offsetForm isEast clock hsign
    exact ⟨form, hchars, hhour, hminute, rfl⟩
  · rintro ⟨form, hchars, hhour, hminute, rfl⟩
    have hread := offsetSeconds?_eq_some_iff.mpr ⟨form.clock, rfl, hhour, hminute, rfl⟩
    have hsign := dropBlanks_chars form
    rw [hchars] at hsign
    rw [offset?_of_sign form.isEast hsign, hread]
    rfl

/-! ## Zones -/

/-- The names of UTC that are no offsets. -/
def IsUtcName (name : String) : Prop :=
  name.toUpper = "UTC" ∨ name.toUpper = "GMT" ∨ name = "Z"

theorem isUtcName_iff (name : String) : isUtcName name = true ↔ IsUtcName name := by
  simp [isUtcName, IsUtcName, or_assoc]

/-- A name of UTC has no sign. -/
theorem offset?_of_utc {name : String} (h : IsUtcName name) : offset? name = none := by
  have hletters : ∀ letters : List Char, letters = ['G', 'M', 'T'] ∨ letters = ['U', 'T', 'C'] →
      name.toUpper = String.ofList letters → offset? name = none := by
    intro letters hname hupper
    have hchars : name.toList.map Char.toUpper = letters := by
      rw [String.toUpper, String.map_eq_internal, String.ofList_inj] at hupper
      exact hupper
    rw [← hchars] at hname
    have hdrop := dropUtcName_of_name [] hname
    rw [List.append_nil] at hdrop
    unfold offset?
    rw [hdrop]
    rfl
  rcases h with h | h | rfl
  · exact hletters _ (.inr rfl) h
  · exact hletters _ (.inl rfl) h
  · decide +kernel

section Database

variable {N : Type} (database : String → Option N) (text : String)

theorem ofTextIn_utc (h : IsUtcName (Text.trim text)) : ofTextIn database text = some (.fixed 0) :=
  if_pos ((isUtcName_iff _).mpr h)

theorem ofTextIn_of_not_utc (h : ¬ IsUtcName (Text.trim text)) : ofTextIn database text =
    ((offset? (Text.trim text)).map .fixed).or ((database (Text.trim text)).map .named) := by
  have hname : isUtcName (Text.trim text) = false := by
    rw [← Bool.not_eq_true, isUtcName_iff]
    exact h
  simp only [ofTextIn, hname, Bool.false_eq_true, if_false]
  cases offset? (Text.trim text) <;> rfl

/-- A zone is fixed exactly where its text is a name of UTC or an offset. -/
theorem ofTextIn_fixed_iff (offset : Int) : ofTextIn database text = some (.fixed offset) ↔
    IsUtcName (Text.trim text) ∧ offset = 0 ∨ CountsAs (Text.trim text) offset := by
  by_cases hname : IsUtcName (Text.trim text)
  · rw [ofTextIn_utc database text hname, ← offset?_eq_some_iff, offset?_of_utc hname]
    simp [hname, eq_comm]
  · rw [ofTextIn_of_not_utc database text hname, ← offset?_eq_some_iff]
    cases offset? (Text.trim text) with
    | some found => simp [hname]
    | none => simp [hname]

theorem ofTextIn_of_not_fixed (h : ∀ offset, ofTextIn database text ≠ some (.fixed offset)) :
    ofTextIn database text = (database (Text.trim text)).map .named := by
  have hname : ¬ IsUtcName (Text.trim text) := fun hname => h 0 (ofTextIn_utc database text hname)
  have hsplit := ofTextIn_of_not_utc database text hname
  cases hoffset : offset? (Text.trim text) with
  | none => rw [hsplit, hoffset, Option.map_none, Option.none_or]
  | some found =>
    refine absurd ?_ (h found)
    rw [hsplit, hoffset]
    rfl

end Database

/-- An offset in ASCII digits counts as what it says. -/
theorem WritesOffset.countsAs {name : String} {offset : Int} (h : WritesOffset name offset) :
    CountsAs name offset := by
  obtain ⟨form, hchars, ⟨hhours, hminutes⟩, hhour, hminute, rfl⟩ := h
  refine ⟨form, hchars, ?_, ?_, ?_⟩
  · rwa [counted_of_ascii hhours]
  · rwa [counted_of_ascii hminutes]
  · rw [counted_of_ascii hhours, counted_of_ascii hminutes]

/-- An offset without digits of other scripts says what it counts as. -/
theorem CountsAs.writesOffset {name : String} {offset : Int} (h : CountsAs name offset)
    (hascii : ∀ c ∈ name.toList, Text.isAnyDigit c = true → c.isDigit = true) :
    WritesOffset name offset := by
  obtain ⟨form, hchars, hhour, hminute, rfl⟩ := h
  have hhours : ∀ c ∈ form.clock.hours, c.isDigit = true := by
    intro c hc
    refine hascii c ?_ (form.clock.hours_digits c hc)
    rw [← hchars]
    simp [OffsetForm.chars, ClockForm.chars, hc]
  have hminutes : ∀ c ∈ form.clock.minutes, c.isDigit = true := by
    intro c hc
    refine hascii c ?_ (form.clock.minutes_digits c hc)
    rw [← hchars]
    simp [OffsetForm.chars, ClockForm.chars, hc]
  rw [counted_of_ascii hhours] at hhour ⊢
  rw [counted_of_ascii hminutes] at hminute ⊢
  exact ⟨form, hchars, ⟨hhours, hminutes⟩, hhour, hminute, rfl⟩

/-- A zone is fixed exactly where its text is a name of UTC or a written offset as its digits count.
So every offset in ASCII digits is read as what it says, and a text without digits of other scripts
is read as an offset only if it says so. Texts that are no fixed zones are names of the database or
refused. -/
theorem offset_zones_read {N : Type} (database : String → Option N) (text : String) :
    (∀ offset, ofTextIn database text = some (.fixed offset) ↔
      IsUtcName (Text.trim text) ∧ offset = 0 ∨ CountsAs (Text.trim text) offset) ∧
    (∀ offset, IsUtcName (Text.trim text) ∧ offset = 0 ∨ WritesOffset (Text.trim text) offset →
      ofTextIn database text = some (.fixed offset)) ∧
    (∀ offset, ofTextIn database text = some (.fixed offset) →
      (∀ c ∈ (Text.trim text).toList, Text.isAnyDigit c = true → c.isDigit = true) →
        IsUtcName (Text.trim text) ∧ offset = 0 ∨ WritesOffset (Text.trim text) offset) ∧
    ((∀ offset, ofTextIn database text ≠ some (.fixed offset)) →
      ofTextIn database text = (database (Text.trim text)).map .named) ∧
    (ofTextIn named? text = none → Settings.zoneNamed text = invalid (.unknownZone text)) := by
  have hfixed := fun offset => ofTextIn_fixed_iff database text offset
  refine ⟨hfixed, ?_, ?_, ofTextIn_of_not_fixed database text, ?_⟩
  · intro offset h
    exact (hfixed offset).mpr (h.imp_right WritesOffset.countsAs)
  · intro offset h hascii
    exact ((hfixed offset).mp h).imp_right fun hcounts => hcounts.writesOffset hascii
  · intro h
    simp only [Settings.zoneNamed, ofText?, h]

/-- Five hours and a half to the west, with a name of UTC in small letters. -/
def westOfGreenwich : OffsetForm where
  utc := ['g', 'm', 't']
  blanks := []
  isEast := false
  clock := ⟨['0', '5'], true, ['3', '0'], .inr rfl, .inl rfl, List.all_eq_true.mp rfl,
    List.all_eq_true.mp rfl⟩
  utc_name := .inr (.inl (by decide))
  blanks_blank := nofun

/-- An offset in ASCII digits is read, and a place that no database knows is refused. -/
theorem offset_zones_read_west :
    WritesOffset (Text.trim " gmt-05:30 ") (-19800) ∧
      ofTextIn named? " gmt-05:30 " = some (.fixed (-19800)) ∧
      (∀ offset, ofTextIn named? "Mars/Olympus" ≠ some (.fixed offset)) ∧
      Settings.zoneNamed "Mars/Olympus" = invalid (.unknownZone "Mars/Olympus") := by
  have hwrites : WritesOffset (Text.trim " gmt-05:30 ") (-19800) :=
    ⟨westOfGreenwich, by decide +kernel, ⟨List.all_eq_true.mp rfl, List.all_eq_true.mp rfl⟩,
      by decide, by decide, by decide⟩
  have hunknown : ofTextIn named? "Mars/Olympus" = none := by decide +kernel
  exact ⟨hwrites, (offset_zones_read named? " gmt-05:30 ").2.1 _ (.inr hwrites),
    fun offset => by rw [hunknown]; nofun,
    (offset_zones_read named? "Mars/Olympus").2.2.2.2 hunknown⟩

/-- The Arabic digit three counts for nothing, so that the text is read as UTC. -/
theorem foreign_digits_read : ¬ ∀ (text : String) (offset : Int),
    ofText? text = some (.fixed offset) →
      IsUtcName (Text.trim text) ∧ offset = 0 ∨ WritesOffset (Text.trim text) offset := by
  intro h
  have htrim : Text.trim "+٣" = "+٣" := by decide +kernel
  have hread : ofText? "+٣" = some (.fixed 0) := by decide +kernel
  rcases h "+٣" 0 hread with ⟨hname, -⟩ | ⟨form, hchars, hascii, -⟩
  · rw [htrim, ← isUtcName_iff] at hname
    exact absurd hname (by decide +kernel)
  · have hsign := dropBlanks_chars form
    rw [hchars, htrim] at hsign
    have hshown : Text.dropBlanks (dropUtcName "+٣".toList) = ['+', '٣'] := by decide +kernel
    rw [hshown] at hsign
    have hclock : form.clock.chars = ['٣'] := (List.cons.inj hsign).2.symm
    have hsplit := splitOffset?_chars form.clock
    rw [hclock] at hsplit
    have hhours : ['٣'] = form.clock.hours := congrArg Prod.fst (Option.some.inj hsplit)
    have hdigit := hascii.1 '٣' (by rw [← hhours]; exact List.mem_singleton_self _)
    exact absurd hdigit (by decide)

end LinkQuery.Time.Zone
