import LinkQuery.Proofs.Dates
import LinkQuery.Proofs.Numerals
import LinkQuery.Proofs.Refusal
import LinkQuery.Time.Period
import LinkQuery.Time.TimestampText
/-!
# Timestamps as text and back

A timestamp of the years 0 to 9999 is read back from its text, down to its leap seconds. Leap
seconds only ever stand at the end of a minute, and no move on a clock changes that.

Main statements:
- `Timestamp.ofText?_text`: a timestamp with four digits for its year is read back.
- `Timestamp.ofText?_proper`, `Period.resolve_proper`: what is read and what a clock shows is a
  time of day.
-/
namespace LinkQuery.Time

open Text

/-- The timestamp is a time of day, with leap seconds only at the end of a minute. -/
structure Timestamp.IsProper (t : Timestamp) : Prop where
  second : t.second < secondsPerDay
  nano : t.nano < 2 * nanosPerSecond
  leap : nanosPerSecond ≤ t.nano → t.second % 60 = 59

/-- The year of the timestamp has four digits. -/
def Timestamp.InFourDigits (t : Timestamp) : Prop :=
  0 ≤ t.date.year ∧ t.date.year ≤ 9999

/-! ## Reading what is written -/

theorem padded_ne_nil {width n : Nat} (h : 0 < width) : (padded width n).toList ≠ [] := by
  have := length_padded_ge width n
  intro hnil
  rw [hnil, List.length_nil] at this
  omega

namespace Timestamp

/-- A number that is written in some digits is read back. -/
theorem takeDigits?_padded {width n : Nat} (rest : List Char) (hwidth : 0 < width)
    (h : n < 10 ^ width) : takeDigits? width ((padded width n).toList ++ rest) = some (n, rest) := by
  have hlength := length_padded hwidth h
  have hall : (padded width n).toList.all Char.isDigit = true :=
    List.all_eq_true.mpr fun c hc => isDigit_of_mem_padded hc
  simp only [takeDigits?, List.take_left' hlength, List.drop_left' hlength, hlength, hall,
    decide_true, Bool.and_self, if_true, digitsValue_padded]

theorem takePart?_padded {c : Char} {width n : Nat} (rest : List Char) (hwidth : 0 < width)
    (h : n < 10 ^ width) :
    takePart? c width (c :: ((padded width n).toList ++ rest)) = some (n, rest) := by
  simp only [takePart?, beq_self_eq_true, if_true, takeDigits?_padded rest hwidth h]

/-- A fraction in three, six or nine digits is read back. -/
theorem fraction?_padded {width n : Nat} (hwidth : 1 ≤ width) (hmost : width ≤ 9)
    (h : n < 10 ^ width) :
    fraction? ('.' :: (padded width n).toList) = some (n * 10 ^ (9 - width)) := by
  have hlength := length_padded hwidth h
  have hall : (padded width n).toList.all Char.isDigit = true :=
    List.all_eq_true.mpr fun c hc => isDigit_of_mem_padded hc
  simp [fraction?, hlength, hall, hwidth, hmost, digitsValue_padded, powerOfTen]

/-- The fraction of a second is read back. -/
theorem fraction?_fractionText {nano : Nat} (h : nano < nanosPerSecond) :
    fraction? (fractionText nano).toList = some nano := by
  have hpoint : ∀ text : String, ("." ++ text).toList = '.' :: text.toList := fun text => by simp
  unfold nanosPerSecond at h
  unfold fractionText
  split
  · rename_i hzero
    rw [hzero]
    rfl
  · split
    · rw [hpoint, fraction?_padded (by decide) (by decide) (by omega)]
      simp only [Option.some.injEq]
      omega
    · split
      · rw [hpoint, fraction?_padded (by decide) (by decide) (by omega)]
        simp only [Option.some.injEq]
        omega
      · rw [hpoint, fraction?_padded (by decide) (by decide) (by omega)]
        simp

/-- The text of a timestamp, part by part. -/
theorem toList_text {t : Timestamp} (h : t.InFourDigits) : t.text.toList =
    (padded 4 t.date.year.toNat).toList ++ '-' :: ((padded 2 t.date.month).toList ++
      '-' :: ((padded 2 t.date.day).toList ++ ' ' :: ((padded 2 t.hour).toList ++
        ':' :: ((padded 2 t.minute).toList ++
          ':' :: ((padded 2 (t.second % 60 + t.nano / nanosPerSecond)).toList ++
            (fractionText (t.nano % nanosPerSecond)).toList))))) := by
  have hyear : yearText t.date.year = padded 4 t.date.year.toNat := by
    simp [yearText, h.1, h.2]
  simp [text, dateText, clockText, hyear]

/-- The parts of a timestamp are put together again. -/
theorem ofParts?_date {t : Timestamp} (hproper : t.IsProper) (h : t.InFourDigits) :
    ofParts? (t.date.year.toNat : Int) t.date.month t.date.day t.hour t.minute
      (t.second % 60 + t.nano / nanosPerSecond) (t.nano % nanosPerSecond) = some t := by
  obtain ⟨hmonth, hday, hfirst, hlast⟩ := Date.ofDayNumber_exists t.day
  have hnumber : t.date.dayNumber = t.day := Date.dayNumber_ofDayNumber t.day
  have hyear : (t.date.year.toNat : Int) = t.date.year := Int.toNat_of_nonneg h.1
  have hlow := h.1
  have hhigh := h.2
  have hvalid : t.date.isValid = true := by
    have hfirstYear : Date.firstYear ≤ t.date.year := Int.le_trans (by decide) hlow
    have hlastYear : t.date.year ≤ Date.lastYear := Int.le_trans hhigh (by decide)
    simp only [Date.isValid, Bool.and_eq_true, decide_eq_true_eq]
    exact ⟨⟨⟨hfirstYear, hlastYear⟩, hfirst⟩, hlast⟩
  have hsecond := hproper.second
  have hnano := hproper.nano
  have hleap := hproper.leap
  simp only [secondsPerDay, nanosPerSecond] at hsecond hnano hleap
  have hhour : t.hour < 24 := by
    unfold hour
    omega
  have hminute : t.minute < 60 := by
    unfold minute
    omega
  have hclock : t.hour * 3600 + t.minute * 60 + t.second % 60 = t.second := by
    unfold hour minute
    omega
  have hmost : t.second % 60 + t.nano / nanosPerSecond ≤ 60 := by
    unfold nanosPerSecond
    omega
  have hrest : t.nano % nanosPerSecond < nanosPerSecond := by
    unfold nanosPerSecond
    omega
  rw [hyear]
  have hdate : (⟨t.date.year, t.date.month, t.date.day⟩ : Date) = t.date := rfl
  simp only [ofParts?, hdate, hvalid, hhour, hminute, hmost, hrest, decide_true, Bool.and_self,
    if_true, hnumber]
  obtain ⟨day, second, nano⟩ := t
  dsimp only at *
  unfold nanosPerSecond at *
  split
  · simp only [Option.some.injEq, mk.injEq, true_and]
    constructor <;> omega
  · simp only [Option.some.injEq, mk.injEq, true_and]
    constructor <;> omega

/-- A written fraction ends in a digit, if there is one. -/
theorem fractionText_ends (nano : Nat) : fractionText nano = "" ∨
    ∃ front width n, 0 < width ∧ (fractionText nano).toList = front ++ (padded width n).toList := by
  have hpoint : ∀ text : String, ("." ++ text).toList = ['.'] ++ text.toList := fun text => by simp
  unfold fractionText
  split
  · exact Or.inl rfl
  · split
    · exact Or.inr ⟨['.'], 3, _, by decide, hpoint _⟩
    · split
      · exact Or.inr ⟨['.'], 6, _, by decide, hpoint _⟩
      · exact Or.inr ⟨['.'], 9, _, by decide, hpoint _⟩

/-- The text of a timestamp begins and ends with a digit. -/
theorem trim_text {t : Timestamp} (h : t.InFourDigits) : Text.trim t.text = t.text := by
  have hdigit : ∀ (width n : Nat) (c : Char), c ∈ (padded width n).toList → isBlank c = false :=
    fun width n c hc => isBlank_of_isDigit (isDigit_of_mem_padded hc)
  have hends : ∃ front width n, 0 < width ∧ t.text.toList = front ++ (padded width n).toList := by
    obtain ⟨before, hbefore⟩ : ∃ before, t.text.toList = before ++
        ((padded 2 (t.second % 60 + t.nano / nanosPerSecond)).toList ++
          (fractionText (t.nano % nanosPerSecond)).toList) :=
      ⟨t.dateText.toList ++ ' ' :: ((padded 2 t.hour).toList ++ ':' ::
        ((padded 2 t.minute).toList ++ [':'])), by simp [text, clockText]⟩
    rcases fractionText_ends (t.nano % nanosPerSecond) with hnone | ⟨front, width, n, hwidth, hsome⟩
    · refine ⟨before, 2, t.second % 60 + t.nano / nanosPerSecond, by decide, ?_⟩
      rw [hbefore, hnone, String.toList_empty, List.append_nil]
    · refine ⟨before ++ ((padded 2 (t.second % 60 + t.nano / nanosPerSecond)).toList ++ front),
        width, n, hwidth, ?_⟩
      rw [hbefore, hsome]
      simp only [List.append_assoc]
  refine trim_of_ends (fun c hc => ?_) fun c hc => ?_
  · obtain ⟨first, more, hyear⟩ := List.exists_cons_of_ne_nil
      (@padded_ne_nil 4 t.date.year.toNat (by decide))
    rw [toList_text h, hyear, List.cons_append, List.head?_cons] at hc
    obtain rfl := Option.some.inj hc
    exact hdigit 4 t.date.year.toNat first (by rw [hyear]; exact List.mem_cons_self)
  · obtain ⟨front, width, n, hwidth, htext⟩ := hends
    obtain ⟨last, hlast⟩ : ∃ last, (padded width n).toList.getLast? = some last :=
      Option.isSome_iff_exists.mp (by simpa using padded_ne_nil (n := n) hwidth)
    rw [htext, List.getLast?_append, hlast, Option.some_or] at hc
    obtain rfl := Option.some.inj hc
    exact hdigit width n last (List.mem_of_mem_getLast? hlast)

/-- A timestamp of the years 0 to 9999 is read back from its text. -/
theorem ofText?_text {t : Timestamp} (hproper : t.IsProper) (h : t.InFourDigits) :
    ofText? t.text = some t := by
  obtain ⟨hmonth, hday, -, -⟩ := Date.ofDayNumber_exists t.day
  have hsecond := hproper.second
  have hnano := hproper.nano
  have hleap := hproper.leap
  have hlow := h.1
  have hhigh := h.2
  have hpart : ∀ n, n < 100 → n < 10 ^ 2 := fun n hn => hn
  simp only [secondsPerDay, nanosPerSecond] at hsecond hnano hleap
  rw [ofText?, trim_text h, toList_text h]
  have hyear : t.date.year.toNat < 10 ^ 4 := by
    have : (10 : Nat) ^ 4 = 10000 := rfl
    omega
  simp only [scan?, takeDigits?_padded _ (by decide : 0 < 4) hyear, Option.bind_eq_bind,
    Option.bind_some, List.isEmpty_cons, Bool.false_eq_true, if_false]
  rw [takePart?_padded _ (by decide) (hpart _ (by show (Date.ofDayNumber t.day).month < 100; omega))]
  simp only [Option.bind_some, List.isEmpty_cons, Bool.false_eq_true, if_false]
  rw [takePart?_padded _ (by decide) (hpart _ (by show (Date.ofDayNumber t.day).day < 100; omega))]
  simp only [Option.bind_some, clock?, beq_self_eq_true, Bool.true_or, if_true]
  rw [takeDigits?_padded _ (by decide) (hpart _ (by unfold hour; omega))]
  simp only [Option.bind_eq_bind, Option.bind_some]
  rw [takePart?_padded _ (by decide) (hpart _ (by unfold minute; omega))]
  simp only [Option.bind_some, List.isEmpty_cons, Bool.false_eq_true, if_false]
  rw [takePart?_padded _ (by decide) (hpart _ (by unfold nanosPerSecond; omega))]
  simp only [Option.bind_some]
  rw [fraction?_fractionText (by unfold nanosPerSecond; omega)]
  exact ofParts?_date hproper h

/-! ## Proper times of day -/

/-- A timestamp that is read is a time of day. -/
theorem ofParts?_proper {year : Int} {month day hour minute second nano : Nat} {t : Timestamp}
    (h : ofParts? year month day hour minute second nano = some t) : t.IsProper := by
  simp only [ofParts?] at h
  split at h
  · rename_i hparts
    simp only [Bool.and_eq_true, decide_eq_true_eq] at hparts
    obtain ⟨⟨⟨⟨-, hhour⟩, hminute⟩, hsecond⟩, hnano⟩ := hparts
    unfold nanosPerSecond at hnano h
    split at h <;> obtain rfl := Option.some.inj h <;>
      exact ⟨by unfold secondsPerDay; dsimp only; omega, by unfold nanosPerSecond; dsimp only; omega,
        by unfold nanosPerSecond; dsimp only; omega⟩
  · cases h

/-- A timestamp that is read is put together from its parts. -/
theorem scan?_parts {cs : List Char} {t : Timestamp} (h : scan? cs = some t) :
    ∃ year month day hour minute second nano,
      ofParts? year month day hour minute second nano = some t := by
  simp only [scan?, Option.bind_eq_bind, Option.bind_eq_some_iff] at h
  obtain ⟨year, -, h⟩ := h
  split at h
  · exact ⟨_, _, _, _, _, _, _, h⟩
  · obtain ⟨month, -, h⟩ := Option.bind_eq_some_iff.mp h
    split at h
    · exact ⟨_, _, _, _, _, _, _, h⟩
    · obtain ⟨day, -, h⟩ := Option.bind_eq_some_iff.mp h
      obtain ⟨clock, -, h⟩ := Option.bind_eq_some_iff.mp h
      exact ⟨_, _, _, _, _, _, _, h⟩

/-- A timestamp that is read is a time of day. -/
theorem ofText?_proper {text : String} {t : Timestamp} (h : ofText? text = some t) : t.IsProper := by
  obtain ⟨_, _, _, _, _, _, _, hparts⟩ := scan?_parts h
  exact ofParts?_proper hparts

variable {t : Timestamp}

/-- Moves by whole minutes keep leap seconds at the end of a minute. -/
theorem IsProper.moveSeconds (h : t.IsProper) {seconds : Int}
    (hleap : nanosPerSecond ≤ t.nano → seconds % 60 = 0) : (t.moveSeconds seconds).IsProper := by
  have hend := h.leap
  have hsecond := h.second
  unfold secondsPerDay at hsecond
  refine ⟨?_, h.nano, fun hnano => ?_⟩
  · simp only [Timestamp.moveSeconds, secondsPerDay]
    omega
  · have hminute := hleap hnano
    have hlast := hend hnano
    simp only [Timestamp.moveSeconds, secondsPerDay]
    omega

theorem IsProper.addSeconds (h : t.IsProper) (seconds : Int) : (t.addSeconds seconds).IsProper := by
  have hnano := h.nano
  have hplain : ({ t with nano := t.nano - nanosPerSecond } : Timestamp).IsProper := by
    refine ⟨h.second, ?_, fun hle => ?_⟩
    · dsimp only
      omega
    · dsimp only at hle
      unfold nanosPerSecond at hle hnano
      omega
  have hbelow : ¬ nanosPerSecond ≤ t.nano - nanosPerSecond := by
    unfold nanosPerSecond at hnano ⊢
    omega
  unfold Timestamp.addSeconds
  split
  · exact hplain.moveSeconds fun hle => absurd hle hbelow
  · split
    · exact hplain.moveSeconds fun hle => absurd hle hbelow
    · rename_i hforward hback
      refine h.moveSeconds fun hle => ?_
      have hleap : t.isLeap = true := by simpa [isLeap] using hle
      simp only [hleap, Bool.true_and, decide_eq_true_eq] at hforward hback
      omega

variable {moved : Timestamp} {amount : Int} {unit : TimeUnit} {count : Nat}

/-- A move by a unit of seconds is one by elapsed seconds. -/
theorem eq_of_shift_seconds (hextent : unit.extent = .seconds count)
    (hmoved : t.shift amount unit = some moved) : moved = t.addSeconds (amount * count) := by
  simp only [shift, hextent] at hmoved
  obtain ⟨-, hsome⟩ := Option.ite_none_right_eq_some.mp hmoved
  exact (Option.some.inj hsome).symm

/-- A move by a unit of months keeps the time of day. -/
theorem eq_of_shift_months (hextent : unit.extent = .months count)
    (hmoved : t.shift amount unit = some moved) : moved = t.addMonths (amount * count) := by
  simp only [shift, hextent] at hmoved
  obtain ⟨-, hsome⟩ := Option.ite_none_right_eq_some.mp hmoved
  exact (Option.some.inj hsome).symm

theorem IsProper.shift (h : t.IsProper) (hmoved : t.shift amount unit = some moved) :
    moved.IsProper := by
  cases hextent : unit.extent with
  | seconds count =>
    rw [eq_of_shift_seconds hextent hmoved]
    exact h.addSeconds _
  | months count =>
    rw [eq_of_shift_months hextent hmoved]
    exact ⟨h.second, h.nano, h.leap⟩

theorem IsProper.truncate (h : t.IsProper) (unit : TimeUnit) : (t.truncate unit).IsProper := by
  have hsecond := h.second
  unfold secondsPerDay at hsecond
  have hzero : ¬ nanosPerSecond ≤ 0 := by decide
  cases unit <;> refine ⟨?_, ?_, fun hle => absurd hle hzero⟩ <;>
    simp only [Timestamp.truncate, ofDate, secondsPerDay, nanosPerSecond] <;> omega

end Timestamp

/-! ## Clocks -/

namespace Zone

/-- A written offset is a number of minutes less than a day. -/
theorem offset?_minutes {text : String} {offset : Int} (h : offset? text = some offset) :
    offset % 60 = 0 ∧ -(secondsPerDay : Int) < offset ∧ offset < secondsPerDay := by
  have hseconds : ∀ (cs : List Char) (n : Int),
      (do let seconds ← offsetSeconds? cs; pure (seconds : Int)) = some n →
        n % 60 = 0 ∧ 0 ≤ n ∧ n < secondsPerDay := by
    intro cs n hn
    obtain ⟨seconds, hseconds, hn⟩ := Option.bind_eq_some_iff.mp hn
    obtain rfl := Option.some.inj hn
    obtain ⟨parts, -, hparts⟩ := Option.bind_eq_some_iff.mp hseconds
    obtain ⟨hbounds, hparts⟩ := Option.ite_none_right_eq_some.mp hparts
    obtain rfl := Option.some.inj hparts
    simp only [Bool.and_eq_true, decide_eq_true_eq] at hbounds
    unfold secondsPerDay
    omega
  unfold offset? at h
  split at h
  · obtain ⟨n, hn, rfl⟩ := Option.map_eq_some_iff.mp h
    have := hseconds _ n hn
    omega
  · obtain ⟨n, hn, rfl⟩ := Option.map_eq_some_iff.mp h
    have := hseconds _ n hn
    omega
  · cases h

end Zone

namespace Timestamp

theorem kept_eq_ok {t kept : Timestamp} : t.kept = .ok kept ↔ kept = t ∧ t.inRange = true := by
  unfold Timestamp.kept
  cases t.inRange with
  | false => simp
  | true => simp [eq_comm]

theorem kept_eq_error {t : Timestamp} {why : MoveError} (h : t.kept = .error why) :
    t.inRange = false := by
  unfold Timestamp.kept at h
  cases hrange : t.inRange with
  | false => rfl
  | true => simp [hrange] at h

theorem shifted_eq_ok {t moved : Timestamp} {amount : Int} {unit : TimeUnit} :
    t.shifted amount unit = .ok moved ↔ t.shift amount unit = some moved := by
  unfold shifted
  cases t.shift amount unit <;> simp

/-- A move by units does not overflow, it is refused. -/
theorem shifted_eq_error {t : Timestamp} {amount : Int} {unit : TimeUnit} {why : MoveError}
    (h : t.shifted amount unit = .error why) : why = .outOfRange amount unit := by
  unfold shifted at h
  split at h
  · cases h
  · exact (Except.error.inj h).symm

theorem IsProper.shifted {t moved : Timestamp} {amount : Int} {unit : TimeUnit}
    (h : t.IsProper) (hmoved : t.shifted amount unit = .ok moved) : moved.IsProper :=
  h.shift (shifted_eq_ok.mp hmoved)

end Timestamp

namespace Period

variable {period : Period} {count : Nat} {now start finish : Timestamp}

/-- The ends of a period on the local clock are starts of units, moved by units at most. -/
theorem localSpan_ends {P : Timestamp → Prop}
    (hcut : ∀ unit, (now.truncate unit).inRange = true → P (now.truncate unit))
    (hmove : ∀ {t moved amount unit}, P t → t.shift amount unit = some moved → P moved)
    (hspan : period.localSpan count now = .ok (start, finish)) : P start ∧ P finish := by
  have hkept : ∀ {unit cut}, (now.truncate unit).kept = .ok cut → P cut := by
    intro unit cut h
    obtain ⟨rfl, hrange⟩ := Timestamp.kept_eq_ok.mp h
    exact hcut unit hrange
  have hforward : ∀ unit amount, (do
      let cut ← (now.truncate unit).kept
      return (cut, ← cut.shifted amount unit)) = Except.ok (start, finish) → P start ∧ P finish := by
    intro unit amount h
    obtain ⟨cut, hcut, hrest⟩ := bind_eq_ok h
    obtain ⟨moved, hmoved, hpair⟩ := bind_eq_ok hrest
    obtain ⟨rfl, rfl⟩ := Prod.mk.inj (Except.ok.inj hpair)
    exact ⟨hkept hcut, hmove (hkept hcut) (Timestamp.shifted_eq_ok.mp hmoved)⟩
  have hbackward : ∀ unit amount, (do
      let cut ← (now.truncate unit).kept
      return (← cut.shifted amount unit, cut)) = Except.ok (start, finish) → P start ∧ P finish := by
    intro unit amount h
    obtain ⟨cut, hcut, hrest⟩ := bind_eq_ok h
    obtain ⟨moved, hmoved, hpair⟩ := bind_eq_ok hrest
    obtain ⟨rfl, rfl⟩ := Prod.mk.inj (Except.ok.inj hpair)
    exact ⟨hmove (hkept hcut) (Timestamp.shifted_eq_ok.mp hmoved), hkept hcut⟩
  cases period with
  | today => exact hforward .day 1 hspan
  | yesterday => exact hbackward .day (-1) hspan
  | current unit => exact hforward unit 1 hspan
  | last unit => exact hbackward unit (-count) hspan

/-- The ends of a period are those on the local clock, taken back to UTC and kept. -/
theorem resolve_eq_ok {N : Type} [ZoneRules N] {zone : Zone N}
    (h : period.resolve count zone now = .ok (start, finish)) :
    ∃ first last, period.localSpan count (zone.toLocal now) = .ok (first, last) ∧
      start = zone.toUtc first ∧ finish = zone.toUtc last ∧
      start.inRange = true ∧ finish.inRange = true := by
  obtain ⟨shown, hshown, hspan⟩ := bind_eq_ok h
  obtain ⟨⟨first, last⟩, hlocal, hends⟩ := bind_eq_ok hspan
  obtain ⟨keptStart, hstart, hend⟩ := bind_eq_ok hends
  obtain ⟨keptFinish, hfinish, hpair⟩ := bind_eq_ok hend
  obtain ⟨rfl, rfl⟩ := Prod.mk.inj (Except.ok.inj hpair)
  obtain ⟨rfl, -⟩ := Timestamp.kept_eq_ok.mp hshown
  obtain ⟨rfl, hfirst⟩ := Timestamp.kept_eq_ok.mp hstart
  obtain ⟨rfl, hlast⟩ := Timestamp.kept_eq_ok.mp hfinish
  exact ⟨first, last, hlocal, rfl, rfl, hfirst, hlast⟩

end Period

end LinkQuery.Time
