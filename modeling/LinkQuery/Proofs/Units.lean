import LinkQuery.Proofs.Timestamps
import Mathlib.Algebra.BigOperators.Group.List.Basic
import Mathlib.Order.Monotone.Basic
/-!
# Starts of calendar units

Months are numbered through the years, so that every unit of months starts in a month whose number
is a multiple of its extent. Units of seconds start at multiples of their extent in the same way.
From this the start of a unit lies at or before what it is the start of, and the start of the next
unit behind it.

Main statements:
- `Date.ofDayNumber_dayNumber`: a day of the calendar is found again from its number.
- `Timestamp.truncate_le`, `Timestamp.lt_of_shift_truncate`: a timestamp lies in its unit.
- `Timestamp.shift_lt_truncate`: units further back start earlier.
-/
namespace LinkQuery.Time

/-! ## Months -/

/-- The number of a month, counted from the first month of the year 0. -/
def Date.monthNumber (d : Date) : Int :=
  d.year * 12 + ((d.month : Int) - 1)

/-- The number of the first day of a month. -/
def monthStart (k : Int) : Int :=
  (Date.mk (k / 12) ((k % 12).toNat + 1) 1).dayNumber

theorem monthLength_eq {year : Int} {month : Nat} (h : month < 12) :
    monthLength year (month + 1) = (monthLengths (isLeapYear year)).get ⟨month, h⟩ := by
  rw [monthLength, if_neg (Nat.succ_ne_zero month), Nat.add_sub_cancel,
    List.getElem?_eq_getElem (by exact h), Option.getD_some]
  rfl

theorem monthLength_pos {year : Int} {month : Nat} (h : month < 12) :
    1 ≤ monthLength year (month + 1) := by
  have hall : ∀ leap, ∀ length ∈ monthLengths leap, 1 ≤ length := by decide
  rw [monthLength_eq h]
  exact hall _ _ (List.get_mem _ _)

/-- The days in front of a month and those of the month stand in front of the next one. -/
theorem daysBeforeMonth_succ {year : Int} {month : Nat} (h : month < 12) :
    daysBeforeMonth year (month + 1 + 1) =
      daysBeforeMonth year (month + 1) + monthLength year (month + 1) := by
  rw [daysBeforeMonth_eq_sum, daysBeforeMonth_eq_sum, monthLength_eq h]
  exact List.sum_take_succ (monthLengths (isLeapYear year)) month h

/-- Months follow one another without a gap, also from year to year. -/
theorem monthStart_succ (k : Int) :
    monthStart (k + 1) = monthStart k + monthLength (k / 12) ((k % 12).toNat + 1) := by
  have hmonth : (k % 12).toNat < 12 := by omega
  have hnext := @daysBeforeMonth_succ (k / 12) (k % 12).toNat hmonth
  simp only [monthStart, Date.dayNumber]
  by_cases hlast : (k % 12).toNat = 11
  · have hyear : (k + 1) / 12 = k / 12 + 1 := by omega
    have hfirst : (k + 1) % 12 = 0 := by omega
    have hwhole : daysBeforeMonth (k / 12) (11 + 1 + 1) =
        (monthLengths (isLeapYear (k / 12))).sum := daysBeforeMonth_eq_sum _ _
    have hnone : daysBeforeMonth (k / 12 + 1) ((0 : Int).toNat + 1) = 0 := rfl
    rw [hlast] at hnext ⊢
    rw [hyear, hfirst, yearStart_succ, ← hwhole, hnone]
    omega
  · have hyear : (k + 1) / 12 = k / 12 := by omega
    have hfollowing : ((k + 1) % 12).toNat = (k % 12).toNat + 1 := by omega
    rw [hyear, hfollowing]
    omega

/-- Later months start later. -/
theorem monthStart_lt_iff {a b : Int} : monthStart a < monthStart b ↔ a < b := by
  have hstrict : StrictMono monthStart := by
    refine strictMono_int_of_lt_succ fun k => ?_
    have hpos : 1 ≤ monthLength (k / 12) ((k % 12).toNat + 1) := monthLength_pos (by omega)
    rw [monthStart_succ]
    omega
  exact hstrict.lt_iff_lt

theorem monthStart_le_of_le {a b : Int} (h : a ≤ b) : monthStart a ≤ monthStart b :=
  Int.not_lt.mp fun hlt => Int.not_lt.mpr h (monthStart_lt_iff.mp hlt)

theorem yearStart_eq_monthStart (year : Int) : yearStart year = monthStart (year * 12) := by
  have hyear : year * 12 / 12 = year := by omega
  have hmonth : (year * 12 % 12).toNat + 1 = 1 := by omega
  have hnone : daysBeforeMonth year 1 = 0 := rfl
  rw [monthStart, hyear, hmonth]
  simp only [Date.dayNumber, hnone]
  omega

namespace Date

variable {d : Date}

/-- A day lies in one year only. -/
theorem yearOf_eq {year n : Int} (hfirst : yearStart year ≤ n) (hlast : n < yearStart (year + 1)) :
    yearOf n = year := by
  obtain ⟨hstart, hend⟩ := yearOf_spec n
  rw [yearStart_eq_monthStart] at hstart hend hfirst hlast
  have hbefore := monthStart_lt_iff.mp (Int.lt_of_le_of_lt hstart hlast)
  have hbehind := monthStart_lt_iff.mp (Int.lt_of_le_of_lt hfirst hend)
  omega

/-- A day is counted from the start of its month. -/
theorem dayNumber_eq (hfirst : 1 ≤ d.month) (hlast : d.month ≤ 12) :
    d.dayNumber = monthStart d.monthNumber + (d.day - 1) := by
  have hyear : d.monthNumber / 12 = d.year := by
    unfold monthNumber
    omega
  have hmonth : (d.monthNumber % 12).toNat + 1 = d.month := by
    unfold monthNumber
    omega
  rw [monthStart, hyear, hmonth]
  simp only [dayNumber]
  omega

/-- A day that exists lies in a month of the year, and in no other month. -/
theorem within_month (hday : 1 ≤ d.day) (hlength : d.day ≤ monthLength d.year d.month) :
    1 ≤ d.month ∧ d.month ≤ 12 ∧ monthStart d.monthNumber ≤ d.dayNumber ∧
      d.dayNumber < monthStart (d.monthNumber + 1) := by
  have hfirst : 1 ≤ d.month := by
    by_contra hzero
    rw [monthLength, if_pos (by omega)] at hlength
    omega
  have hlast : d.month ≤ 12 := by
    by_contra hlate
    have hnone : (monthLengths (isLeapYear d.year))[d.month - 1]? = none := by
      rw [List.getElem?_eq_none_iff]
      show 12 ≤ _
      omega
    rw [monthLength, if_neg (by omega), hnone, Option.getD_none] at hlength
    omega
  have hyear : d.monthNumber / 12 = d.year := by
    unfold monthNumber
    omega
  have hmonth : (d.monthNumber % 12).toNat + 1 = d.month := by
    unfold monthNumber
    omega
  have hnumber := dayNumber_eq hfirst hlast
  have hnext := monthStart_succ d.monthNumber
  rw [hyear, hmonth] at hnext
  exact ⟨hfirst, hlast, by omega, by omega⟩

/-- A day of the calendar is found again from its number. -/
theorem ofDayNumber_dayNumber (hday : 1 ≤ d.day) (hlength : d.day ≤ monthLength d.year d.month) :
    ofDayNumber d.dayNumber = d := by
  obtain ⟨-, -, hfound, hfits⟩ := ofDayNumber_exists d.dayNumber
  have hnumber := dayNumber_ofDayNumber d.dayNumber
  obtain ⟨hfirst, hlast, hlow, hhigh⟩ := within_month hday hlength
  obtain ⟨hfirst', hlast', hlow', hhigh'⟩ := within_month hfound hfits
  rw [hnumber] at hlow' hhigh'
  have hmonths : (ofDayNumber d.dayNumber).monthNumber = d.monthNumber := by
    have hbehind := monthStart_lt_iff.mp (Int.lt_of_le_of_lt hlow' hhigh)
    have hbefore := monthStart_lt_iff.mp (Int.lt_of_le_of_lt hlow hhigh')
    omega
  have hdays := (dayNumber_eq hfirst' hlast').symm.trans (hnumber.trans (dayNumber_eq hfirst hlast))
  rw [hmonths] at hdays
  generalize ofDayNumber d.dayNumber = found at *
  obtain ⟨year, month, day⟩ := d
  obtain ⟨year', month', day'⟩ := found
  simp only [monthNumber] at hmonths hfirst hlast hfirst' hlast' hdays hday hfound
  simp only [mk.injEq]
  omega

/-- The first day of a month. -/
theorem ofDayNumber_monthStart (k : Int) :
    ofDayNumber (monthStart k) = ⟨k / 12, (k % 12).toNat + 1, 1⟩ :=
  ofDayNumber_dayNumber (Nat.le_refl 1) (monthLength_pos (by omega))

/-- A number of months behind the first day of a month. -/
theorem dayNumber_addMonths_monthStart (k count : Int) :
    ((ofDayNumber (monthStart k)).addMonths count).dayNumber = monthStart (k + count) := by
  have hmonths : k / 12 * 12 + (((k % 12).toNat + 1 : Nat) - 1 : Int) + count = k + count := by
    omega
  have hlength : 1 ≤ monthLength ((k + count) / 12) (((k + count) % 12).toNat + 1) :=
    monthLength_pos (by omega)
  rw [ofDayNumber_monthStart]
  simp only [addMonths, hmonths, monthStart, Nat.min_eq_left hlength]

end Date

/-! ## Units -/

namespace Timestamp

open Zone (readingSeconds)

variable {t moved : Timestamp} {unit : TimeUnit}

/-- The timestamp is the start of a second. -/
def IsPlain (t : Timestamp) : Prop := t.second < secondsPerDay ∧ t.nano = 0

theorem second_moveSeconds (t : Timestamp) (seconds : Int) :
    (t.moveSeconds seconds).second < secondsPerDay := by
  simp only [moveSeconds, secondsPerDay]
  omega

theorem IsPlain.moveSeconds (h : t.IsPlain) (seconds : Int) : (t.moveSeconds seconds).IsPlain :=
  ⟨second_moveSeconds t seconds, h.2⟩

theorem truncate_plain (h : t.second < secondsPerDay) (unit : TimeUnit) :
    (t.truncate unit).IsPlain := by
  unfold secondsPerDay at h
  cases unit <;> refine ⟨?_, rfl⟩ <;> simp only [truncate, ofDate, secondsPerDay] <;> omega

/-- A unit of seconds starts at a multiple of its extent. -/
theorem readingSeconds_truncate {count : Nat} (h : t.second < secondsPerDay)
    (hextent : unit.extent = .seconds count) :
    readingSeconds (t.truncate unit) = readingSeconds t / count * count := by
  unfold secondsPerDay at h
  cases unit <;> cases hextent <;>
    simp only [truncate, readingSeconds, secondsPerDay, daysSinceMonday] <;> omega

/-- The number of the month of a timestamp, whose days stand around it. -/
theorem within_month (t : Timestamp) :
    monthStart t.date.monthNumber ≤ t.day ∧ t.day < monthStart (t.date.monthNumber + 1) := by
  obtain ⟨-, -, hday, hlength⟩ := Date.ofDayNumber_exists t.day
  obtain ⟨-, -, hlow, hhigh⟩ := Date.within_month hday hlength
  rw [Date.dayNumber_ofDayNumber] at hlow hhigh
  exact ⟨hlow, hhigh⟩

/-- A unit of months starts in a month whose number is a multiple of its extent. -/
theorem truncate_months {count : Nat} (t : Timestamp) (hextent : unit.extent = .months count) :
    t.truncate unit = ⟨monthStart (t.date.monthNumber / count * count), 0, 0⟩ := by
  obtain ⟨-, -, hday, hlength⟩ := Date.ofDayNumber_exists t.day
  obtain ⟨hfirst, hlast, -, -⟩ := Date.within_month hday hlength
  have hstart : ∀ month : Nat, 1 ≤ month → month ≤ 12 →
      t.date.year * 12 + ((month : Int) - 1) = t.date.monthNumber / count * count →
      ofDate ⟨t.date.year, month, 1⟩ = ⟨monthStart (t.date.monthNumber / count * count), 0, 0⟩ := by
    intro month hone htwelve hnumber
    rw [ofDate, Date.dayNumber_eq hone htwelve, ← hnumber]
    simp [Date.monthNumber]
  have hmonth : 1 ≤ t.date.month ∧ t.date.month ≤ 12 := ⟨hfirst, hlast⟩
  cases unit <;> cases hextent
  · exact hstart _ hfirst hlast (by simp [Date.monthNumber])
  · exact hstart _ (by omega) (by omega) (by unfold Date.monthNumber; omega)
  · exact hstart _ (by omega) (by omega) (by unfold Date.monthNumber; omega)

/-- The start of a second is moved by elapsed seconds. -/
theorem IsPlain.addSeconds (h : t.IsPlain) (seconds : Int) :
    t.addSeconds seconds = t.moveSeconds seconds := by
  have hleap : t.isLeap = false := by
    simp [isLeap, h.2, nanosPerSecond]
  simp [Timestamp.addSeconds, hleap]

theorem readingSeconds_moveSeconds (t : Timestamp) (seconds : Int) :
    readingSeconds (t.moveSeconds seconds) = readingSeconds t + seconds := by
  simp only [readingSeconds, moveSeconds, secondsPerDay]
  omega

/-- A move by a unit of seconds. -/
theorem readingSeconds_shift {count : Nat} {amount : Int} (h : t.IsPlain)
    (hextent : unit.extent = .seconds count) (hmoved : t.shift amount unit = some moved) :
    readingSeconds moved = readingSeconds t + amount * count := by
  rw [eq_of_shift_seconds hextent hmoved, h.addSeconds, readingSeconds_moveSeconds]

/-- A move by a unit of months from the start of a month. -/
theorem shift_months {count : Nat} {k amount : Int} (hextent : unit.extent = .months count)
    (hmoved : (⟨monthStart k, 0, 0⟩ : Timestamp).shift amount unit = some moved) :
    moved = ⟨monthStart (k + amount * count), 0, 0⟩ := by
  rw [eq_of_shift_months hextent hmoved]
  simp only [addMonths, date, Date.dayNumber_addMonths_monthStart]

/-- The start of a second stays one. -/
theorem IsPlain.shift {amount : Int} (h : t.IsPlain) (hmoved : t.shift amount unit = some moved) :
    moved.IsPlain := by
  cases hextent : unit.extent with
  | seconds count =>
    rw [eq_of_shift_seconds hextent hmoved, h.addSeconds]
    exact h.moveSeconds _
  | months count =>
    rw [eq_of_shift_months hextent hmoved]
    exact h

theorem extent_pos {count : Nat} (h : unit.extent = .seconds count ∨ unit.extent = .months count) :
    (0 : Int) < count := by
  cases unit <;> rcases h with h | h <;> cases h <;> decide

/-- A unit starts at or before the timestamps in it. -/
theorem truncate_le (h : t.second < secondsPerDay) (unit : TimeUnit) :
    readingSeconds (t.truncate unit) ≤ readingSeconds t := by
  cases hextent : unit.extent with
  | seconds count =>
    rw [readingSeconds_truncate h hextent]
    exact Int.ediv_mul_le _ (Int.ne_of_gt (extent_pos (Or.inl hextent)))
  | months count =>
    have hmultiple : t.date.monthNumber / count * count ≤ t.date.monthNumber :=
      Int.ediv_mul_le _ (Int.ne_of_gt (extent_pos (Or.inr hextent)))
    have hstart := monthStart_le_of_le hmultiple
    have hwithin := (within_month t).1
    rw [truncate_months t hextent]
    simp only [readingSeconds, secondsPerDay]
    omega

/-- The next unit starts behind the timestamps of a unit. -/
theorem lt_of_shift_truncate (h : t.second < secondsPerDay)
    (hnext : (t.truncate unit).shift 1 unit = some moved) :
    readingSeconds t < readingSeconds moved := by
  cases hextent : unit.extent with
  | seconds count =>
    have hbefore := Int.lt_ediv_add_one_mul_self (readingSeconds t) (extent_pos (Or.inl hextent))
    rw [Int.add_mul] at hbefore
    rw [readingSeconds_shift (truncate_plain h unit) hextent hnext,
      readingSeconds_truncate h hextent]
    exact hbefore
  | months count =>
    rw [truncate_months t hextent] at hnext
    obtain rfl := shift_months hextent hnext
    have hbefore := Int.lt_ediv_add_one_mul_self t.date.monthNumber (extent_pos (Or.inr hextent))
    rw [Int.add_mul] at hbefore
    have hstart := monthStart_le_of_le (Int.add_one_le_of_lt hbefore)
    have hwithin := (within_month t).2
    simp only [readingSeconds, secondsPerDay] at h ⊢
    omega

/-- Units further back start earlier. -/
theorem shift_lt_truncate (h : t.second < secondsPerDay) {count : Nat} (hcount : 1 ≤ count)
    (hback : (t.truncate unit).shift (-count) unit = some moved) :
    readingSeconds moved < readingSeconds (t.truncate unit) := by
  cases hextent : unit.extent with
  | seconds seconds =>
    have hpos : (0 : Int) < count * seconds :=
      Int.mul_pos (by omega) (extent_pos (Or.inl hextent))
    rw [readingSeconds_shift (truncate_plain h unit) hextent hback, Int.neg_mul]
    omega
  | months months =>
    have hpos : (0 : Int) < count * months :=
      Int.mul_pos (by omega) (extent_pos (Or.inr hextent))
    rw [truncate_months t hextent] at hback ⊢
    obtain rfl := shift_months hextent hback
    have hback : t.date.monthNumber / months * months + -count * months <
        t.date.monthNumber / months * months := by
      rw [Int.neg_mul]
      omega
    have hstart := monthStart_lt_iff.mpr hback
    simp only [readingSeconds, secondsPerDay]
    omega

end Timestamp

end LinkQuery.Time
