import LinkQuery.Time.Calendar
import Mathlib.Algebra.Ring.Nat
/-!
# Dates and day numbers

Every day number is the number of exactly one date of the calendar.

Main statements:
- `Date.dayNumber_ofDayNumber`: the date with a number has that number.
- `Date.ofDayNumber_exists`: the date with a number is a day of the calendar.
-/
namespace LinkQuery.Time

/-- A year has 365 days, and one more if it is a leap year. -/
theorem yearStart_succ (year : Int) :
    yearStart (year + 1) = yearStart year + ((monthLengths (isLeapYear year)).sum : Nat) := by
  have hleap : isLeapYear year = true ↔ year % 4 = 0 ∧ (year % 100 ≠ 0 ∨ year % 400 = 0) := by
    simp [isLeapYear]
  cases h : isLeapYear year with
  | true =>
    rw [hleap] at h
    have hsum : (monthLengths true).sum = 366 := by decide
    rw [hsum]
    simp only [yearStart]
    omega
  | false =>
    rw [← Bool.not_eq_true, hleap] at h
    have hsum : (monthLengths false).sum = 365 := by decide
    rw [hsum]
    simp only [yearStart]
    omega

theorem daysBeforeMonth_eq_sum (year : Int) (month : Nat) :
    daysBeforeMonth year month = ((monthLengths (isLeapYear year)).take (month - 1)).sum :=
  List.sum_eq_foldl.symm

namespace Date

/-- A day lies in the year that it is found in. -/
theorem yearOf_spec (n : Int) : yearStart (yearOf n) ≤ n ∧ n < yearStart (yearOf n + 1) := by
  unfold yearOf
  dsimp only
  generalize hguess : n * 400 / 146097 + 1 = guess
  have hlow : 146097 * (guess - 1) ≤ n * 400 := by omega
  have hhigh : n * 400 < 146097 * guess := by omega
  clear hguess
  split
  · rename_i h
    simp only [yearStart] at h ⊢
    constructor <;> omega
  · split
    · rename_i hstart hnext
      simp only [yearStart] at hstart hnext ⊢
      constructor <;> omega
    · constructor <;> omega

/-- Days of a year are counted through its months. -/
theorem monthAndDay_spec {lengths : List Nat} {month days : Nat} (h : days < lengths.sum) :
    ∃ before length, (lengths.take before).sum + (monthAndDay month lengths days).2 = days + 1 ∧
      (monthAndDay month lengths days).1 = month + before ∧ lengths[before]? = some length ∧
      1 ≤ (monthAndDay month lengths days).2 ∧ (monthAndDay month lengths days).2 ≤ length := by
  induction lengths generalizing month days with
  | nil => simp at h
  | cons length lengths ih =>
    unfold monthAndDay
    split
    · exact ⟨0, length, by simp, by simp, rfl, by simp, by dsimp only; omega⟩
    · rw [List.sum_cons] at h
      obtain ⟨before, found, hsum, hmonth, hat, hfirst, hlast⟩ :=
        @ih (month + 1) (days - length) (by omega)
      refine ⟨before + 1, found, ?_, ?_, hat, hfirst, hlast⟩
      · rw [List.take_succ_cons, List.sum_cons]
        omega
      · omega

/-- What the date of a day is made of. -/
theorem ofDayNumber_spec (n : Int) : ∃ before length,
    (monthLengths (isLeapYear (yearOf n)))[before]? = some length ∧
      ofDayNumber n = ⟨yearOf n, before + 1, (ofDayNumber n).day⟩ ∧
      1 ≤ (ofDayNumber n).day ∧ (ofDayNumber n).day ≤ length ∧
      yearStart (yearOf n) +
        (((monthLengths (isLeapYear (yearOf n))).take before).sum + (ofDayNumber n).day : Nat) =
          n + 1 := by
  obtain ⟨hstart, hend⟩ := yearOf_spec n
  rw [yearStart_succ] at hend
  have hdays : (n - yearStart (yearOf n)).toNat < (monthLengths (isLeapYear (yearOf n))).sum := by
    omega
  obtain ⟨before, length, hsum, hmonth, hat, hfirst, hlast⟩ := @monthAndDay_spec _ 1 _ hdays
  refine ⟨before, length, hat, ?_, hfirst, hlast, ?_⟩
  · simp only [ofDayNumber, hmonth, Nat.add_comm 1]
  · have hday : (ofDayNumber n).day = (monthAndDay 1 (monthLengths (isLeapYear (yearOf n)))
      (n - yearStart (yearOf n)).toNat).2 := rfl
    rw [hday, hsum]
    omega

/-- The date of a day has the number of that day. -/
theorem dayNumber_ofDayNumber (n : Int) : (ofDayNumber n).dayNumber = n := by
  obtain ⟨before, length, -, hdate, -, -, hnumber⟩ := ofDayNumber_spec n
  rw [hdate, dayNumber]
  simp only [daysBeforeMonth_eq_sum, Nat.add_sub_cancel]
  omega

/-- The date of a day has a month of the year and a day of that month. -/
theorem ofDayNumber_exists (n : Int) :
    (ofDayNumber n).month ≤ 12 ∧ (ofDayNumber n).day ≤ 31 ∧ 1 ≤ (ofDayNumber n).day ∧
      (ofDayNumber n).day ≤ monthLength (ofDayNumber n).year (ofDayNumber n).month := by
  obtain ⟨before, length, hat, hdate, hfirst, hlast, -⟩ := ofDayNumber_spec n
  have hbound : before < (monthLengths (isLeapYear (yearOf n))).length :=
    (List.getElem?_eq_some_iff.mp hat).1
  have htwelve : (monthLengths (isLeapYear (yearOf n))).length = 12 := rfl
  have hlength : length ≤ 31 := by
    have hall : ∀ leap, ∀ length ∈ monthLengths leap, length ≤ 31 := by decide
    exact hall _ _ (List.mem_of_getElem? hat)
  have hmonth : (ofDayNumber n).month = before + 1 := by rw [hdate]
  have hyear : (ofDayNumber n).year = yearOf n := rfl
  refine ⟨by omega, by omega, hfirst, ?_⟩
  rw [monthLength, hmonth, hyear, if_neg (Nat.succ_ne_zero before), Nat.add_sub_cancel, hat]
  exact hlast

end Date

end LinkQuery.Time
