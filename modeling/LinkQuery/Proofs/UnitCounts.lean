import Mathlib
import LinkQuery.Proofs.CalendarEnds
/-!
# Counts of calendar units

The number of whole units between two timestamps undoes moves by units. Outside of leap seconds a
timestamp has a position in nanoseconds, and more units lead to a later position, also where a move
by months ends on the last day of a shorter month. So the positions that are reached from a
timestamp single out one number of units, and longer units only divide it.

Main statements:
- `Timestamp.nanos_moved`: more units lead further.
- `CountsTo.tdiv`: counts of longer units, from those of shorter ones.
- `Timestamp.unitsBetween_iff`: the count is the number of units that fit between two timestamps.
-/
namespace LinkQuery.Time

open Zone (readingSeconds)

/-! ## Counting along positions -/

/-- A number of steps leads from `position 0` to `goal` or not as far, and one step more leads past
it. Positions behind the first one are counted down. -/
structure CountsTo (position : Int → Int) (goal n : Int) : Prop where
  up : position 0 ≤ goal → 0 ≤ n ∧ position n ≤ goal ∧ goal < position (n + 1)
  down : goal < position 0 → n ≤ 0 ∧ goal ≤ position n ∧ position (n - 1) < goal

namespace CountsTo

variable {position : Int → Int} {goal m n : Int}

/-- Only one number of steps leads to a goal. -/
theorem unique (hstrict : StrictMono position) (hm : CountsTo position goal m)
    (hn : CountsTo position goal n) : m = n := by
  rcases lt_or_ge goal (position 0) with hdown | hup
  · obtain ⟨-, hm, hm'⟩ := hm.down hdown
    obtain ⟨-, hn, hn'⟩ := hn.down hdown
    have hmn := hstrict.lt_iff_lt.mp (Int.lt_of_lt_of_le hm' hn)
    have hnm := hstrict.lt_iff_lt.mp (Int.lt_of_lt_of_le hn' hm)
    omega
  · obtain ⟨-, hm, hm'⟩ := hm.up hup
    obtain ⟨-, hn, hn'⟩ := hn.up hup
    have hmn := hstrict.lt_iff_lt.mp (Int.lt_of_le_of_lt hm hn')
    have hnm := hstrict.lt_iff_lt.mp (Int.lt_of_le_of_lt hn hm')
    omega

/-- Steps of a multiple of the length are counted by division toward zero. -/
theorem tdiv (hstrict : StrictMono position) {count : Int} (hcount : 0 < count)
    (h : CountsTo position goal n) :
    CountsTo (fun steps => position (steps * count)) goal (n.tdiv count) := by
  have hmono := hstrict.monotone
  refine ⟨fun hup => ?_, fun hdown => ?_⟩
  · rw [Int.zero_mul] at hup
    obtain ⟨hpos, hreach, hnext⟩ := h.up hup
    rw [Int.tdiv_eq_ediv_of_nonneg hpos]
    have hlow : n / count * count ≤ n := Int.ediv_mul_le n (Int.ne_of_gt hcount)
    have hhigh : n + 1 ≤ (n / count + 1) * count :=
      Int.add_one_le_of_lt (Int.lt_ediv_add_one_mul_self n hcount)
    exact ⟨Int.ediv_nonneg hpos (Int.le_of_lt hcount), Int.le_trans (hmono hlow) hreach,
      Int.lt_of_lt_of_le hnext (hmono hhigh)⟩
  · rw [Int.zero_mul] at hdown
    obtain ⟨hneg, hreach, hnext⟩ := h.down hdown
    obtain ⟨back, rfl⟩ : ∃ back, n = -back := ⟨-n, (Int.neg_neg n).symm⟩
    have hback : 0 ≤ back := by omega
    rw [Int.neg_tdiv, Int.tdiv_eq_ediv_of_nonneg hback]
    have hlow : back / count * count ≤ back := Int.ediv_mul_le back (Int.ne_of_gt hcount)
    have hhigh : back < (back / count + 1) * count := Int.lt_ediv_add_one_mul_self back hcount
    have hmore : (-(back / count) - 1) * count = -((back / count + 1) * count) := by
      rw [← Int.neg_mul, Int.neg_add]
      rfl
    have hfirst : -back ≤ -(back / count) * count := by
      rw [Int.neg_mul]
      omega
    have hlast : (-(back / count) - 1) * count ≤ -back - 1 := by
      rw [hmore]
      omega
    exact ⟨Int.neg_nonpos_of_nonneg (Int.ediv_nonneg hback (Int.le_of_lt hcount)),
      Int.le_trans hreach (hmono hfirst), Int.lt_of_le_of_lt (hmono hlast) hnext⟩

end CountsTo

namespace Timestamp

variable {a b reached : Timestamp} {unit : TimeUnit} {amount : Int}

/-! ## Positions -/

/-- The timestamp is a time of day outside of leap seconds. -/
structure IsOrdinary (t : Timestamp) : Prop where
  second : t.second < secondsPerDay
  nano : t.nano < nanosPerSecond

/-- The nanoseconds since day 0 of a timestamp outside of leap seconds. -/
def nanos (t : Timestamp) : Int :=
  readingSeconds t * nanosPerSecond + t.nano

theorem order_eq_lt_iff (ha : a.IsOrdinary) (hb : b.IsOrdinary) :
    a.order b = .lt ↔ a.nanos < b.nanos := by
  obtain ⟨hsecond, hnano⟩ := ha
  obtain ⟨hsecond', hnano'⟩ := hb
  simp only [secondsPerDay, nanosPerSecond] at hsecond hnano hsecond' hnano'
  simp only [order, Ordering.then_eq_lt, compare_lt_iff_lt, compare_eq_iff_eq, nanos,
    readingSeconds, secondsPerDay, nanosPerSecond]
  omega

theorem order_eq_gt_iff (ha : a.IsOrdinary) (hb : b.IsOrdinary) :
    a.order b = .gt ↔ b.nanos < a.nanos := by
  obtain ⟨hsecond, hnano⟩ := ha
  obtain ⟨hsecond', hnano'⟩ := hb
  simp only [secondsPerDay, nanosPerSecond] at hsecond hnano hsecond' hnano'
  simp only [order, Ordering.then_eq_gt, compare_gt_iff_gt, compare_eq_iff_eq, nanos,
    readingSeconds, secondsPerDay, nanosPerSecond]
  omega

theorem order_not_gt_iff (ha : a.IsOrdinary) (hb : b.IsOrdinary) :
    a.order b ≠ .gt ↔ a.nanos ≤ b.nanos := by
  rw [ne_eq, order_eq_gt_iff ha hb, Int.not_lt]

/-- The nanoseconds of a day come after those of the days in front of it. -/
theorem nanos_lt_of_day_lt (ha : a.IsOrdinary) (hb : b.IsOrdinary) (h : a.day < b.day) :
    a.nanos < b.nanos := by
  obtain ⟨hsecond, hnano⟩ := ha
  obtain ⟨hsecond', hnano'⟩ := hb
  simp only [secondsPerDay, nanosPerSecond] at hsecond hnano hsecond' hnano'
  simp only [nanos, readingSeconds, secondsPerDay, nanosPerSecond]
  omega

/-- The nanoseconds of a month come after those of the months in front of it. -/
theorem nanos_lt_of_monthNumber_lt (ha : a.IsOrdinary) (hb : b.IsOrdinary)
    (h : a.date.monthNumber < b.date.monthNumber) : a.nanos < b.nanos := by
  have hlast := (within_month a).2
  have hfirst := (within_month b).1
  have hstart := monthStart_le_of_le (Int.add_one_le_of_lt h)
  exact nanos_lt_of_day_lt ha hb (by omega)

theorem day_le_of_nanos_le (ha : a.IsOrdinary) (hb : b.IsOrdinary) (h : a.nanos ≤ b.nanos) :
    a.day ≤ b.day :=
  Int.not_lt.mp fun hlt => Int.not_lt.mpr h (nanos_lt_of_day_lt hb ha hlt)

theorem elapsedNanos_eq (ha : a.IsOrdinary) (hb : b.IsOrdinary) :
    elapsedNanos a b = b.nanos - a.nanos := by
  have hnone : leapBetween a b = 0 := by
    have hstart : a.isLeap = false := by simpa [isLeap] using ha.nano
    have hfinish : b.isLeap = false := by simpa [isLeap] using hb.nano
    simp [leapBetween, hstart, hfinish]
  simp only [elapsedNanos, hnone, nanos, readingSeconds, secondsPerDay, nanosPerSecond]
  omega

/-! ## Moves -/

/-- The timestamp moved by units, also out of the years that timestamps are kept in. -/
def moved (t : Timestamp) (amount : Int) (unit : TimeUnit) : Timestamp :=
  match unit.extent with
  | .seconds count => t.addSeconds (amount * count)
  | .months count => t.addMonths (amount * count)

theorem shift_eq_some_iff :
    a.shift amount unit = some reached ↔
      a.moved amount unit = reached ∧ reached.inRange = true := by
  have hshift : a.shift amount unit =
      if (a.moved amount unit).inRange then some (a.moved amount unit) else none := rfl
  rw [hshift, Option.ite_none_right_eq_some, Option.some.injEq]
  constructor
  · rintro ⟨hrange, rfl⟩
    exact ⟨rfl, hrange⟩
  · rintro ⟨rfl, hrange⟩
    exact ⟨hrange, rfl⟩

theorem IsOrdinary.addSeconds_eq (h : a.IsOrdinary) (seconds : Int) :
    a.addSeconds seconds = a.moveSeconds seconds := by
  have hleap : a.isLeap = false := by simpa [isLeap] using h.nano
  simp [addSeconds, hleap]

theorem IsOrdinary.addMonths (h : a.IsOrdinary) (months : Int) : (a.addMonths months).IsOrdinary :=
  ⟨h.second, h.nano⟩

theorem IsOrdinary.moved (h : a.IsOrdinary) (amount : Int) (unit : TimeUnit) :
    (a.moved amount unit).IsOrdinary := by
  unfold Timestamp.moved
  cases unit.extent with
  | seconds count =>
    dsimp only
    rw [h.addSeconds_eq]
    exact ⟨second_moveSeconds a _, h.nano⟩
  | months count => exact h.addMonths _

theorem nanos_addSeconds (h : a.IsOrdinary) (seconds : Int) :
    (a.addSeconds seconds).nanos = a.nanos + seconds * nanosPerSecond := by
  have hnano : (a.moveSeconds seconds).nano = a.nano := rfl
  rw [h.addSeconds_eq, nanos, nanos, readingSeconds_moveSeconds, hnano, Int.add_mul]
  omega

theorem date_addMonths_zero (t : Timestamp) : t.date.addMonths 0 = t.date := by
  obtain ⟨-, -, hday, hlength⟩ := Date.ofDayNumber_exists t.day
  obtain ⟨hfirst, hlast, -, -⟩ := Date.within_month hday hlength
  have hdate : t.date = Date.ofDayNumber t.day := rfl
  rw [← hdate] at hfirst hlast hlength
  generalize t.date = d at *
  have hyear : (d.year * 12 + ((d.month : Int) - 1) + 0) / 12 = d.year := by omega
  have hmonth : ((d.year * 12 + ((d.month : Int) - 1) + 0) % 12).toNat + 1 = d.month := by omega
  simp only [Date.addMonths, hyear, hmonth, Nat.min_eq_left hlength]

theorem addMonths_zero (t : Timestamp) : t.addMonths 0 = t := by
  have hnumber : t.date.dayNumber = t.day := Date.dayNumber_ofDayNumber t.day
  rw [addMonths, date_addMonths_zero, hnumber]

/-- A move by months ends in the month that is as many months away. -/
theorem monthNumber_addMonths (t : Timestamp) (months : Int) :
    (t.addMonths months).date.monthNumber = t.date.monthNumber + months := by
  obtain ⟨hlow, hhigh⟩ := day_addMonths t months
  obtain ⟨hfirst, hlast⟩ := within_month (t.addMonths months)
  have hle := monthStart_lt_iff.mp (Int.lt_of_le_of_lt hfirst hhigh)
  have hge := monthStart_lt_iff.mp (Int.lt_of_le_of_lt hlow hlast)
  omega

/-- More months lead further, though not always by as many days. -/
theorem nanos_addMonths (h : a.IsOrdinary) :
    StrictMono fun months => (a.addMonths months).nanos := by
  intro fewer more hlt
  refine nanos_lt_of_monthNumber_lt (h.addMonths fewer) (h.addMonths more) ?_
  rw [monthNumber_addMonths, monthNumber_addMonths]
  omega

theorem nanos_addSeconds_strict (h : a.IsOrdinary) :
    StrictMono fun seconds => (a.addSeconds seconds).nanos := by
  intro fewer more hlt
  simp only [nanos_addSeconds h, nanosPerSecond]
  omega

/-- More units lead further. -/
theorem nanos_moved (h : a.IsOrdinary) (unit : TimeUnit) :
    StrictMono fun amount => (a.moved amount unit).nanos := by
  have hpos := @extent_pos unit
  unfold Timestamp.moved
  cases hextent : unit.extent with
  | seconds count =>
    have hcount := hpos (Or.inl hextent)
    exact fun fewer more hlt => nanos_addSeconds_strict h (Int.mul_lt_mul_of_pos_right hlt hcount)
  | months count =>
    have hcount := hpos (Or.inr hextent)
    exact fun fewer more hlt => nanos_addMonths h (Int.mul_lt_mul_of_pos_right hlt hcount)

theorem nanos_moved_zero (h : a.IsOrdinary) (unit : TimeUnit) :
    (a.moved 0 unit).nanos = a.nanos := by
  unfold Timestamp.moved
  cases unit.extent with
  | seconds count =>
    dsimp only
    rw [nanos_addSeconds h, Int.zero_mul, Int.zero_mul, Int.add_zero]
  | months count =>
    dsimp only
    rw [Int.zero_mul, addMonths_zero]

/-! ## Counts -/

/-- The elapsed seconds lead as far as they can. -/
theorem countsTo_elapsedSeconds (ha : a.IsOrdinary) (hb : b.IsOrdinary) :
    CountsTo (fun seconds => (a.addSeconds seconds).nanos) b.nanos (elapsedSeconds a b) := by
  have hnanos : CountsTo (fun nanos => a.nanos + nanos) b.nanos (b.nanos - a.nanos) :=
    ⟨fun hup => by omega, fun hdown => by omega⟩
  have hseconds := hnanos.tdiv (fun _ _ hlt => Int.add_lt_add_left hlt a.nanos)
    (by decide : (0 : Int) < nanosPerSecond)
  rw [elapsedSeconds, elapsedNanos_eq ha hb]
  simp only [nanos_addSeconds ha]
  exact hseconds

/-- Timestamps are kept by whole months. -/
theorem inRange_of_monthNumber_eq (h : a.date.monthNumber = b.date.monthNumber)
    (hrange : b.inRange = true) : a.inRange = true := by
  obtain ⟨hmin, hmax⟩ := monthNumber_of_inRange hrange
  obtain ⟨hfirst, hlast⟩ := within_month a
  have hstart := monthStart_le_of_le hmin
  have hend := monthStart_le_of_le (Int.add_one_le_of_lt hmax)
  rw [← firstDay_eq] at hstart
  rw [← lastDay_eq] at hend
  rw [h] at hfirst hlast
  simp only [inRange, Bool.and_eq_true, decide_eq_true_eq]
  omega

/-- Months are counted by the numbers of the months, less one where the last one is incomplete. -/
theorem countsTo_wholeMonths (ha : a.IsOrdinary) (hb : b.IsOrdinary) (hrange : b.inRange = true) :
    CountsTo (fun months => (a.addMonths months).nanos) b.nanos (wholeMonths a b) := by
  have hmonths : (b.date.year - a.date.year) * 12 + ((b.date.month : Int) - a.date.month) =
      b.date.monthNumber - a.date.monthNumber := by
    unfold Date.monthNumber
    omega
  generalize hm : b.date.monthNumber - a.date.monthNumber = months at hmonths
  -- The month before leads to the front of `b`, and the month after leads past it.
  have hbefore : (a.addMonths (months - 1)).nanos < b.nanos :=
    nanos_lt_of_monthNumber_lt (ha.addMonths _) hb (by rw [monthNumber_addMonths]; omega)
  have hbehind : b.nanos < (a.addMonths (months + 1)).nanos :=
    nanos_lt_of_monthNumber_lt hb (ha.addMonths _) (by rw [monthNumber_addMonths]; omega)
  have hreached : a.shift months .month = some (a.addMonths months) :=
    shift_eq_some_iff.mpr ⟨by simp [Timestamp.moved, TimeUnit.extent],
      inRange_of_monthNumber_eq (by rw [monthNumber_addMonths]; omega) hrange⟩
  have hstrict := nanos_addMonths ha
  have hup : (a.addMonths 0).nanos ≤ b.nanos → 0 ≤ months := fun hle => by
    have := hstrict.lt_iff_lt.mp (Int.lt_of_le_of_lt hle hbehind)
    omega
  have hdown : b.nanos < (a.addMonths 0).nanos → months ≤ 0 := fun hlt => by
    have := hstrict.lt_iff_lt.mp (Int.lt_trans hbefore hlt)
    omega
  have hgt := order_eq_gt_iff (ha.addMonths months) hb
  have hlt := order_eq_lt_iff (ha.addMonths months) hb
  have hsame : months - 1 + 1 = months := by omega
  have hsame' : months + 1 - 1 = months := by omega
  unfold wholeMonths
  simp only [hmonths, hreached]
  split
  · rename_i hpast
    simp only [Bool.and_eq_true, decide_eq_true_eq, beq_iff_eq] at hpast
    have hnanos := hgt.mp hpast.2
    refine ⟨fun _ => ⟨by omega, Int.le_of_lt hbefore, ?_⟩, fun hback => ?_⟩
    · rw [hsame]
      exact hnanos
    · have := hdown hback
      omega
  · rename_i hnotPast
    split
    · rename_i hshort
      simp only [Bool.and_eq_true, decide_eq_true_eq, beq_iff_eq] at hshort
      have hnanos := hlt.mp hshort.2
      refine ⟨fun hforth => ?_, fun _ => ⟨by omega, Int.le_of_lt hbehind, ?_⟩⟩
      · have := hup hforth
        omega
      · rw [hsame']
        exact hnanos
    · rename_i hnotShort
      simp only [Bool.and_eq_true, decide_eq_true_eq, beq_iff_eq, not_and] at hnotPast hnotShort
      refine ⟨fun hforth => ⟨hup hforth, ?_, hbehind⟩, fun hback => ⟨hdown hback, ?_, hbefore⟩⟩
      · rcases Int.lt_or_eq_of_le (hup hforth) with hpos | rfl
        · exact Int.not_lt.mp fun h => hnotPast hpos (hgt.mpr h)
        · exact hforth
      · rcases Int.lt_or_eq_of_le (hdown hback) with hneg | rfl
        · exact Int.not_lt.mp fun h => hnotShort hneg (hlt.mpr h)
        · exact Int.le_of_lt hback

theorem countsTo_unitsBetween (ha : a.IsOrdinary) (hb : b.IsOrdinary) (hrange : b.inRange = true)
    (unit : TimeUnit) :
    CountsTo (fun amount => (a.moved amount unit).nanos) b.nanos (unitsBetween unit a b) := by
  have hpos := @extent_pos unit
  unfold unitsBetween Timestamp.moved
  cases hextent : unit.extent with
  | seconds count =>
    exact (countsTo_elapsedSeconds ha hb).tdiv (nanos_addSeconds_strict ha) (hpos (Or.inl hextent))
  | months count =>
    exact (countsTo_wholeMonths ha hb hrange).tdiv (nanos_addMonths ha) (hpos (Or.inr hextent))

/-! ## Units that fit -/

/-- A number of units leads from `start` to `finish` or not as far, and where one unit more leads to
a timestamp, it leads past `finish`. -/
def Fits (unit : TimeUnit) (start finish : Timestamp) (n : Int) : Prop :=
  (∃ reached, start.shift n unit = some reached ∧ reached.order finish ≠ .gt) ∧
    ∀ next, start.shift (n + 1) unit = some next → finish.order next = .lt

/-- A number of units leads back from `start` to `finish` or not as far, and where one unit more
leads back to a timestamp, it leads past `finish`. -/
def FitsBack (unit : TimeUnit) (start finish : Timestamp) (n : Int) : Prop :=
  (∃ reached, start.shift n unit = some reached ∧ finish.order reached ≠ .gt) ∧
    ∀ next, start.shift (n - 1) unit = some next → next.order finish = .lt

/-- What is reached between two timestamps that are kept is kept. -/
theorem inRange_of_between (ha : a.IsOrdinary) (hb : b.IsOrdinary) (h : reached.IsOrdinary)
    (hfrom : a.inRange = true) (hto : b.inRange = true) (hlow : a.nanos ≤ reached.nanos)
    (hhigh : reached.nanos ≤ b.nanos) : reached.inRange = true := by
  have hfirst := day_le_of_nanos_le ha h hlow
  have hlast := day_le_of_nanos_le h hb hhigh
  simp only [inRange, Bool.and_eq_true, decide_eq_true_eq] at hfrom hto ⊢
  omega

/-- The units that fit forward are told by positions. Moves of no unit or more out of the years that
timestamps are kept in lead past `b`. -/
theorem fits_iff (ha : a.IsOrdinary) (hb : b.IsOrdinary) (hfrom : a.inRange = true)
    (hto : b.inRange = true) {n : Int} (hn : 0 ≤ n) :
    Fits unit a b n ↔
      (a.moved n unit).nanos ≤ b.nanos ∧ b.nanos < (a.moved (n + 1) unit).nanos := by
  have hforth : ∀ amount, 0 ≤ amount → a.nanos ≤ (a.moved amount unit).nanos := fun amount h => by
    rw [← nanos_moved_zero ha unit]
    exact (nanos_moved ha unit).monotone h
  constructor
  · rintro ⟨⟨reached, hreached, hle⟩, hnext⟩
    obtain ⟨rfl, -⟩ := shift_eq_some_iff.mp hreached
    refine ⟨(order_not_gt_iff (ha.moved n unit) hb).mp hle, Int.not_le.mp fun hback => ?_⟩
    have hkept := inRange_of_between ha hb (ha.moved (n + 1) unit) hfrom hto
      (hforth _ (by omega)) hback
    have hlt := hnext _ (shift_eq_some_iff.mpr ⟨rfl, hkept⟩)
    exact Int.not_lt.mpr hback ((order_eq_lt_iff hb (ha.moved _ unit)).mp hlt)
  · rintro ⟨hle, hlt⟩
    have hkept := inRange_of_between ha hb (ha.moved n unit) hfrom hto (hforth n hn) hle
    refine ⟨⟨_, shift_eq_some_iff.mpr ⟨rfl, hkept⟩,
      (order_not_gt_iff (ha.moved n unit) hb).mpr hle⟩, fun next hnext => ?_⟩
    obtain ⟨rfl, -⟩ := shift_eq_some_iff.mp hnext
    exact (order_eq_lt_iff hb (ha.moved _ unit)).mpr hlt

/-- The units that fit backward are told by positions. -/
theorem fitsBack_iff (ha : a.IsOrdinary) (hb : b.IsOrdinary) (hfrom : a.inRange = true)
    (hto : b.inRange = true) {n : Int} (hn : n ≤ 0) :
    FitsBack unit a b n ↔
      b.nanos ≤ (a.moved n unit).nanos ∧ (a.moved (n - 1) unit).nanos < b.nanos := by
  have hback : ∀ amount, amount ≤ 0 → (a.moved amount unit).nanos ≤ a.nanos := fun amount h => by
    rw [← nanos_moved_zero ha unit]
    exact (nanos_moved ha unit).monotone h
  constructor
  · rintro ⟨⟨reached, hreached, hle⟩, hnext⟩
    obtain ⟨rfl, -⟩ := shift_eq_some_iff.mp hreached
    refine ⟨(order_not_gt_iff hb (ha.moved n unit)).mp hle, Int.not_le.mp fun hforth => ?_⟩
    have hkept := inRange_of_between hb ha (ha.moved (n - 1) unit) hto hfrom hforth
      (hback _ (by omega))
    have hlt := hnext _ (shift_eq_some_iff.mpr ⟨rfl, hkept⟩)
    exact Int.not_lt.mpr hforth ((order_eq_lt_iff (ha.moved _ unit) hb).mp hlt)
  · rintro ⟨hle, hlt⟩
    have hkept := inRange_of_between hb ha (ha.moved n unit) hto hfrom hle (hback n hn)
    refine ⟨⟨_, shift_eq_some_iff.mpr ⟨rfl, hkept⟩,
      (order_not_gt_iff hb (ha.moved n unit)).mpr hle⟩, fun next hnext => ?_⟩
    obtain ⟨rfl, -⟩ := shift_eq_some_iff.mp hnext
    exact (order_eq_lt_iff (ha.moved _ unit) hb).mpr hlt

/-- Between two timestamps outside of leap seconds, the count of whole units is the one number of
units that fits: forward where the second is not earlier, and backward where it is. -/
theorem unitsBetween_iff (unit : TimeUnit) {a b : Timestamp} (ha : a.IsOrdinary)
    (hb : b.IsOrdinary) (hfrom : a.inRange = true) (hto : b.inRange = true) :
    (a.order b ≠ .gt → ∀ n, 0 ≤ n ∧ Fits unit a b n ↔ n = unitsBetween unit a b) ∧
      (b.order a = .lt → ∀ n, n ≤ 0 ∧ FitsBack unit a b n ↔ n = unitsBetween unit a b) := by
  have hstrict := nanos_moved ha unit
  have hcount := countsTo_unitsBetween ha hb hto unit
  have hzero := nanos_moved_zero ha unit
  refine ⟨fun hle n => ?_, fun hlt n => ?_⟩
  · have hup := (order_not_gt_iff ha hb).mp hle
    rw [← hzero] at hup
    constructor
    · rintro ⟨hn, hfits⟩
      have hposition := (fits_iff ha hb hfrom hto hn).mp hfits
      exact CountsTo.unique hstrict
        ⟨fun _ => ⟨hn, hposition⟩, fun hdown => absurd hup (Int.not_le.mpr hdown)⟩ hcount
    · rintro rfl
      obtain ⟨hn, hposition⟩ := hcount.up hup
      exact ⟨hn, (fits_iff ha hb hfrom hto hn).mpr hposition⟩
  · have hdown := (order_eq_lt_iff hb ha).mp hlt
    rw [← hzero] at hdown
    constructor
    · rintro ⟨hn, hfits⟩
      have hposition := (fitsBack_iff ha hb hfrom hto hn).mp hfits
      exact CountsTo.unique hstrict
        ⟨fun hup => absurd hup (Int.not_le.mpr hdown), fun _ => ⟨hn, hposition⟩⟩ hcount
    · rintro rfl
      obtain ⟨hn, hposition⟩ := hcount.down hdown
      exact ⟨hn, (fitsBack_iff ha hb hfrom hto hn).mpr hposition⟩

/-- From the end of a January one month fits before 30 March of a leap year, since two lead to the
31st. From noon of 31 March one year fits back to a time right after noon of 28 February of the year
before. -/
theorem unitsBetween_iff_monthEnds :
    ((0 : Int) ≤ 1 ∧ Fits .month ⟨738915, 0, 0⟩ ⟨738974, 0, 0⟩ 1) ∧
      ((-1 : Int) ≤ 0 ∧ FitsBack .year ⟨738975, 43200, 0⟩ ⟨738578, 43200, 1⟩ (-1)) :=
  ⟨((unitsBetween_iff .month ⟨by decide, by decide⟩ ⟨by decide, by decide⟩ (by decide +kernel)
      (by decide +kernel)).1 (by decide) 1).mpr (by decide +kernel),
    ((unitsBetween_iff .year ⟨by decide, by decide⟩ ⟨by decide, by decide⟩ (by decide +kernel)
      (by decide +kernel)).2 (by decide) (-1)).mpr (by decide +kernel)⟩

end Timestamp

end LinkQuery.Time
