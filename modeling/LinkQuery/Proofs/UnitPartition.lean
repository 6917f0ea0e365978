import LinkQuery.Proofs.UnitCounts
/-!
# Units partition time

The units of one kind are numbered through time: those of seconds by the seconds since day 0, those
of months by the months since the year 0. A timestamp stands at or behind the start of a unit
exactly where its own unit has that number or a larger one. So each timestamp lies in one unit, which
later timestamps only leave for later units, and a move by units adds to the number of a start.

- `TimeUnit.start`: the start of the unit with a number.
- `TimeUnit.numberOf`: the number of the unit that holds a timestamp.

Main statements:
- `TimeUnit.start_le_iff`: starts and numbers tell the same order.
- `Timestamp.truncate_eq_start`, `TimeUnit.moved_start`: truncation and moves in terms of numbers.
- `TimeUnit.partitions_time`: units neither overlap nor leave gaps.
-/
namespace LinkQuery.Time

open Zone (readingSeconds)

/-! ## Numbers of units -/

/-- The start of the unit with a number. -/
def TimeUnit.start (unit : TimeUnit) (k : Int) : Timestamp :=
  match unit.extent with
  | .seconds count => (⟨0, 0, 0⟩ : Timestamp).moveSeconds (k * count)
  | .months count => ⟨monthStart (k * count), 0, 0⟩

/-- The number of the unit that holds a timestamp. -/
def TimeUnit.numberOf (unit : TimeUnit) (t : Timestamp) : Int :=
  match unit.extent with
  | .seconds count => readingSeconds t / count
  | .months count => t.date.monthNumber / count

namespace Timestamp

variable {a b t : Timestamp} {unit : TimeUnit}

theorem IsPlain.isOrdinary (h : t.IsPlain) : t.IsOrdinary :=
  ⟨h.1, by rw [h.2]; decide⟩

/-- Starts of seconds are told by their seconds. -/
theorem IsPlain.eq_of_readingSeconds (ha : a.IsPlain) (hb : b.IsPlain)
    (h : readingSeconds a = readingSeconds b) : a = b := by
  obtain ⟨hsecond, hnano⟩ := ha
  obtain ⟨hsecond', hnano'⟩ := hb
  obtain ⟨day, second, nano⟩ := a
  obtain ⟨day', second', nano'⟩ := b
  simp only [readingSeconds, secondsPerDay] at h hsecond hsecond'
  simp only at hnano hnano'
  simp only [mk.injEq]
  omega

/-- A timestamp stands at or behind the start of a second that it has reached. -/
theorem IsPlain.nanos_le_iff (ha : a.IsPlain) (hb : b.IsOrdinary) :
    a.nanos ≤ b.nanos ↔ readingSeconds a ≤ readingSeconds b := by
  have hnano := hb.nano
  simp only [nanosPerSecond] at hnano
  simp only [nanos, ha.2, nanosPerSecond]
  omega

theorem midnight_plain (day : Int) : (⟨day, 0, 0⟩ : Timestamp).IsPlain :=
  ⟨Nat.zero_lt_succ _, rfl⟩

/-- A timestamp stands at or behind the midnights of its day and the days in front of it. -/
theorem midnight_le_iff {day : Int} (hb : b.second < secondsPerDay) :
    readingSeconds ⟨day, 0, 0⟩ ≤ readingSeconds b ↔ day ≤ b.day := by
  simp only [secondsPerDay] at hb
  simp only [readingSeconds, secondsPerDay]
  omega

end Timestamp

namespace TimeUnit

open Timestamp (midnight_plain)

variable {t : Timestamp} {unit : TimeUnit} {k n : Int}

theorem start_plain (unit : TimeUnit) (k : Int) : (unit.start k).IsPlain := by
  unfold start
  cases unit.extent with
  | seconds count => exact (midnight_plain 0).moveSeconds _
  | months count => exact midnight_plain _

section Extents

variable {count : Nat}

theorem readingSeconds_start (hextent : unit.extent = .seconds count) (k : Int) :
    readingSeconds (unit.start k) = k * count := by
  have hzero : readingSeconds ⟨0, 0, 0⟩ = 0 := by decide
  simp only [start, hextent, Timestamp.readingSeconds_moveSeconds, hzero, Int.zero_add]

theorem start_months (hextent : unit.extent = .months count) (k : Int) :
    unit.start k = ⟨monthStart (k * count), 0, 0⟩ := by
  simp only [start, hextent]

theorem numberOf_seconds (hextent : unit.extent = .seconds count) (t : Timestamp) :
    unit.numberOf t = readingSeconds t / count := by
  simp only [numberOf, hextent]

theorem numberOf_months (hextent : unit.extent = .months count) (t : Timestamp) :
    unit.numberOf t = t.date.monthNumber / count := by
  simp only [numberOf, hextent]

end Extents

/-- A timestamp has reached the starts of its own unit and of those in front of it. -/
theorem start_le_iff (ht : t.IsOrdinary) :
    (unit.start k).nanos ≤ t.nanos ↔ k ≤ unit.numberOf t := by
  rw [(start_plain unit k).nanos_le_iff ht]
  cases hextent : unit.extent with
  | seconds count =>
    rw [readingSeconds_start hextent, numberOf_seconds hextent,
      Int.le_ediv_iff_mul_le (Timestamp.extent_pos (Or.inl hextent))]
  | months count =>
    obtain ⟨hlow, hhigh⟩ := Timestamp.within_month t
    rw [start_months hextent, numberOf_months hextent, Timestamp.midnight_le_iff ht.second,
      Int.le_ediv_iff_mul_le (Timestamp.extent_pos (Or.inr hextent))]
    constructor
    · intro h
      have := monthStart_lt_iff.mp (Int.lt_of_le_of_lt h hhigh)
      omega
    · intro h
      exact Int.le_trans (monthStart_le_of_le h) hlow

theorem numberOf_start (unit : TimeUnit) (k : Int) : unit.numberOf (unit.start k) = k := by
  cases hextent : unit.extent with
  | seconds count =>
    rw [numberOf_seconds hextent, readingSeconds_start hextent,
      Int.mul_ediv_cancel _ (Int.ne_of_gt (Timestamp.extent_pos (Or.inl hextent)))]
  | months count =>
    have hnumber : (Date.ofDayNumber (monthStart (k * count))).monthNumber = k * count := by
      rw [Date.ofDayNumber_monthStart]
      simp only [Date.monthNumber]
      omega
    rw [numberOf_months hextent, start_months hextent]
    show (Date.ofDayNumber (monthStart (k * count))).monthNumber / count = k
    rw [hnumber, Int.mul_ediv_cancel _ (Int.ne_of_gt (Timestamp.extent_pos (Or.inr hextent)))]

/-- Units with larger numbers start later. -/
theorem start_le_start_iff {j : Int} :
    (unit.start k).nanos ≤ (unit.start j).nanos ↔ k ≤ j := by
  rw [start_le_iff (start_plain unit j).isOrdinary, numberOf_start]

/-- A timestamp lies in the unit with its number: behind its start and in front of the next one. -/
theorem numberOf_eq_iff (ht : t.IsOrdinary) : unit.numberOf t = k ↔
    (unit.start k).nanos ≤ t.nanos ∧ t.nanos < (unit.start (k + 1)).nanos := by
  rw [← Int.not_le, start_le_iff ht, start_le_iff ht]
  omega

/-- A start is moved by as many units as its number grows. -/
theorem moved_start (unit : TimeUnit) (k n : Int) :
    (unit.start k).moved n unit = unit.start (k + n) := by
  have hplain := start_plain unit k
  cases hextent : unit.extent with
  | seconds count =>
    have hmoved : (unit.start k).moved n unit = (unit.start k).moveSeconds (n * count) := by
      simp only [Timestamp.moved, hextent, hplain.addSeconds]
    rw [hmoved]
    refine (hplain.moveSeconds _).eq_of_readingSeconds (start_plain unit _) ?_
    rw [Timestamp.readingSeconds_moveSeconds, readingSeconds_start hextent,
      readingSeconds_start hextent, Int.add_mul]
  | months count =>
    rw [start_months hextent, start_months hextent, Int.add_mul]
    simp only [Timestamp.moved, hextent, Timestamp.addMonths, Timestamp.date,
      Date.dayNumber_addMonths_monthStart]

theorem shift_start (unit : TimeUnit) (k n : Int) : (unit.start k).shift n unit =
    if (unit.start (k + n)).inRange then some (unit.start (k + n)) else none := by
  rw [← moved_start]
  rfl

/-- What is reached from a start is a start. -/
theorem eq_of_shift_start {reached : Timestamp} (h : (unit.start k).shift n unit = some reached) :
    reached = unit.start (k + n) := by
  rw [shift_start, Option.ite_none_right_eq_some] at h
  exact (Option.some.inj h.2).symm

end TimeUnit

/-! ## The partition -/

namespace Timestamp

variable {a b t : Timestamp} {unit : TimeUnit}

/-- The start of the unit that holds a timestamp is the one with its number. -/
theorem truncate_eq_start (ht : t.second < secondsPerDay) (unit : TimeUnit) :
    t.truncate unit = unit.start (unit.numberOf t) := by
  cases hextent : unit.extent with
  | seconds count =>
    refine (truncate_plain ht unit).eq_of_readingSeconds (TimeUnit.start_plain unit _) ?_
    rw [readingSeconds_truncate ht hextent, TimeUnit.readingSeconds_start hextent,
      TimeUnit.numberOf_seconds hextent]
  | months count =>
    rw [truncate_months t hextent, TimeUnit.start_months hextent, TimeUnit.numberOf_months hextent]

theorem truncate_le_self (ht : t.IsOrdinary) (unit : TimeUnit) :
    (t.truncate unit).nanos ≤ t.nanos := by
  rw [truncate_eq_start ht.second, TimeUnit.start_le_iff ht]

theorem truncate_ordinary (ht : t.IsOrdinary) (unit : TimeUnit) : (t.truncate unit).IsOrdinary :=
  (truncate_plain ht.second unit).isOrdinary

theorem truncate_start (unit : TimeUnit) (k : Int) :
    (unit.start k).truncate unit = unit.start k := by
  rw [truncate_eq_start (TimeUnit.start_plain unit k).1, TimeUnit.numberOf_start]

/-- Later timestamps do not stand in earlier units. -/
theorem truncate_mono (ha : a.IsOrdinary) (hb : b.IsOrdinary) (unit : TimeUnit)
    (h : a.nanos ≤ b.nanos) : (a.truncate unit).nanos ≤ (b.truncate unit).nanos := by
  rw [truncate_eq_start ha.second, truncate_eq_start hb.second, TimeUnit.start_le_start_iff,
    ← TimeUnit.start_le_iff hb]
  exact Int.le_trans ((TimeUnit.start_le_iff ha).mpr (Int.le_refl _)) h

/-- Two units of a kind have one start only if they have one number. -/
theorem truncate_eq_start_iff (ht : t.IsOrdinary) {k : Int} : t.truncate unit = unit.start k ↔
    (unit.start k).nanos ≤ t.nanos ∧ t.nanos < (unit.start (k + 1)).nanos := by
  rw [truncate_eq_start ht.second, ← TimeUnit.numberOf_eq_iff ht]
  constructor
  · intro h
    rw [← TimeUnit.numberOf_start unit (unit.numberOf t), h, TimeUnit.numberOf_start]
  · intro h
    rw [h]

/-- The start of a unit is kept, unless it is a Monday in front of the first day. -/
theorem truncate_inRange (ht : t.IsOrdinary) (h : t.inRange = true) (unit : TimeUnit) :
    (t.truncate unit).inRange = true ∨
      unit = .week ∧ t.day - daysSinceMonday t.day < firstDay := by
  have hlast := day_truncate_le ht.second unit
  simp only [inRange, Bool.and_eq_true, decide_eq_true_eq] at h ⊢
  -- Units other than weeks start with the first day.
  have hfirst : truncate ⟨firstDay, 0, 0⟩ unit = ⟨firstDay, 0, 0⟩ →
      firstDay ≤ (t.truncate unit).day := by
    intro hstart
    have hplain := midnight_plain firstDay
    have hreached := (hplain.nanos_le_iff ht).mpr ((midnight_le_iff ht.second).mpr h.1)
    have hmono := truncate_mono hplain.isOrdinary ht unit hreached
    rw [hstart, hplain.nanos_le_iff (truncate_ordinary ht unit),
      midnight_le_iff (truncate_ordinary ht unit).second] at hmono
    exact hmono
  by_cases hweek : unit = .week
  · subst hweek
    have hday : (t.truncate .week).day = t.day - daysSinceMonday t.day := rfl
    rcases lt_or_ge (t.day - daysSinceMonday t.day) firstDay with hlost | hkept
    · exact Or.inr ⟨rfl, hlost⟩
    · exact Or.inl (by omega)
  · have hkept : firstDay ≤ (t.truncate unit).day := by
      cases unit <;> first | exact absurd rfl hweek | exact hfirst (by decide +kernel)
    exact Or.inl ⟨hkept, by omega⟩

end Timestamp

open Timestamp

/-- The start of a unit stands at or before a timestamp, the next start behind it, and a start is
the start of its own unit. Later timestamps have later starts. What is reached from a start is a
start, one unit at a time, and the timestamps between it and the next start are those that have it
as their start; every start is reached. The start is kept with the timestamp, unless it is a Monday
in front of the first day. -/
theorem TimeUnit.partitions_time (unit : TimeUnit) {t : Timestamp} (ht : t.IsOrdinary) :
    (t.inRange = true → (t.truncate unit).inRange = true ∨
      unit = .week ∧ t.day - daysSinceMonday t.day < firstDay) ∧
    (t.truncate unit).order t ≠ .gt ∧
    (∀ next, (t.truncate unit).shift 1 unit = some next → t.order next = .lt) ∧
    (t.truncate unit).truncate unit = t.truncate unit ∧
    (∀ later : Timestamp, later.IsOrdinary → t.order later ≠ .gt →
      (t.truncate unit).order (later.truncate unit) ≠ .gt) ∧
    (∀ n start, (t.truncate unit).shift n unit = some start →
      start.truncate unit = start ∧
      (t.truncate unit).shift (n + 1) unit = start.shift 1 unit ∧
      ∀ next, start.shift 1 unit = some next → ∀ other : Timestamp, other.IsOrdinary →
        (other.truncate unit = start ↔ start.order other ≠ .gt ∧ other.order next = .lt)) ∧
    ∀ other : Timestamp, other.IsOrdinary → (other.truncate unit).inRange = true →
      ∃ n, (t.truncate unit).shift n unit = some (other.truncate unit) := by
  have hstart := truncate_eq_start ht.second unit
  have hordinary := fun k => (start_plain unit k).isOrdinary
  have hself := (truncate_eq_start_iff ht).mp hstart
  refine ⟨fun hrange => truncate_inRange ht hrange unit, ?_, ?_, ?_, ?_, ?_, ?_⟩
  · rw [order_not_gt_iff (truncate_ordinary ht unit) ht]
    exact truncate_le_self ht unit
  · intro next hnext
    rw [hstart] at hnext
    obtain rfl := eq_of_shift_start hnext
    exact (order_eq_lt_iff ht (hordinary _)).mpr hself.2
  · rw [hstart, truncate_start]
  · intro later hlater hle
    rw [order_not_gt_iff (truncate_ordinary ht unit) (truncate_ordinary hlater unit)]
    exact truncate_mono ht hlater unit ((order_not_gt_iff ht hlater).mp hle)
  · intro n start hreached
    rw [hstart] at hreached ⊢
    obtain rfl := eq_of_shift_start hreached
    refine ⟨truncate_start unit _, ?_, fun next hnext other hother => ?_⟩
    · rw [shift_start, shift_start, Int.add_assoc]
    · obtain rfl := eq_of_shift_start hnext
      rw [truncate_eq_start_iff hother, order_not_gt_iff (hordinary _) hother,
        order_eq_lt_iff hother (hordinary _)]
  · intro other hother hrange
    rw [truncate_eq_start hother.second] at hrange ⊢
    refine ⟨unit.numberOf other - unit.numberOf t, ?_⟩
    rw [hstart, shift_start, add_sub_cancel, if_pos hrange]

/-- The week around a new year runs from the Monday in front of it to the one behind. -/
theorem TimeUnit.partitions_time_newYear :
    truncate ⟨739251, 55800, 5⟩ .week = ⟨739249, 0, 0⟩ ∧
    order ⟨739251, 55800, 5⟩ ⟨739256, 0, 0⟩ = .lt ∧
    ∀ other : Timestamp, other.IsOrdinary → (other.truncate .week = ⟨739249, 0, 0⟩ ↔
      order ⟨739249, 0, 0⟩ other ≠ .gt ∧ other.order ⟨739256, 0, 0⟩ = .lt) := by
  have hstart : truncate ⟨739251, 55800, 5⟩ .week = ⟨739249, 0, 0⟩ := by decide
  obtain ⟨-, -, hnext, -, -, hunits, -⟩ := TimeUnit.partitions_time .week
    (show IsOrdinary ⟨739251, 55800, 5⟩ from ⟨by decide, by decide⟩)
  have hreached : (truncate ⟨739251, 55800, 5⟩ .week).shift 0 .week = some ⟨739249, 0, 0⟩ := by
    decide +kernel
  exact ⟨hstart, hnext _ (by decide +kernel),
    (hunits 0 ⟨739249, 0, 0⟩ hreached).2.2 ⟨739256, 0, 0⟩ (by decide +kernel)⟩

end LinkQuery.Time
