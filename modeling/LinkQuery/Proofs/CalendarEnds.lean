import LinkQuery.Proofs.ValueLogs
import LinkQuery.Proofs.WallClocks
/-!
# Relative time at the ends of the calendar

Timestamps are kept for a bounded range of years. Moves by units are checked against it. The
conversions to local time and back are not, and neither is the way back to a Monday. They overflow
when the present, or a local time that the present is moved to, stands in the first week or on the
last day of that range. Everywhere else there is a timestamp that is kept, or the move is refused.

Main statements:
- `Zone.moved_kept`, `Period.resolve_kept`: moves and periods, for any database of zones.
- `Timestamp.shift_least`: the least signed number of units leads out of the range.
-/
namespace LinkQuery

/-! ## Refusals -/

/-- The result satisfies `P`, or the expression is refused as invalid; if it overflows instead, this
has a reason. -/
def KeptUnless {α : Type} (P : α → Prop) (reason : Prop) (r : Except QueryError α) : Prop :=
  (∃ a, r = .ok a ∧ P a) ∨ (∃ cause, r = invalid cause) ∨ r = .error .overflow ∧ reason

theorem Yields.keptUnless {α : Type} {P : α → Prop} {reason : Prop} {r : Except QueryError α}
    (h : Yields P r) (hreason : r = .error .overflow → reason) : KeptUnless P reason r := by
  cases r with
  | ok a => exact Or.inl ⟨a, rfl, h⟩
  | error why =>
    cases why with
    | mismatch reason index remaining => exact h.elim
    | invalid cause => exact Or.inr (Or.inl ⟨cause, rfl⟩)
    | internal cause => exact h.elim
    | overflow => exact Or.inr (Or.inr ⟨rfl, hreason rfl⟩)

theorem KeptUnless.of_ok {α : Type} {P : α → Prop} {reason : Prop} {r : Except QueryError α}
    {a : α} (h : KeptUnless P reason r) (hr : r = .ok a) : P a := by
  subst hr
  rcases h with ⟨_, hfound, ha⟩ | ⟨cause, hlost⟩ | ⟨hlost, -⟩
  · obtain rfl := Except.ok.inj hfound
    exact ha
  · cases hlost
  · cases hlost

namespace Time

open Zone (readingSeconds)

/-! ## The range of timestamps -/

theorem firstDay_eq : Timestamp.firstDay = monthStart (Date.firstYear * 12) := by
  decide +kernel

theorem lastDay_eq : Timestamp.lastDay + 1 = monthStart ((Date.lastYear + 1) * 12) := by
  decide +kernel

/-- The days of the years that dates are kept in. -/
theorem Date.dayNumber_of_isValid {d : Date} (h : d.isValid = true) :
    Timestamp.firstDay ≤ d.dayNumber ∧ d.dayNumber ≤ Timestamp.lastDay := by
  simp only [isValid, Bool.and_eq_true, decide_eq_true_eq] at h
  obtain ⟨⟨⟨hfirst, hlast⟩, hday⟩, hlength⟩ := h
  obtain ⟨hone, htwelve, hlow, hhigh⟩ := within_month hday hlength
  have hmonths : firstYear * 12 ≤ d.monthNumber ∧ d.monthNumber + 1 ≤ (lastYear + 1) * 12 := by
    unfold monthNumber
    omega
  have hfrom := monthStart_le_of_le hmonths.1
  have hto := monthStart_le_of_le hmonths.2
  rw [← firstDay_eq] at hfrom
  rw [← lastDay_eq] at hto
  omega

namespace Timestamp

variable {t moved : Timestamp} {amount : Int} {unit : TimeUnit}

/-- The timestamp stands in the first week or on the last day that timestamps are kept for. -/
def NearEnd (t : Timestamp) : Prop := t.day < firstDay + 7 ∨ lastDay ≤ t.day

theorem inRange_of_shift (h : t.shift amount unit = some moved) : moved.inRange = true := by
  unfold shift at h
  obtain ⟨hrange, hsome⟩ := Option.ite_none_right_eq_some.mp h
  obtain rfl := Option.some.inj hsome
  exact hrange

/-- A timestamp that is read is kept. -/
theorem ofText?_inRange {text : String} (h : ofText? text = some t) : t.inRange = true := by
  obtain ⟨year, month, day, hour, minute, second, nano, hparts⟩ := scan?_parts h
  simp only [ofParts?] at hparts
  split at hparts
  · rename_i hvalid
    simp only [Bool.and_eq_true] at hvalid
    have hday := Date.dayNumber_of_isValid hvalid.1.1.1.1
    simp only [inRange, Bool.and_eq_true, decide_eq_true_eq]
    split at hparts <;> obtain rfl := Option.some.inj hparts <;> exact hday
  · cases hparts

theorem second_addSeconds (t : Timestamp) (seconds : Int) :
    (t.addSeconds seconds).second < secondsPerDay := by
  unfold addSeconds
  split
  · exact second_moveSeconds _ _
  · split <;> exact second_moveSeconds _ _

theorem second_shift (ht : t.second < secondsPerDay) (h : t.shift amount unit = some moved) :
    moved.second < secondsPerDay := by
  cases hextent : unit.extent with
  | seconds count =>
    rw [eq_of_shift_seconds hextent h]
    exact second_addSeconds t _
  | months count =>
    rw [eq_of_shift_months hextent h]
    exact ht

/-- Less than a day leads at most to the next day or to the one in front. -/
theorem day_addSeconds (ht : t.second < secondsPerDay) (seconds : Int)
    (hback : -(secondsPerDay : Int) < seconds) (hforth : seconds < secondsPerDay) :
    t.day - 1 ≤ (t.addSeconds seconds).day ∧ (t.addSeconds seconds).day ≤ t.day + 1 := by
  have hmove : ∀ nano (moved : Int), -(secondsPerDay : Int) < moved → moved < secondsPerDay →
      t.day - 1 ≤ ((⟨t.day, t.second, nano⟩ : Timestamp).moveSeconds moved).day ∧
        ((⟨t.day, t.second, nano⟩ : Timestamp).moveSeconds moved).day ≤ t.day + 1 := by
    intro nano moved hlow hhigh
    simp only [moveSeconds, secondsPerDay] at ht hlow hhigh ⊢
    omega
  unfold addSeconds
  split
  · exact hmove _ _ hback hforth
  · split
    · rename_i hseconds
      simp only [Bool.and_eq_true, decide_eq_true_eq] at hseconds
      exact hmove _ _ (by omega) (by unfold secondsPerDay; omega)
    · exact hmove _ _ hback hforth

/-- What leaves the range within a day stood near an end of it. -/
theorem nearEnd_of_moved (hout : moved.inRange = false) (hlow : t.day - 1 ≤ moved.day)
    (hhigh : moved.day ≤ t.day + 1) : t.NearEnd := by
  simp only [inRange, Bool.and_eq_false_iff, decide_eq_false_iff_not] at hout
  unfold NearEnd
  omega

theorem day_truncate_le (ht : t.second < secondsPerDay) (unit : TimeUnit) :
    (t.truncate unit).day ≤ t.day := by
  have hle := truncate_le ht unit
  simp only [readingSeconds, secondsPerDay] at hle ht
  omega

/-- A start in front of the first day is that of the first week. -/
theorem firstDay_le_truncate (h : firstDay ≤ t.day) (unit : TimeUnit) :
    firstDay ≤ (t.truncate unit).day ∨ t.day < firstDay + 6 := by
  have hmonths : ∀ count : Nat, unit.extent = .months count →
      Date.firstYear * 12 / count * count = Date.firstYear * 12 →
      firstDay ≤ (t.truncate unit).day := by
    intro count hextent hwhole
    have hmonth : Date.firstYear * 12 < t.date.monthNumber + 1 := by
      refine monthStart_lt_iff.mp ?_
      rw [← firstDay_eq]
      exact Int.lt_of_le_of_lt h (within_month t).2
    have hcount := extent_pos (Or.inr hextent)
    have hmultiple : Date.firstYear * 12 ≤ t.date.monthNumber / count * count := by
      rw [← hwhole]
      exact Int.mul_le_mul_of_nonneg_right
        (Int.ediv_le_ediv hcount (Int.lt_add_one_iff.mp hmonth)) (Int.le_of_lt hcount)
    rw [truncate_months t hextent, firstDay_eq]
    exact monthStart_le_of_le hmultiple
  cases unit with
  | second => exact Or.inl h
  | minute => exact Or.inl h
  | hour => exact Or.inl h
  | day => exact Or.inl h
  | week =>
    simp only [truncate, daysSinceMonday]
    omega
  | month => exact Or.inl (hmonths 1 rfl (by decide))
  | quarter => exact Or.inl (hmonths 3 rfl (by decide))
  | year => exact Or.inl (hmonths 12 rfl (by decide))

/-- The start of a unit only leaves the range in the first week, on the way back to a Monday. -/
theorem day_of_truncate_lost (ht : t.second < secondsPerDay) (h : t.inRange = true)
    (hlost : (t.truncate unit).inRange = false) : t.day < firstDay + 6 := by
  have hle := day_truncate_le ht unit
  simp only [inRange, Bool.and_eq_true, decide_eq_true_eq] at h
  simp only [inRange, Bool.and_eq_false_iff, decide_eq_false_iff_not] at hlost
  have hfirst := firstDay_le_truncate h.1 unit
  omega

/-- A move by months leads into the month with the moved number. -/
theorem day_addMonths (t : Timestamp) (count : Int) :
    monthStart (t.date.monthNumber + count) ≤ (t.addMonths count).day ∧
      (t.addMonths count).day < monthStart (t.date.monthNumber + count + 1) := by
  obtain ⟨-, -, hday, -⟩ := Date.ofDayNumber_exists t.day
  have hlength := @monthLength_pos ((t.date.monthNumber + count) / 12)
    ((t.date.monthNumber + count) % 12).toNat (by omega)
  have hnumber : (t.date.addMonths count).monthNumber = t.date.monthNumber + count := by
    simp only [Date.addMonths, Date.monthNumber]
    omega
  obtain ⟨-, -, hlow, hhigh⟩ := @Date.within_month (t.date.addMonths count)
    (Nat.le_min.mpr ⟨hday, hlength⟩) (Nat.min_le_right _ _)
  rw [hnumber] at hlow hhigh
  exact ⟨hlow, hhigh⟩

/-- The months of the years that timestamps are kept in. -/
theorem monthNumber_of_inRange (h : t.inRange = true) :
    Date.firstYear * 12 ≤ t.date.monthNumber ∧
      t.date.monthNumber < (Date.lastYear + 1) * 12 := by
  obtain ⟨hlow, hhigh⟩ := within_month t
  simp only [inRange, Bool.and_eq_true, decide_eq_true_eq] at h
  have hfirst : monthStart (Date.firstYear * 12) < monthStart (t.date.monthNumber + 1) := by
    rw [← firstDay_eq]
    omega
  have hlast : monthStart t.date.monthNumber < monthStart ((Date.lastYear + 1) * 12) := by
    rw [← lastDay_eq]
    omega
  have := monthStart_lt_iff.mp hfirst
  exact ⟨by omega, monthStart_lt_iff.mp hlast⟩

/-- Moves of the length of the least signed number lead out of the range. -/
theorem shift_least (ht : t.second < secondsPerDay) (h : t.inRange = true)
    (hamount : amount ≤ -(Text.bitBound 63 : Int)) (unit : TimeUnit) :
    t.shift amount unit = none := by
  rw [Option.eq_none_iff_forall_ne_some]
  intro moved hmoved
  have hrange := inRange_of_shift hmoved
  have hbound : (Text.bitBound 63 : Int) = 9223372036854775808 := by decide
  cases hextent : unit.extent with
  | seconds count =>
    have hpos := extent_pos (Or.inl hextent)
    have hfar : amount * count ≤ amount * 1 := Int.mul_le_mul_of_nonpos_left (by omega) (by omega)
    have hkept : lastDay < firstDay + 200000000 := by decide +kernel
    have hback : ∀ nano (seconds : Int), seconds ≤ amount + 1 →
        ((⟨t.day, t.second, nano⟩ : Timestamp).moveSeconds seconds).inRange ≠ true := by
      intro nano seconds hseconds hin
      simp only [inRange, Bool.and_eq_true, decide_eq_true_eq] at h hin
      simp only [moveSeconds, secondsPerDay] at ht hin
      omega
    rw [eq_of_shift_seconds hextent hmoved] at hrange
    unfold addSeconds at hrange
    split at hrange
    · exact hback _ _ (by omega) hrange
    · split at hrange
      · exact hback _ _ (by omega) hrange
      · exact hback _ _ (by omega) hrange
  | months count =>
    have hpos := extent_pos (Or.inr hextent)
    have hfar : amount * count ≤ amount * 1 := Int.mul_le_mul_of_nonpos_left (by omega) (by omega)
    have hback := (day_addMonths t (amount * count)).2
    rw [eq_of_shift_months hextent hmoved] at hrange
    simp only [inRange, Bool.and_eq_true, decide_eq_true_eq] at hrange
    have hfirst : monthStart (Date.firstYear * 12) <
        monthStart (t.date.monthNumber + amount * count + 1) := by
      rw [← firstDay_eq]
      omega
    have hmonth := (monthNumber_of_inRange h).2
    have hbehind := monthStart_lt_iff.mp hfirst
    simp only [Date.firstYear, Date.lastYear] at hmonth hbehind
    omega

end Timestamp

/-! ## Moves and periods -/

namespace Zone

variable {N : Type} [ZoneRules N] {z : Zone N} {t now moved : Timestamp} {amount : Int}
  {unit : TimeUnit}

/-- A local clock is at most in the next day or in the one in front. -/
theorem day_toLocal (hz : z.Lawful) (ht : t.second < secondsPerDay) :
    t.day - 1 ≤ (z.toLocal t).day ∧ (z.toLocal t).day ≤ t.day + 1 := by
  have hsecond := z.second_toLocal t
  have hreading := z.readingSeconds_toLocal t
  have hnear := hz.near (readingSeconds t)
  rw [← hreading] at hnear
  simp only [readingSeconds, secondsPerDay] at hnear ht hsecond
  omega

/-- A local time whose instant is not kept stands near an end of the calendar. -/
theorem nearEnd_of_toUtc (hz : z.Lawful) (ht : t.second < secondsPerDay)
    (hout : (z.toUtc t).inRange = false) : t.NearEnd := by
  cases z with
  | fixed offset =>
    have hoffset : -(secondsPerDay : Int) < offset ∧ offset < secondsPerDay := hz
    obtain ⟨hlow, hhigh⟩ := Timestamp.day_addSeconds ht (-offset) (by omega) (by omega)
    exact Timestamp.nearEnd_of_moved hout hlow hhigh
  | named zone =>
    unfold toUtc at hout
    dsimp only at hout
    cases hshown : shownAt? zone t with
    | none =>
      have hoffset := ZoneRules.Lawful.near hz (readingSeconds t)
      obtain ⟨hlow, hhigh⟩ := Timestamp.day_addSeconds ht
        (-ZoneRules.offsetAt zone (readingSeconds t)) (by omega) (by omega)
      rw [hshown, Option.getD_none] at hout
      exact Timestamp.nearEnd_of_moved hout hlow hhigh
    | some instant =>
      rw [hshown, Option.getD_some, (Option.filter_eq_some_iff.mp hshown).2] at hout
      cases hout

theorem moved_inRange (h : z.moved now amount unit = .ok moved) : moved.inRange = true := by
  obtain ⟨shown, -, hrest⟩ := bind_eq_ok h
  obtain ⟨there, -, hback⟩ := bind_eq_ok hrest
  obtain ⟨rfl, hrange⟩ := Timestamp.kept_eq_ok.mp hback
  exact hrange

/-- The present, or the local time that it is moved to, stands near an end of the calendar. -/
def MovesNearEnd (zone : Zone N) (now : Timestamp) (amount : Int) (unit : TimeUnit) : Prop :=
  now.NearEnd ∨ ∃ there, (zone.toLocal now).shift amount unit = some there ∧ there.NearEnd

/-- A move only overflows near an end of the calendar. -/
theorem moved_overflow (hz : z.Lawful) (hnow : now.second < secondsPerDay)
    (h : z.moved now amount unit = .error .overflow) : z.MovesNearEnd now amount unit := by
  obtain ⟨hlow, hhigh⟩ := day_toLocal hz hnow
  rcases bind_eq_error h with hlost | ⟨shown, hshown, hrest⟩
  · exact Or.inl (Timestamp.nearEnd_of_moved (Timestamp.kept_eq_error hlost) hlow hhigh)
  obtain ⟨rfl, -⟩ := Timestamp.kept_eq_ok.mp hshown
  rcases bind_eq_error hrest with hrefused | ⟨there, hthere, hback⟩
  · cases Timestamp.shifted_eq_error hrefused
  have hmove := Timestamp.shifted_eq_ok.mp hthere
  have hsecond := Timestamp.second_shift (z.second_toLocal now) hmove
  exact Or.inr ⟨there, hmove, nearEnd_of_toUtc hz hsecond (Timestamp.kept_eq_error hback)⟩

end Zone

namespace Period

variable {N : Type} [ZoneRules N] {zone : Zone N} {period : Period} {count : Nat} {now : Timestamp}

/-- Cutting a period on the local clock only overflows on the way back to a Monday. -/
theorem localSpan_overflow (h : period.localSpan count now = .error .overflow) :
    ∃ unit, (now.truncate unit).inRange = false := by
  have hcut : ∀ unit amount (pair : Timestamp → Timestamp → Timestamp × Timestamp), (do
      let cut ← (now.truncate unit).kept
      let moved ← cut.shifted amount unit
      return pair cut moved) = Except.error MoveError.overflow →
      ∃ unit, (now.truncate unit).inRange = false := by
    intro unit amount pair h
    rcases bind_eq_error h with hlost | ⟨cut, -, hrest⟩
    · exact ⟨unit, Timestamp.kept_eq_error hlost⟩
    · rcases bind_eq_error hrest with hrefused | ⟨moved, -, hpair⟩
      · cases Timestamp.shifted_eq_error hrefused
      · cases hpair
  cases period with
  | today => exact hcut .day 1 (fun cut moved => (cut, moved)) h
  | yesterday => exact hcut .day (-1) (fun cut moved => (moved, cut)) h
  | current unit => exact hcut unit 1 (fun cut moved => (cut, moved)) h
  | last unit => exact hcut unit (-count) (fun cut moved => (moved, cut)) h

theorem resolve_inRange {ends : Timestamp × Timestamp}
    (h : period.resolve count zone now = .ok ends) :
    ends.1.inRange = true ∧ ends.2.inRange = true := by
  obtain ⟨-, -, -, -, -, hstart, hfinish⟩ := resolve_eq_ok h
  exact ⟨hstart, hfinish⟩

/-- The present, or an end of the period on the local clock, stands near an end of the calendar. -/
def SpansNearEnd (period : Period) (count : Nat) (zone : Zone N) (now : Timestamp) : Prop :=
  now.NearEnd ∨ ∃ start finish, period.localSpan count (zone.toLocal now) = .ok (start, finish) ∧
    (start.NearEnd ∨ finish.NearEnd)

/-- A period only overflows near an end of the calendar. -/
theorem resolve_overflow (hz : zone.Lawful) (hnow : now.second < secondsPerDay)
    (h : period.resolve count zone now = .error .overflow) :
    period.SpansNearEnd count zone now := by
  obtain ⟨hlow, hhigh⟩ := Zone.day_toLocal hz hnow
  have hshownSecond := zone.second_toLocal now
  rcases bind_eq_error h with hlost | ⟨shown, hshown, hrest⟩
  · exact Or.inl (Timestamp.nearEnd_of_moved (Timestamp.kept_eq_error hlost) hlow hhigh)
  obtain ⟨rfl, hrange⟩ := Timestamp.kept_eq_ok.mp hshown
  rcases bind_eq_error hrest with hcut | ⟨⟨start, finish⟩, hlocal, hends⟩
  · obtain ⟨unit, hlost⟩ := localSpan_overflow hcut
    have hweek := Timestamp.day_of_truncate_lost hshownSecond hrange hlost
    exact Or.inl (Or.inl (by omega))
  have hseconds : start.second < secondsPerDay ∧ finish.second < secondsPerDay :=
    localSpan_ends (fun unit _ => (Timestamp.truncate_plain hshownSecond unit).1)
      (fun ht => Timestamp.second_shift ht) hlocal
  refine Or.inr ⟨start, finish, hlocal, ?_⟩
  rcases bind_eq_error hends with hlost | ⟨first, -, hend⟩
  · exact Or.inl (Zone.nearEnd_of_toUtc hz hseconds.1 (Timestamp.kept_eq_error hlost))
  · rcases bind_eq_error hend with hlost | ⟨last, -, hpair⟩
    · exact Or.inr (Zone.nearEnd_of_toUtc hz hseconds.2 (Timestamp.kept_eq_error hlost))
    · cases hpair

end Period

/-! ## Zones by name -/

namespace Zone

/-- What is relied on of zones holds of every zone that can be named. -/
theorem ofText?_lawful {text : String} {zone : Zone} (h : ofText? text = some zone) :
    zone.Lawful := by
  have hall : ∀ zone ∈ namedZones,
      (∀ offset ∈ zone.offsets, -(secondsPerDay : Int) < offset ∧ offset < secondsPerDay) ∧
        ∀ daylight ∈ zone.daylight, 0 ≤ daylight.ahead := by decide
  simp only [ofText?, ofTextIn] at h
  split at h
  · obtain rfl := Option.some.inj h
    exact ⟨by decide, by decide⟩
  · split at h
    · obtain rfl := Option.some.inj h
      exact (offset?_minutes ‹_›).2
    · obtain ⟨found, hfound, rfl⟩ := Option.map_eq_some_iff.mp h
      obtain ⟨hnear, hahead⟩ := hall found (List.mem_of_find?_eq_some hfound)
      exact NamedZone.lawful hnear hahead

end Zone

end Time

/-! ## Clocks -/

open Time (MoveError Period TimeUnit Timestamp Zone ZoneRules secondsPerDay)

theorem QueryError.ofMove_overflow {α : Type} {r : Except MoveError α}
    (h : r.mapError ofMove = .error .overflow) : r = .error .overflow := by
  cases r with
  | ok a => cases h
  | error why =>
    cases why with
    | outOfRange amount unit => cases h
    | overflow => rfl

namespace Clock

variable {clock : Clock} {name : Option String}

theorem zoneFor_lawful (hzone : clock.zone.Lawful) (name : Option String) :
    Yields Zone.Lawful (clock.zoneFor name) := by
  cases name with
  | none => exact hzone
  | some name =>
    show Yields Zone.Lawful (Settings.zoneNamed name)
    unfold Settings.zoneNamed
    split
    · exact Zone.ofText?_lawful ‹_›
    · trivial

/-- A clock shows timestamps that are kept, if its present is one. -/
theorem shows_kept (hnow : clock.now.inRange = true) :
    clock.Shows fun t => t.inRange = true := by
  refine ⟨fun name offset => ?_, fun period count name => ?_, fun _ _ h =>
    Timestamp.ofText?_inRange h⟩
  · refine (clock.zoneFor_yields name).bind fun zone _ => ?_
    cases offset with
    | none => exact hnow
    | some offset => exact Yields.ofMove fun _ hmoved => Zone.moved_inRange hmoved
  · refine (clock.zoneFor_yields name).bind fun zone _ => Yields.ofMove fun span hspan => ?_
    obtain ⟨-, -, -, -, -, hstart, hfinish⟩ := Period.resolve_eq_ok hspan
    exact ⟨hstart, hfinish⟩

/-- Looking up a zone does not overflow. -/
theorem zoneFor_ne_overflow (clock : Clock) (name : Option String) :
    clock.zoneFor name ≠ .error .overflow := by
  cases name with
  | none => simp [zoneFor]
  | some name =>
    show Settings.zoneNamed name ≠ _
    unfold Settings.zoneNamed
    split <;> simp [invalid]

/-- The present is taken as it is, without a conversion, where no move is written. -/
theorem nowIn_none_ne_overflow (clock : Clock) (name : Option String) :
    clock.nowIn name none ≠ .error .overflow := by
  intro h
  rcases bind_eq_error h with hlost | ⟨zone, -, hnow⟩
  · exact clock.zoneFor_ne_overflow name hlost
  · cases hnow

theorem nowIn_overflow (hzone : clock.zone.Lawful) (hnow : clock.now.second < secondsPerDay)
    {amount : Int} {unit : TimeUnit}
    (h : clock.nowIn name (some (amount, unit)) = .error .overflow) :
    ∃ zone, clock.zoneFor name = .ok zone ∧ zone.MovesNearEnd clock.now amount unit := by
  rcases bind_eq_error h with hlost | ⟨zone, hfound, hmove⟩
  · exact absurd hlost (zoneFor_ne_overflow clock name)
  · exact ⟨zone, hfound, Zone.moved_overflow ((zoneFor_lawful hzone name).of_ok hfound) hnow
      (QueryError.ofMove_overflow hmove)⟩

theorem periodSpan_overflow (hzone : clock.zone.Lawful) (hnow : clock.now.second < secondsPerDay)
    {period : Period} {count : Nat} (h : clock.periodSpan period count name = .error .overflow) :
    ∃ zone, clock.zoneFor name = .ok zone ∧ period.SpansNearEnd count zone clock.now := by
  rcases bind_eq_error h with hlost | ⟨zone, hfound, hspan⟩
  · exact absurd hlost (zoneFor_ne_overflow clock name)
  · exact ⟨zone, hfound, Period.resolve_overflow ((zoneFor_lawful hzone name).of_ok hfound) hnow
      (QueryError.ofMove_overflow hspan)⟩

end Clock

/-! ## Moves and periods in any database of zones -/

section Zones

variable {N : Type} [ZoneRules N] {zone : Zone N} {now : Timestamp}

theorem Time.Zone.moved_kept {amount : Int} {unit : TimeUnit} (hz : zone.Lawful)
    (hnow : now.second < secondsPerDay) :
    KeptUnless (fun moved => moved.inRange = true) (zone.MovesNearEnd now amount unit)
      ((zone.moved now amount unit).mapError QueryError.ofMove) :=
  (Yields.ofMove fun _ => Zone.moved_inRange).keptUnless fun hlost =>
    Zone.moved_overflow hz hnow (QueryError.ofMove_overflow hlost)

theorem Time.Period.resolve_kept {period : Period} {count : Nat} (hz : zone.Lawful)
    (hnow : now.second < secondsPerDay) :
    KeptUnless (fun ends => ends.1.inRange = true ∧ ends.2.inRange = true)
      (period.SpansNearEnd count zone now)
      ((period.resolve count zone now).mapError QueryError.ofMove) :=
  (Yields.ofMove fun _ => Period.resolve_inRange).keptUnless fun hlost =>
    Period.resolve_overflow hz hnow (QueryError.ofMove_overflow hlost)

end Zones

end LinkQuery
