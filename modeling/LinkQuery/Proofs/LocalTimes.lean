import LinkQuery.Proofs.CurrentPeriods
import LinkQuery.Proofs.CalendarEnds
/-!
# Local times and their instants

A local time is taken to the first instant that shows it. Where the clock jumps over a local time no
instant shows it, and the offset is looked up as if the local time were UTC. That is the offset in
front of the jump only where the local time, read as UTC, lies in front of the jump as well. So the
zones west of UTC keep to the offset in front of a gap, and those east of it take the one behind.

- `ShowsAt`: an instant shows a local time.
- `JumpsOver`: the local clock jumps over a local time.
- `ChangesAt`: one change of the offset, with steady days around it.

Main statements:
- `Zone.toUtc_shows`: the first instant that shows a local time.
- `Zone.ChangesAt.toUtc_gap`, `Zone.ChangesAt.toUtc_overlap`: local times around a change.
- `Zone.toUtc_local`: the instant of every local time away from the ends of the calendar.
-/
namespace LinkQuery.Time

open Zone (readingSeconds)

namespace Timestamp

variable {a b l : Timestamp}

/-- A time of day is told by its seconds and its nanoseconds. -/
theorem eq_of_readingSeconds (ha : a.second < secondsPerDay) (hb : b.second < secondsPerDay)
    (hseconds : readingSeconds a = readingSeconds b) (hnano : a.nano = b.nano) : a = b := by
  obtain ⟨day, second, nano⟩ := a
  obtain ⟨day', second', nano'⟩ := b
  simp only [readingSeconds, secondsPerDay] at ha hb hseconds
  simp only [mk.injEq]
  exact ⟨by omega, by omega, hnano⟩

/-- Of two timestamps with the same nanoseconds, the one with fewer seconds is not later. -/
theorem order_ne_gt_of_readingSeconds (ha : a.second < secondsPerDay) (hnano : a.nano = b.nano)
    (hb : b.second < secondsPerDay) (hle : readingSeconds a ≤ readingSeconds b) :
    a.order b ≠ .gt := by
  simp only [readingSeconds, secondsPerDay] at ha hb hle
  simp only [order, ne_eq, Ordering.then_eq_gt, compare_gt_iff_gt, compare_eq_iff_eq, hnano]
  omega

/-- A leap second counts as the second in front of it on the way forward and as the second after it
on the way back. -/
theorem addSeconds_leap (hleap : l.isLeap = true) (seconds : Int) :
    readingSeconds (l.addSeconds seconds) =
        readingSeconds l + (if seconds < 0 then seconds + 1 else seconds) ∧
      (l.addSeconds seconds).nano =
        if seconds = 0 then l.nano else l.nano - nanosPerSecond := by
  rcases lt_trichotomy seconds 0 with hback | rfl | hforth
  · have hmove : l.addSeconds seconds =
        { l with nano := l.nano - nanosPerSecond }.moveSeconds (seconds + 1) := by
      simp [addSeconds, hleap, hback, hback.not_gt]
    rw [hmove, readingSeconds_moveSeconds, if_pos hback, if_neg hback.ne]
    simp only [readingSeconds, moveSeconds, and_self]
  · have hmove : l.addSeconds 0 = l.moveSeconds 0 := by simp [addSeconds]
    rw [hmove, readingSeconds_moveSeconds]
    exact ⟨rfl, rfl⟩
  · have hmove : l.addSeconds seconds =
        { l with nano := l.nano - nanosPerSecond }.moveSeconds seconds := by
      simp [addSeconds, hleap, hforth]
    rw [hmove, readingSeconds_moveSeconds, if_neg hforth.not_gt, if_neg hforth.ne']
    simp only [readingSeconds, moveSeconds, and_self]

/-- Moves by different numbers of seconds lead apart, also out of a leap second. -/
theorem addSeconds_inj {m n : Int} : l.addSeconds m = l.addSeconds n ↔ m = n := by
  refine ⟨fun h => ?_, fun h => h ▸ rfl⟩
  have hseconds := congrArg readingSeconds h
  cases hleap : l.isLeap with
  | false =>
    simp only [addSeconds, hleap, Bool.false_and, Bool.false_eq_true, if_false,
      readingSeconds_moveSeconds] at hseconds
    omega
  | true =>
    have hlarge : nanosPerSecond ≤ l.nano := by simpa [isLeap] using hleap
    have hpos : 0 < nanosPerSecond := by decide
    have hnano := congrArg Timestamp.nano h
    rw [(addSeconds_leap hleap m).1, (addSeconds_leap hleap n).1] at hseconds
    rw [(addSeconds_leap hleap m).2, (addSeconds_leap hleap n).2] at hnano
    split_ifs at hseconds hnano <;> omega

end Timestamp

namespace Zone

variable {N : Type} [ZoneRules N] {z : Zone N} {zone : N} {l u : Timestamp}

/-! ## Instants that show a local time -/

/-- The local clock shows a local time at an instant. -/
def ShowsAt (z : Zone N) (l u : Timestamp) : Prop :=
  u.second < secondsPerDay ∧ z.toLocal u = l

/-- The local clock jumps over a local time behind the second `last`. -/
def JumpsOver (z : Zone N) (l : Timestamp) (last : Int) : Prop :=
  z.wallClock last < readingSeconds l ∧ readingSeconds l < z.wallClock (last + 1)

theorem nano_toLocal (z : Zone N) (u : Timestamp) : (z.toLocal u).nano = u.nano := by
  cases z <;> rfl

/-- What an instant shows is told by its seconds, and its nanoseconds are kept. -/
theorem showsAt_iff (hl : l.second < secondsPerDay) : z.ShowsAt l u ↔
    u.second < secondsPerDay ∧ z.wallClock (readingSeconds u) = readingSeconds l ∧
      u.nano = l.nano := by
  refine and_congr_right fun hu => ⟨?_, fun ⟨hseconds, hnano⟩ => ?_⟩
  · rintro rfl
    exact ⟨(z.readingSeconds_toLocal u).symm, (z.nano_toLocal u).symm⟩
  · refine Timestamp.eq_of_readingSeconds (z.second_toLocal u) hl ?_ ?_
    · rw [readingSeconds_toLocal, hseconds]
    · rw [nano_toLocal, hnano]

/-- A second at which the clock shows the seconds of a local time belongs to an instant. -/
theorem showsAt_moveSeconds (hl : l.second < secondsPerDay) (offset : Int)
    (h : z.wallClock (readingSeconds l - offset) = readingSeconds l) :
    z.ShowsAt l (l.moveSeconds (-offset)) :=
  (showsAt_iff hl).mpr ⟨Timestamp.second_moveSeconds l _,
    by rw [Timestamp.readingSeconds_moveSeconds]; exact h, rfl⟩

/-- Away from the ends of the calendar, the offset that is found for a local time is taken. -/
theorem toUtc_of_found (hz : ZoneRules.Lawful zone) (hl : l.second < secondsPerDay)
    (hend : ¬l.NearEnd) {offset : Int}
    (h : ZoneRules.offsetOfLocal? zone (readingSeconds l) = some offset) :
    Zone.toUtc (.named zone) l = l.moveSeconds (-offset) := by
  have hnear := hz.near (readingSeconds l - offset)
  rw [hz.shows _ _ h] at hnear
  have hday : l.day - 1 ≤ (l.moveSeconds (-offset)).day ∧
      (l.moveSeconds (-offset)).day ≤ l.day + 1 := by
    simp only [secondsPerDay] at hnear hl
    simp only [Timestamp.moveSeconds, secondsPerDay]
    omega
  have hkept : (l.moveSeconds (-offset)).inRange = true := by
    rw [← Bool.not_eq_false]
    exact fun hout => hend (Timestamp.nearEnd_of_moved hout hday.1 hday.2)
  simp only [toUtc, shownAt?, h, Option.map_some, Option.filter_some, hkept, if_true,
    Option.getD_some]

theorem toUtc_of_not_found (h : ZoneRules.offsetOfLocal? zone (readingSeconds l) = none) :
    Zone.toUtc (.named zone) l = l.addSeconds (-ZoneRules.offsetAt zone (readingSeconds l)) := by
  simp only [toUtc, shownAt?, h, Option.map_none, Option.filter_none, Option.getD_none]

/-- No instant shows a local time for which no offset is found. -/
theorem not_showsAt_iff (hz : ZoneRules.Lawful zone) (hl : l.second < secondsPerDay) :
    (∀ u, ¬(Zone.named zone).ShowsAt l u) ↔
      ZoneRules.offsetOfLocal? zone (readingSeconds l) = none := by
  constructor
  · intro hnever
    rw [Option.eq_none_iff_forall_ne_some]
    intro offset hfound
    refine hnever _ (showsAt_moveSeconds hl offset ?_)
    show _ + ZoneRules.offsetAt zone _ = _
    rw [hz.shows _ _ hfound]
    omega
  · intro hnone u hu
    exact hz.found _ hnone _ ((showsAt_iff hl).mp hu).2.1

/-- The zone keeps a leap second when a local time is taken back to UTC. -/
def KeepsLeap (z : Zone N) (l : Timestamp) : Prop :=
  l.isLeap = true → ∀ offset, z = .fixed offset → offset = 0

omit [ZoneRules N] in
theorem keepsLeap_named : (Zone.named zone).KeepsLeap l :=
  fun _ _ hfixed => by cases hfixed

/-- A local time that is shown is taken to the first instant that shows it. -/
theorem toUtc_shows (hz : z.Lawful) (hl : l.second < secondsPerDay) (hend : ¬l.NearEnd)
    (hleap : z.KeepsLeap l) (hu : z.ShowsAt l u) :
    z.ShowsAt l (z.toUtc l) ∧ readingSeconds (z.toUtc l) ≤ readingSeconds u := by
  obtain ⟨-, hshows, -⟩ := (showsAt_iff hl).mp hu
  obtain ⟨offset, hinstant, hfirst, hat⟩ : ∃ offset, z.toUtc l = l.moveSeconds (-offset) ∧
      readingSeconds l - offset ≤ readingSeconds u ∧
      z.wallClock (readingSeconds l - offset) = readingSeconds l := by
    cases z with
    | fixed offset =>
      refine ⟨offset, ?_, ?_, by simp only [wallClock]; omega⟩
      · show l.addSeconds (-offset) = _
        cases hl' : l.isLeap with
        | false => simp [Timestamp.addSeconds, hl']
        | true =>
          obtain rfl := hleap hl' offset rfl
          simp [Timestamp.addSeconds]
      · simp only [wallClock] at hshows
        omega
    | named zone =>
      cases hfound : ZoneRules.offsetOfLocal? zone (readingSeconds l) with
      | none => exact absurd hshows (ZoneRules.Lawful.found hz _ hfound _)
      | some offset =>
        refine ⟨offset, toUtc_of_found hz hl hend hfound,
          ZoneRules.Lawful.first hz _ _ hfound _ hshows, ?_⟩
        show _ + ZoneRules.offsetAt zone _ = _
        rw [ZoneRules.Lawful.shows hz _ _ hfound]
        omega
  rw [hinstant, Timestamp.readingSeconds_moveSeconds]
  exact ⟨showsAt_moveSeconds hl _ hat, hfirst⟩

/-- A leap second that a fixed zone shows is not found again, unless the zone is UTC. -/
theorem toUtc_fixed_leap {offset : Int} (hoffset : offset ≠ 0) (hleap : l.isLeap = true) :
    ¬(Zone.fixed offset : Zone N).ShowsAt l (toUtc (.fixed offset : Zone N) l) := by
  rintro ⟨-, hshows⟩
  have hnano := congrArg Timestamp.nano hshows
  rw [nano_toLocal] at hnano
  have hlarge : nanosPerSecond ≤ l.nano := by simpa [Timestamp.isLeap] using hleap
  have hpos : 0 < nanosPerSecond := by decide
  have hmoved := (Timestamp.addSeconds_leap hleap (-offset)).2
  rw [if_neg (by omega)] at hmoved
  have hsame : (l.addSeconds (-offset)).nano = l.nano := hnano
  omega

/-! ## Gaps -/

/-- A local time that no instant shows is jumped over. -/
theorem exists_jumpsOver (hz : z.Lawful) (hl : l.second < secondsPerDay)
    (hnever : ∀ u, ¬z.ShowsAt l u) : ∃ last, z.JumpsOver l last := by
  by_contra hnone
  have hrun : ∀ u, z.wallClock u < readingSeconds l → z.wallClock (u + 1) ≤ readingSeconds l :=
    fun u hu => Int.not_lt.mp fun hlt => hnone ⟨u, hu, hlt⟩
  have hearly := hz.near (readingSeconds l - secondsPerDay)
  have hlate := hz.near (readingSeconds l + secondsPerDay)
  obtain ⟨u, -, -, hshows⟩ := exists_shows hrun (a := readingSeconds l - secondsPerDay)
    (b := readingSeconds l + secondsPerDay) (by omega) (by omega) (by omega)
  refine hnever _ (showsAt_moveSeconds hl (readingSeconds l - u) ?_)
  rw [Int.sub_sub_self]
  exact hshows

/-! ## Changes of the offset -/

/-- The offset of a zone changes at an instant, from `before` to `after`, and at no other instant
of the two days in front of it and behind it. -/
structure ChangesAt (zone : N) (instant before after : Int) : Prop where
  early : ∀ u, instant - 2 * secondsPerDay ≤ u → u < instant → ZoneRules.offsetAt zone u = before
  late : ∀ u, instant ≤ u → u < instant + 2 * secondsPerDay → ZoneRules.offsetAt zone u = after

namespace ChangesAt

variable {instant before after : Int}

/-- The seconds that show a local time near a change have one of its two offsets. -/
theorem offset_of_shows (h : ChangesAt zone instant before after) (hz : ZoneRules.Lawful zone)
    {u : Int} (hfrom : instant - secondsPerDay ≤ wallClock (.named zone) u)
    (hto : wallClock (.named zone) u ≤ instant + secondsPerDay) :
    u < instant ∧ ZoneRules.offsetAt zone u = before ∨
      instant ≤ u ∧ ZoneRules.offsetAt zone u = after := by
  have hnear := hz.near u
  simp only [wallClock] at hfrom hto
  by_cases hearly : u < instant
  · exact Or.inl ⟨hearly, h.early u (by omega) hearly⟩
  · exact Or.inr ⟨by omega, h.late u (by omega) (by omega)⟩

theorem near (h : ChangesAt zone instant before after) (hz : ZoneRules.Lawful zone) :
    (-(secondsPerDay : Int) < before ∧ before < secondsPerDay) ∧
      -(secondsPerDay : Int) < after ∧ after < secondsPerDay := by
  have hpos : (0 : Int) < secondsPerDay := by decide
  have hbefore := hz.near (instant - 1)
  have hafter := hz.near instant
  rw [h.early _ (by omega) (by omega)] at hbefore
  rw [h.late _ (by omega) (by omega)] at hafter
  exact ⟨hbefore, hafter⟩

/-- A change to a larger offset leaves a gap. The offset in front of it is taken where the local
time, read as UTC, lies in front of the change, and else the one behind it. -/
theorem toUtc_gap (h : ChangesAt zone instant before after) (hz : ZoneRules.Lawful zone)
    (hl : l.second < secondsPerDay) (hfrom : instant + before ≤ readingSeconds l)
    (hto : readingSeconds l < instant + after) :
    (Zone.named zone).JumpsOver l (instant - 1) ∧ (∀ u, ¬(Zone.named zone).ShowsAt l u) ∧
      Zone.toUtc (.named zone) l =
        l.addSeconds (if readingSeconds l < instant then -before else -after) := by
  have hpos : (0 : Int) < secondsPerDay := by decide
  obtain ⟨hbefore, hafter⟩ := h.near hz
  have hnever : ∀ u, ¬(Zone.named zone).ShowsAt l u := by
    intro u hu
    have hshows := ((showsAt_iff hl).mp hu).2.1
    rcases h.offset_of_shows hz (u := readingSeconds u) (by omega) (by omega) with
      ⟨hside, hoffset⟩ | ⟨hside, hoffset⟩ <;> simp only [wallClock, hoffset] at hshows <;> omega
  refine ⟨⟨?_, ?_⟩, hnever, ?_⟩
  · simp only [wallClock, h.early (instant - 1) (by omega) (by omega)]
    omega
  · simp only [wallClock, Int.sub_add_cancel, h.late instant (by omega) (by omega)]
    exact hto
  · rw [toUtc_of_not_found ((not_showsAt_iff hz hl).mp hnever)]
    split
    · rw [h.early _ (by omega) ‹_›]
    · rw [h.late _ (by omega) (by omega)]

/-- A change to a smaller offset shows local times twice. The first time is taken. -/
theorem toUtc_overlap (h : ChangesAt zone instant before after) (hz : ZoneRules.Lawful zone)
    (hl : l.second < secondsPerDay) (hend : ¬l.NearEnd)
    (hfrom : instant + after ≤ readingSeconds l) (hto : readingSeconds l < instant + before) :
    (∀ u, (Zone.named zone).ShowsAt l u ↔
      u = l.moveSeconds (-before) ∨ u = l.moveSeconds (-after)) ∧
      Zone.toUtc (.named zone) l = l.moveSeconds (-before) := by
  have hpos : (0 : Int) < secondsPerDay := by decide
  obtain ⟨hbefore, hafter⟩ := h.near hz
  have hfirst : wallClock (.named zone) (readingSeconds l - before) = readingSeconds l := by
    simp only [wallClock, h.early (readingSeconds l - before) (by omega) (by omega)]
    omega
  have hsecond : wallClock (.named zone) (readingSeconds l - after) = readingSeconds l := by
    simp only [wallClock, h.late (readingSeconds l - after) (by omega) (by omega)]
    omega
  have hall : ∀ u, (Zone.named zone).ShowsAt l u ↔
      u = l.moveSeconds (-before) ∨ u = l.moveSeconds (-after) := by
    intro u
    constructor
    · intro hu
      obtain ⟨husecond, hshows, hnano⟩ := (showsAt_iff hl).mp hu
      have hmoved := Timestamp.readingSeconds_moveSeconds l
      rcases h.offset_of_shows hz (u := readingSeconds u) (by omega) (by omega) with
        ⟨-, hoffset⟩ | ⟨-, hoffset⟩ <;> simp only [wallClock, hoffset] at hshows
      · exact Or.inl (Timestamp.eq_of_readingSeconds husecond (Timestamp.second_moveSeconds l _)
          (by rw [hmoved]; omega) hnano)
      · exact Or.inr (Timestamp.eq_of_readingSeconds husecond (Timestamp.second_moveSeconds l _)
          (by rw [hmoved]; omega) hnano)
    · rintro (rfl | rfl)
      · exact showsAt_moveSeconds hl _ hfirst
      · exact showsAt_moveSeconds hl _ hsecond
  refine ⟨hall, ?_⟩
  obtain ⟨hshows, hle⟩ := toUtc_shows (z := .named zone) hz hl hend
    keepsLeap_named (showsAt_moveSeconds hl _ hfirst)
  rcases (hall _).mp hshows with heq | heq
  · exact heq
  · rw [heq, Timestamp.readingSeconds_moveSeconds, Timestamp.readingSeconds_moveSeconds] at hle
    omega

end ChangesAt

/-! ## Local times -/

/-- The instant of a local time away from the ends of the calendar. It is the first one that shows
the local time, except that a fixed zone other than UTC loses leap seconds. Where no instant shows
it, the clock of a named zone jumps over it, and the offset in front of the jump is taken only if it
is also the one that holds when a clock on UTC shows the local time. Around a single change this
means that the local time, read as UTC, lies in front of the change: so it does where local time is
behind UTC, and where it is ahead it does not. -/
theorem toUtc_local (hz : z.Lawful) (hl : l.second < secondsPerDay) (hend : ¬l.NearEnd) :
    (z.KeepsLeap l → ∀ u, z.ShowsAt l u →
      z.ShowsAt l (z.toUtc l) ∧ (z.toUtc l).order u ≠ .gt) ∧
    (¬z.KeepsLeap l → ¬z.ShowsAt l (z.toUtc l)) ∧
    ((∀ u, ¬z.ShowsAt l u) → ∃ zone, z = .named zone ∧ (∃ last, z.JumpsOver l last) ∧
      ∀ last, z.JumpsOver l last →
        (z.toUtc l = l.addSeconds (-ZoneRules.offsetAt zone last) ↔
          ZoneRules.offsetAt zone (readingSeconds l) = ZoneRules.offsetAt zone last)) ∧
    ∀ zone, z = .named zone → ∀ instant before after, ChangesAt zone instant before after →
      (instant + before ≤ readingSeconds l → readingSeconds l < instant + after →
        (∀ u, ¬z.ShowsAt l u) ∧ z.JumpsOver l (instant - 1) ∧
          (z.toUtc l = l.addSeconds (-before) ↔ readingSeconds l < instant) ∧
          (after ≤ 0 → z.toUtc l = l.addSeconds (-before)) ∧
          (0 ≤ before → z.toUtc l = l.addSeconds (-after))) ∧
      (instant + after ≤ readingSeconds l → readingSeconds l < instant + before →
        (∀ u, z.ShowsAt l u ↔ u = l.moveSeconds (-before) ∨ u = l.moveSeconds (-after)) ∧
          z.toUtc l = l.moveSeconds (-before)) := by
  refine ⟨fun hleap u hu => ?_, fun hleap => ?_, fun hnever => ?_, ?_⟩
  · obtain ⟨hshows, hfirst⟩ := toUtc_shows hz hl hend hleap hu
    have hnano := ((showsAt_iff hl).mp hu).2.2
    have hkept := ((showsAt_iff hl).mp hshows).2.2
    exact ⟨hshows, Timestamp.order_ne_gt_of_readingSeconds hshows.1 (hkept.trans hnano.symm) hu.1
      hfirst⟩
  · simp only [KeepsLeap, not_forall] at hleap
    obtain ⟨hlate, offset, rfl, hoffset⟩ := hleap
    exact toUtc_fixed_leap hoffset hlate
  · cases z with
    | fixed offset =>
      refine absurd (showsAt_moveSeconds hl offset ?_) (hnever _)
      simp only [wallClock]
      omega
    | named zone =>
      refine ⟨zone, rfl, exists_jumpsOver hz hl hnever, fun last _ => ?_⟩
      rw [toUtc_of_not_found ((not_showsAt_iff hz hl).mp hnever), Timestamp.addSeconds_inj]
      omega
  · rintro zone rfl instant before after hchange
    have hlawful : ZoneRules.Lawful zone := hz
    refine ⟨fun hfrom hto => ?_, fun hfrom hto => hchange.toUtc_overlap hlawful hl hend hfrom hto⟩
    obtain ⟨hjumps, hnever, hinstant⟩ := hchange.toUtc_gap hlawful hl hfrom hto
    refine ⟨hnever, hjumps, ?_, fun hwest => ?_, fun heast => ?_⟩
    · rw [hinstant, Timestamp.addSeconds_inj]
      split <;> omega
    · rw [hinstant, if_pos (by omega)]
    · rw [hinstant, if_neg (by omega)]

/-- The last Sunday of March in Paris, when daylight time begins. -/
theorem changesAt_paris : ChangesAt paris 63847443600 3600 7200 := by
  have hspan : paris.daylightSpan europeanDaylight 2024 = (63847443600, 63865587600) := by
    decide +kernel
  refine ⟨fun u hfirst hlast => ?_, fun u hfirst hlast => ?_⟩
  · simp only [secondsPerDay] at hfirst
    have hyear : Date.yearOf (u / 86400) = 2024 := by
      have hstart : yearStart 2024 = 738885 := by decide
      have hend : yearStart (2024 + 1) = 739251 := by decide
      exact Date.yearOf_eq (by omega) (by omega)
    have hstandard : paris.isDaylight europeanDaylight u = false := by
      simp [NamedZone.isDaylight, hyear, hspan, hlast]
    show (if paris.isDaylight europeanDaylight u then 3600 + 3600 else 3600) = (3600 : Int)
    rw [hstandard]
    rfl
  · simp only [secondsPerDay] at hlast
    have hshows := Period.wallClock_paris hfirst (by omega)
    simp only [wallClock] at hshows
    omega

theorem lawful_paris : (Zone.named paris).Lawful :=
  NamedZone.lawful (by decide) (by decide)

/-- Noon and half past two on the day that daylight time begins in Paris. -/
theorem toUtc_local_paris :
    (Zone.named paris).ShowsAt ⟨738975, 43200, 0⟩ ((Zone.named paris).toUtc ⟨738975, 43200, 0⟩) ∧
      (Zone.named paris).toUtc ⟨738975, 9000, 0⟩ =
        Timestamp.addSeconds ⟨738975, 9000, 0⟩ (-7200) := by
  obtain ⟨hnoon, -, -, -⟩ := @toUtc_local NamedZone _ (.named paris) ⟨738975, 43200, 0⟩ lawful_paris
    (by decide) (by unfold Timestamp.NearEnd; decide +kernel)
  obtain ⟨-, -, -, hchange⟩ := @toUtc_local NamedZone _ (.named paris) ⟨738975, 9000, 0⟩
    lawful_paris (by decide) (by unfold Timestamp.NearEnd; decide +kernel)
  obtain ⟨-, -, -, -, heast⟩ := (hchange paris rfl _ _ _ changesAt_paris).1 (by decide) (by decide)
  exact ⟨(hnoon keepsLeap_named ⟨738975, 36000, 0⟩
    ⟨by decide, by decide +kernel⟩).1, heast (by decide)⟩

/-- Half past two is jumped over in Paris, and is not taken back by the hour that Paris is ahead of
UTC until then. Half a second into a leap second at an hour ahead of UTC is shown, and is taken to
an instant that does not show it. -/
theorem toUtc_misses :
    (named? "Europe/Paris" = some paris ∧ ¬Timestamp.NearEnd ⟨738975, 9000, 0⟩ ∧
      (∀ u, ¬(Zone.named paris).ShowsAt ⟨738975, 9000, 0⟩ u) ∧
      (Zone.named paris).JumpsOver ⟨738975, 9000, 0⟩ 63847443599 ∧
      ZoneRules.offsetAt paris 63847443599 = 3600 ∧
      (Zone.named paris).toUtc ⟨738975, 9000, 0⟩ ≠
        Timestamp.addSeconds ⟨738975, 9000, 0⟩ (-3600)) ∧
    (ofText? "+01:00" = some (.fixed 3600) ∧ ¬Timestamp.NearEnd ⟨736328, 86399, 1500000000⟩ ∧
      (Zone.fixed 3600 : Zone).ShowsAt ⟨736328, 86399, 1500000000⟩ ⟨736328, 82799, 1500000000⟩ ∧
      ¬(Zone.fixed 3600 : Zone).ShowsAt ⟨736328, 86399, 1500000000⟩
        (toUtc (.fixed 3600 : Zone) ⟨736328, 86399, 1500000000⟩)) := by
  obtain ⟨hjumps, hnever, hinstant⟩ := @ChangesAt.toUtc_gap NamedZone _ paris ⟨738975, 9000, 0⟩
    _ _ _ changesAt_paris lawful_paris (by decide) (by decide) (by decide)
  refine ⟨⟨by decide, ?_, hnever, hjumps, ?_, ?_⟩, by decide +kernel, ?_, ?_, ?_⟩
  · unfold Timestamp.NearEnd
    decide +kernel
  · exact changesAt_paris.early _ (by decide) (by decide)
  · rw [hinstant]
    decide +kernel
  · unfold Timestamp.NearEnd
    decide +kernel
  · exact ⟨by decide, by decide⟩
  · exact toUtc_fixed_leap (by decide) (by decide)

end Zone

end LinkQuery.Time
