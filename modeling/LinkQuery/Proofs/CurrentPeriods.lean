import LinkQuery.Proofs.WallClocks
/-!
# The current period

A period is cut on the local clock, and its two ends are taken back to UTC one by one. In a fixed
zone the present always lies in the current unit, and the units in front of it end where the current
one starts. In a named zone this depends on the ends. No instant shows an end that the clock jumps
over. An end that a clock put back shows twice is taken at its first pass, and a present in the
second pass may stand behind it.

- `RunsThrough`: the local clock does not jump over the end.
- `ShownBy`: the end was shown before, so that the present is in a second pass.

Main statements:
- `Period.current_spans`: what the current unit, today and the last units cover.
- `Period.current_misses`: where clocks change they do not cover the present.
-/
namespace LinkQuery.Time

open Zone (readingSeconds)

namespace Timestamp

variable {t : Timestamp}

/-- The steps behind an unchecked step, unless that step overflows. -/
theorem kept_bind {β : Type} {f : Timestamp → Except MoveError β}
    (h : (t.kept >>= f) ≠ .error .overflow) :
    (t.kept >>= f) = f t ∧ f t ≠ .error .overflow := by
  unfold kept at h ⊢
  cases hrange : t.inRange with
  | true =>
    rw [hrange] at h
    exact ⟨rfl, h⟩
  | false =>
    rw [hrange] at h
    exact absurd rfl h

end Timestamp

namespace Period

variable {N : Type} [ZoneRules N] {zone : Zone N} {now next start finish : Timestamp}
  {unit : TimeUnit}

/-- The start of the unit that the local clock of a zone shows. -/
def localStart (zone : Zone N) (now : Timestamp) (unit : TimeUnit) : Timestamp :=
  (zone.toLocal now).truncate unit

theorem localStart_plain (zone : Zone N) (now : Timestamp) (unit : TimeUnit) :
    (localStart zone now unit).IsPlain :=
  Timestamp.truncate_plain (zone.second_toLocal now) unit

/-- Unless a conversion overflows, a period runs between the instants of its local ends. -/
theorem resolve_of_localSpan {period : Period} {count : Nat}
    (hkept : period.resolve count zone now ≠ .error .overflow) :
    period.localSpan count (zone.toLocal now) ≠ .error .overflow ∧
      (period.localSpan count (zone.toLocal now) = .ok (start, finish) →
        period.resolve count zone now = .ok (zone.toUtc start, zone.toUtc finish)) := by
  unfold resolve at hkept ⊢
  obtain ⟨hshown, hkept⟩ := Timestamp.kept_bind hkept
  rw [hshown]
  constructor
  · intro hlost
    rw [hlost] at hkept
    exact hkept rfl
  · intro hlocal
    rw [hlocal] at hkept ⊢
    obtain ⟨hstart, hkept⟩ := Timestamp.kept_bind hkept
    obtain ⟨hfinish, -⟩ := Timestamp.kept_bind hkept
    exact hstart.trans hfinish

/-- Unless a conversion overflows, the current unit runs to the start of the next one. -/
theorem resolve_current {count : Nat} (hnext : (localStart zone now unit).shift 1 unit = some next)
    (hkept : (current unit).resolve count zone now ≠ .error .overflow) :
    (current unit).resolve count zone now =
      .ok (zone.toUtc (localStart zone now unit), zone.toUtc next) := by
  obtain ⟨hlocal, hends⟩ := resolve_of_localSpan hkept
  obtain ⟨hcut, -⟩ := Timestamp.kept_bind hlocal
  have hmove := Timestamp.shifted_eq_ok.mpr hnext
  refine hends (hcut.trans ?_)
  rw [localStart] at hmove ⊢
  rw [hmove]
  rfl

/-- Unless a conversion overflows, the last units run up to the start of the current one. -/
theorem resolve_last {count : Nat}
    (hback : (localStart zone now unit).shift (-count) unit = some start)
    (hkept : (last unit).resolve count zone now ≠ .error .overflow) :
    (last unit).resolve count zone now =
      .ok (zone.toUtc start, zone.toUtc (localStart zone now unit)) := by
  obtain ⟨hlocal, hends⟩ := resolve_of_localSpan hkept
  obtain ⟨hcut, -⟩ := Timestamp.kept_bind hlocal
  have hmove := Timestamp.shifted_eq_ok.mpr hback
  refine hends (hcut.trans ?_)
  rw [localStart] at hmove ⊢
  rw [hmove]
  rfl

/-- Today is the current day. -/
theorem today_eq_current (count other : Nat) (zone : Zone N) (now : Timestamp) :
    today.resolve count zone now = (current .day).resolve other zone now := rfl

end Period

namespace Zone

variable {N : Type} [ZoneRules N] {z : Zone N} {t earlier : Timestamp} {offset : Int}

/-- The clock of a fixed zone jumps over no time. -/
theorem runsThrough_fixed (ht : t.IsPlain)
    (h : (toUtc (.fixed offset : Zone N) t).inRange = true) :
    RunsThrough (.fixed offset : Zone N) t := by
  have hutc : toUtc (.fixed offset : Zone N) t = t.moveSeconds (-offset) := ht.addSeconds _
  rw [hutc, Timestamp.inRange_iff (Timestamp.second_moveSeconds t _),
    Timestamp.readingSeconds_moveSeconds] at h
  refine ⟨fun u hu => ?_, fun u hu => ?_⟩
  · simp only [wallClock] at hu ⊢
    omega
  · simp only [wallClock] at hu
    have hsame : u = readingSeconds t + -offset := by omega
    rw [hsame]
    exact h

/-- The clock of a fixed zone has shown what is past only. -/
theorem shownBy_fixed {now : Int} (h : ShownBy (.fixed offset : Zone N) t now) :
    readingSeconds t ≤ wallClock (.fixed offset : Zone N) now := by
  obtain ⟨u, hu, hshows⟩ := h
  simp only [wallClock] at hshows ⊢
  omega

/-- A time that is past and was not jumped over lies at or before the present. -/
theorem RunsThrough.toUtc_le (hz : z.Lawful) (ht : t.IsPlain) (h : z.RunsThrough t) {now : Int}
    (hpast : readingSeconds t ≤ z.wallClock now) : readingSeconds (z.toUtc t) ≤ now := by
  obtain ⟨u, hu, hshows⟩ := h.shownBy hz hpast
  have hfirst := (h.toUtc hz ht ⟨u, hshows⟩).2 u hshows
  omega

/-- A time to come that is not jumped over lies behind the present, unless it was shown before. -/
theorem RunsThrough.lt_toUtc_iff (hz : z.Lawful) (ht : t.IsPlain) (h : z.RunsThrough t) {now : Int}
    (hahead : z.wallClock now < readingSeconds t) :
    now < readingSeconds (z.toUtc t) ↔ ¬z.ShownBy t now := by
  obtain ⟨u, -, hshows⟩ := h.willShow hz hahead
  obtain ⟨hat, hfirst⟩ := h.toUtc hz ht ⟨u, hshows⟩
  constructor
  · rintro hbehind ⟨v, hv, hshown⟩
    have := hfirst v hshown
    omega
  · intro hnever
    by_contra hle
    exact hnever ⟨_, by omega, hat⟩

/-- Of two times that the clock runs through, the earlier one lies at the earlier instant. -/
theorem RunsThrough.toUtc_lt (hz : z.Lawful) (hearlier : earlier.IsPlain) (ht : t.IsPlain)
    (hrun : z.RunsThrough earlier) (h : z.RunsThrough t)
    (hlt : readingSeconds earlier < readingSeconds t) :
    readingSeconds (z.toUtc earlier) < readingSeconds (z.toUtc t) := by
  have hbefore := hz.near (readingSeconds t - 2 * secondsPerDay)
  have hahead : z.wallClock (readingSeconds t - 2 * secondsPerDay) < readingSeconds t := by omega
  obtain ⟨u, -, hshows⟩ := h.willShow hz hahead
  have hat := (h.toUtc hz ht ⟨u, hshows⟩).1
  have hpast : readingSeconds earlier ≤ z.wallClock (readingSeconds (z.toUtc t)) := by omega
  have hle := hrun.toUtc_le hz hearlier hpast
  obtain ⟨v, -, hshown⟩ := hrun.shownBy hz hpast
  have hat' := (hrun.toUtc hz hearlier ⟨v, hshown⟩).1
  have hne : readingSeconds (z.toUtc earlier) ≠ readingSeconds (z.toUtc t) := by
    intro hsame
    rw [hsame, hat] at hat'
    omega
  omega

end Zone

/-- Two of the zones known by name. -/
def paris : NamedZone := ⟨"Europe/Paris", 3600, some europeanDaylight⟩
def newYork : NamedZone := ⟨"America/New_York", -18000, some americanDaylight⟩

namespace Period

variable {N : Type} [ZoneRules N] {zone : Zone N} {now next : Timestamp} {unit : TimeUnit}

/-- The current unit is an interval on the local clock that the present lies in. Its ends in UTC
stand around the present in a fixed zone, and in every zone whose clock neither jumps over them nor
has shown the end before. The last units end where the current one starts. -/
theorem current_spans (hzone : zone.Lawful) (hnow : now.second < secondsPerDay) {count : Nat}
    (hnext : (localStart zone now unit).shift 1 unit = some next)
    (hkept : (current unit).resolve count zone now ≠ .error .overflow) :
    ∃ s e, (current unit).resolve count zone now = .ok (s, e) ∧
      (unit = .day → ∀ any, today.resolve any zone now = .ok (s, e)) ∧
      ((∃ offset, zone = .fixed offset) → s.order now ≠ .gt ∧ now.order e = .lt) ∧
      (zone.RunsThrough (localStart zone now unit) → s.order now ≠ .gt) ∧
      (zone.RunsThrough next →
        (now.order e = .lt ↔ ¬zone.ShownBy next (readingSeconds now))) ∧
      ∀ n start, 1 ≤ n → (localStart zone now unit).shift (-(n : Nat)) unit = some start →
        (last unit).resolve n zone now ≠ .error .overflow →
        ∃ s', (last unit).resolve n zone now = .ok (s', s) ∧
          ((∃ offset, zone = .fixed offset) ∨
            zone.RunsThrough start ∧ zone.RunsThrough (localStart zone now unit) →
              s'.order s = .lt) := by
  have hresolve := resolve_current hnext hkept
  obtain ⟨-, -, -, -, -, hfirst, hlast⟩ := resolve_eq_ok hresolve
  have hstart := localStart_plain zone now unit
  have hfinish := hstart.shift hnext
  have hpast := Timestamp.truncate_le (zone.second_toLocal now) unit
  have hahead := Timestamp.lt_of_shift_truncate (zone.second_toLocal now) hnext
  rw [Zone.readingSeconds_toLocal] at hpast hahead
  have hfrom : zone.RunsThrough (localStart zone now unit) →
      (zone.toUtc (localStart zone now unit)).order now ≠ .gt := fun h =>
    (Timestamp.order_ne_gt_iff (Zone.toUtc_plain hstart) hnow).mpr (h.toUtc_le hzone hstart hpast)
  have hto : zone.RunsThrough next → (now.order (zone.toUtc next) = .lt ↔
      ¬zone.ShownBy next (readingSeconds now)) := fun h =>
    (Timestamp.order_lt_iff hnow (Zone.toUtc_plain hfinish)).trans
      (h.lt_toUtc_iff hzone hfinish hahead)
  refine ⟨_, _, hresolve, ?_, ?_, hfrom, hto, ?_⟩
  · rintro rfl any
    exact (today_eq_current any count zone now).trans hresolve
  · rintro ⟨offset, rfl⟩
    refine ⟨hfrom (Zone.runsThrough_fixed hstart hfirst),
      (hto (Zone.runsThrough_fixed hfinish hlast)).mpr fun hshown => ?_⟩
    have := Zone.shownBy_fixed hshown
    omega
  · intro n start hn hback hlastKept
    have hbefore := hstart.shift hback
    have hresolveLast := resolve_last hback hlastKept
    obtain ⟨-, -, -, -, -, hfirstKept, -⟩ := resolve_eq_ok hresolveLast
    refine ⟨_, hresolveLast, fun h => ?_⟩
    have hlt := Timestamp.shift_lt_truncate (zone.second_toLocal now) hn hback
    rw [Timestamp.order_lt_iff (Zone.toUtc_plain hbefore).1 (Zone.toUtc_plain hstart)]
    rcases h with ⟨offset, rfl⟩ | ⟨hrun, hrunStart⟩
    · exact (Zone.runsThrough_fixed hbefore hfirstKept).toUtc_lt hzone hbefore
        hstart (Zone.runsThrough_fixed hstart hfirst) hlt
    · exact hrun.toUtc_lt hzone hbefore hstart hrunStart hlt

/-- Summer time in Paris. -/
theorem wallClock_paris {u : Int} (hfirst : 63847443600 ≤ u) (hlast : u < 63865587600) :
    (Zone.named paris).wallClock u = u + 7200 := by
  have hyear : Date.yearOf (u / 86400) = 2024 := by
    have hstart : yearStart 2024 = 738885 := by decide
    have hend : yearStart (2024 + 1) = 739251 := by decide
    exact Date.yearOf_eq (by omega) (by omega)
  have hspan : paris.daylightSpan europeanDaylight 2024 = (63847443600, 63865587600) := by
    decide +kernel
  have hdaylight : paris.isDaylight europeanDaylight u = true := by
    simp [NamedZone.isDaylight, hyear, hspan, hfirst, hlast]
  show u + (if paris.isDaylight europeanDaylight u then 3600 + 3600 else 3600) = u + 7200
  rw [if_pos hdaylight]
  rfl

/-- The clock of Paris runs through the midnights of July. -/
theorem runsThrough_paris (hlawful : (Zone.named paris).Lawful) {day : Int}
    (hfirst : 739068 ≤ day) (hlast : day < 739099) :
    (Zone.named paris).RunsThrough ⟨day, 0, 0⟩ := by
  have hends : Timestamp.firstDay < 700000 ∧ 800000 < Timestamp.lastDay := by decide +kernel
  refine Zone.RunsThrough.of_steady hlawful rfl (c := 7200) (fun u hbefore hbehind => ?_) ?_ ?_
  · simp only [readingSeconds, secondsPerDay] at hbefore hbehind
    exact wallClock_paris (by omega) (by omega)
  · simp only [readingSeconds, secondsPerDay]
    omega
  · simp only [readingSeconds, secondsPerDay]
    omega

/-- The fourteenth of July in Paris and the three days in front of it. -/
theorem current_spans_paris : ∃ s e,
    (current .day).resolve 1 (.named paris) ⟨739080, 41000, 5⟩ = .ok (s, e) ∧
    s.order ⟨739080, 41000, 5⟩ ≠ .gt ∧ Timestamp.order ⟨739080, 41000, 5⟩ e = .lt ∧
    ∃ s', (last .day).resolve 3 (.named paris) ⟨739080, 41000, 5⟩ = .ok (s', s) ∧
      s'.order s = .lt := by
  have hlawful : (Zone.named paris).Lawful := NamedZone.lawful (by decide) (by decide)
  have hrun := fun day => @runsThrough_paris hlawful day
  have hstart : localStart (.named paris) ⟨739080, 41000, 5⟩ .day = ⟨739080, 0, 0⟩ := by
    decide +kernel
  have hnext : (localStart (.named paris) ⟨739080, 41000, 5⟩ .day).shift 1 .day =
      some ⟨739081, 0, 0⟩ := by decide +kernel
  have hback : (localStart (.named paris) ⟨739080, 41000, 5⟩ .day).shift (-(3 : Nat)) .day =
      some ⟨739077, 0, 0⟩ := by decide +kernel
  obtain ⟨s, e, hresolve, -, -, hfrom, hto, hlast⟩ :=
    @current_spans NamedZone _ (.named paris) ⟨739080, 41000, 5⟩ ⟨739081, 0, 0⟩ .day hlawful
      (by decide) 1 hnext (by decide +kernel)
  obtain ⟨s', hlast, hbefore⟩ := hlast 3 ⟨739077, 0, 0⟩ (by decide) hback (by decide +kernel)
  rw [hstart] at hfrom hbefore
  have hnever : ¬(Zone.named paris).ShownBy ⟨739081, 0, 0⟩ (readingSeconds ⟨739080, 41000, 5⟩) := by
    refine Zone.not_shownBy_of_steady hlawful rfl (c := 7200) (fun u hbefore hbehind => ?_) ?_
    · simp only [readingSeconds, secondsPerDay] at hbefore hbehind
      exact wallClock_paris (by omega) (by omega)
    · rw [wallClock_paris (by decide) (by decide)]
      decide
  exact ⟨s, e, hresolve, hfrom (hrun _ (by decide) (by decide)),
    (hto (hrun _ (by decide) (by decide))).mpr hnever, s', hlast,
    hbefore (Or.inr ⟨hrun _ (by decide) (by decide), hrun _ (by decide) (by decide)⟩)⟩

/-- The minutes of an hour that is shown twice are taken from its first pass, and the hour that was
skipped is empty. -/
theorem current_misses : Zone.named? "Europe/Paris" = some paris ∧
    Zone.named? "America/New_York" = some newYork ∧
    (∃ s e, (current .minute).resolve 1 (.named paris) ⟨739185, 5415, 0⟩ = .ok (s, e) ∧
      Timestamp.order ⟨739185, 5415, 0⟩ e ≠ .lt) ∧
    ∃ s e, (last .hour).resolve 1 (.named newYork) ⟨738954, 27000, 0⟩ = .ok (s, e) ∧
      s.order e ≠ .lt := by
  refine ⟨by decide, by decide, ⟨⟨739185, 1800, 0⟩, ⟨739185, 1860, 0⟩, ?_, by decide⟩,
    ⟨⟨738954, 25200, 0⟩, ⟨738954, 25200, 0⟩, ?_, by decide⟩⟩ <;> decide +kernel

end Period

end LinkQuery.Time
