import LinkQuery.Proofs.Units
/-!
# Local clocks

A local clock shows an instant moved by the offset that holds at it. It mostly runs with the
instants, is put forward over some times and back over others. Where it runs through a time without
jumping over it, the instant of that time is the first one at which the clock shows it.

Main statements:
- `Zone.exists_shows`: a clock that does not jump over a time shows it on its way there.
- `Zone.RunsThrough.toUtc`: the instant of such a time.
- `NamedZone.lawful`: the zones known by name are lawful.
-/
namespace LinkQuery.Time

open Zone (readingSeconds)

/-! ## Order -/

namespace Timestamp

variable {a b : Timestamp}

/-- A timestamp lies in front of the start of a second. -/
theorem order_lt_iff (ha : a.second < secondsPerDay) (hb : b.IsPlain) :
    a.order b = .lt ↔ readingSeconds a < readingSeconds b := by
  obtain ⟨hsecond, hnano⟩ := hb
  simp only [secondsPerDay] at ha hsecond
  simp only [order, Ordering.then_eq_lt, compare_lt_iff_lt, compare_eq_iff_eq, readingSeconds,
    secondsPerDay]
  omega

/-- The start of a second lies at or before a timestamp. -/
theorem order_ne_gt_iff (ha : a.IsPlain) (hb : b.second < secondsPerDay) :
    a.order b ≠ .gt ↔ readingSeconds a ≤ readingSeconds b := by
  obtain ⟨hsecond, hnano⟩ := ha
  simp only [secondsPerDay] at hb hsecond
  simp only [order, ne_eq, Ordering.then_eq_gt, compare_gt_iff_gt, compare_eq_iff_eq,
    readingSeconds, secondsPerDay]
  omega

/-- The timestamp is kept, told from its seconds. -/
theorem inRange_iff (h : a.second < secondsPerDay) : a.inRange = true ↔
    firstDay * secondsPerDay ≤ readingSeconds a ∧
      readingSeconds a < (lastDay + 1) * secondsPerDay := by
  unfold secondsPerDay at h
  simp only [inRange, Bool.and_eq_true, decide_eq_true_eq, readingSeconds, secondsPerDay]
  omega

end Timestamp

/-! ## Clocks of zones -/

/-- What is relied on of a zone in a database. -/
structure ZoneRules.Lawful {N : Type} [ZoneRules N] (zone : N) : Prop where
  /-- The zone is less than a day away from UTC. -/
  near : ∀ u, -(secondsPerDay : Int) < offsetAt zone u ∧ offsetAt zone u < secondsPerDay
  /-- The offset that is found for a local time holds when it is shown. -/
  shows : ∀ l offset, offsetOfLocal? zone l = some offset → offsetAt zone (l - offset) = offset
  /-- No earlier instant shows the local time. -/
  first : ∀ l offset, offsetOfLocal? zone l = some offset →
    ∀ u, u + offsetAt zone u = l → l - offset ≤ u
  /-- An offset is found for every local time that is shown at some instant. -/
  found : ∀ l, offsetOfLocal? zone l = none → ∀ u, u + offsetAt zone u ≠ l

theorem NamedZone.offsetOfLocal?_eq (zone : NamedZone) (l : Int) :
    ZoneRules.offsetOfLocal? zone l =
      zone.offsets.find? fun offset => zone.offsetAt (l - offset) == offset := rfl

/-- The zones known by name are lawful, if daylight time is ahead and offsets stay below a day. -/
theorem NamedZone.lawful {zone : NamedZone}
    (hnear : ∀ offset ∈ zone.offsets, -(secondsPerDay : Int) < offset ∧ offset < secondsPerDay)
    (hahead : ∀ daylight ∈ zone.daylight, 0 ≤ daylight.ahead) : ZoneRules.Lawful zone := by
  have hmem : ∀ u, zone.offsetAt u ∈ zone.offsets := by
    intro u
    unfold offsetAt offsets
    split
    · exact List.mem_singleton_self _
    · split <;> simp
  have hlargest : zone.offsets.Pairwise fun a b => b ≤ a := by
    unfold offsets
    cases hdaylight : zone.daylight with
    | none => simp
    | some daylight =>
      have := hahead daylight hdaylight
      simp only [List.pairwise_pair]
      omega
  have hback : ∀ u l, u + zone.offsetAt u = l →
      zone.offsetAt (l - zone.offsetAt u) = zone.offsetAt u := by
    intro u l hu
    rw [← hu, Int.add_sub_cancel]
  refine ⟨fun u => hnear _ (hmem u), fun l offset h => ?_, fun l offset h u hu => ?_,
    fun l h u hu => ?_⟩
  · rw [offsetOfLocal?_eq] at h
    have hshows := List.find?_some h
    exact beq_iff_eq.mp hshows
  · -- The offset at `u` is among those that are tried, and larger ones are tried first.
    rw [offsetOfLocal?_eq] at h
    obtain ⟨-, before, after, hsplit, hnone⟩ := List.find?_eq_some_iff_append.mp h
    have hin := hmem u
    rw [hsplit] at hin hlargest
    have hle : zone.offsetAt u ≤ offset := by
      rcases List.mem_append.mp hin with hbefore | hafter
      · have hother := hnone _ hbefore
        rw [hback u l hu, beq_self_eq_true] at hother
        cases hother
      · rcases List.mem_cons.mp hafter with hsame | hafter
        · exact Int.le_of_eq hsame
        · exact List.rel_of_pairwise_cons (List.pairwise_append.mp hlargest).2.1 hafter
    have hoffset : u + zone.offsetAt u = l := hu
    omega
  · rw [offsetOfLocal?_eq] at h
    have hnone := List.find?_eq_none.mp h _ (hmem u)
    rw [hback u l hu, beq_self_eq_true] at hnone
    exact hnone rfl

namespace Zone

variable {N : Type} [ZoneRules N] {z : Zone N} {t : Timestamp}

/-- The zone is fixed, or what is relied on holds of it. -/
def Lawful : Zone N → Prop
  | .fixed offset => -(secondsPerDay : Int) < offset ∧ offset < secondsPerDay
  | .named zone => ZoneRules.Lawful zone

/-- The seconds that the local clock shows at an instant. -/
def wallClock (z : Zone N) (u : Int) : Int :=
  match z with
  | .fixed offset => u + offset
  | .named zone => u + ZoneRules.offsetAt zone u

theorem Lawful.near (h : z.Lawful) (u : Int) :
    u - secondsPerDay < z.wallClock u ∧ z.wallClock u < u + secondsPerDay := by
  cases z with
  | fixed offset =>
    have hoffset : -(secondsPerDay : Int) < offset ∧ offset < secondsPerDay := h
    simp only [wallClock]
    omega
  | named zone =>
    have hoffset := ZoneRules.Lawful.near h u
    simp only [wallClock]
    omega

theorem second_toLocal (z : Zone N) (t : Timestamp) : (z.toLocal t).second < secondsPerDay := by
  cases z with
  | fixed offset => exact Timestamp.second_moveSeconds t offset
  | named zone => exact Timestamp.second_moveSeconds t _

theorem readingSeconds_toLocal (z : Zone N) (t : Timestamp) :
    readingSeconds (z.toLocal t) = z.wallClock (readingSeconds t) := by
  cases z with
  | fixed offset => exact Timestamp.readingSeconds_moveSeconds t offset
  | named zone => exact Timestamp.readingSeconds_moveSeconds t _

/-- On its way past a time that it does not jump over, the clock shows it. -/
theorem exists_shows {l a b : Int}
    (hrun : ∀ u, z.wallClock u < l → z.wallClock (u + 1) ≤ l)
    (ha : z.wallClock a < l) (hb : l ≤ z.wallClock b) (hab : a ≤ b) :
    ∃ u, a < u ∧ u ≤ b ∧ z.wallClock u = l := by
  obtain ⟨steps, rfl⟩ := Int.le.dest hab
  clear hab
  induction steps with
  | zero =>
    rw [Int.ofNat_zero, Int.add_zero] at hb
    omega
  | succ steps ih =>
    by_cases hbefore : l ≤ z.wallClock (a + steps)
    · obtain ⟨u, hau, hub, hu⟩ := ih hbefore
      exact ⟨u, hau, by omega, hu⟩
    · have hstep := hrun (a + steps) (by omega)
      have hsame : a + steps + 1 = a + (steps + 1 : Nat) := by omega
      rw [hsame] at hstep
      exact ⟨a + (steps + 1 : Nat), by omega, Int.le_refl _, by omega⟩

/-- The local clock runs through a time without jumping over it, and shows it at instants that
timestamps are kept for. -/
structure RunsThrough (z : Zone N) (t : Timestamp) : Prop where
  reached : ∀ u, z.wallClock u < readingSeconds t → z.wallClock (u + 1) ≤ readingSeconds t
  kept : ∀ u, z.wallClock u = readingSeconds t →
    Timestamp.firstDay * secondsPerDay ≤ u ∧ u < (Timestamp.lastDay + 1) * secondsPerDay

/-- The clock has shown a time by an instant. -/
def ShownBy (z : Zone N) (t : Timestamp) (now : Int) : Prop :=
  ∃ u, u ≤ now ∧ z.wallClock u = readingSeconds t

/-- A time that the clock ran through and is past was shown. -/
theorem RunsThrough.shownBy (hz : z.Lawful) (h : z.RunsThrough t) {now : Int}
    (hpast : readingSeconds t ≤ z.wallClock now) : z.ShownBy t now := by
  have hearly := hz.near (readingSeconds t - secondsPerDay)
  have hnow := hz.near now
  obtain ⟨u, -, hu, hshows⟩ := exists_shows h.reached
    (a := readingSeconds t - secondsPerDay) (b := now) (by omega) hpast (by omega)
  exact ⟨u, hu, hshows⟩

/-- A time that is still to come will be shown. -/
theorem RunsThrough.willShow (hz : z.Lawful) (h : z.RunsThrough t) {now : Int}
    (hahead : z.wallClock now < readingSeconds t) :
    ∃ u, now < u ∧ z.wallClock u = readingSeconds t := by
  have hlate := hz.near (readingSeconds t + secondsPerDay)
  have hnow := hz.near now
  obtain ⟨u, hu, -, hshows⟩ := exists_shows h.reached
    (a := now) (b := readingSeconds t + secondsPerDay) hahead (by omega) (by omega)
  exact ⟨u, hu, hshows⟩

/-- No clock change within a day of a time: the clock runs through it, once. -/
theorem RunsThrough.of_steady (hz : z.Lawful) {l c : Int} (hl : readingSeconds t = l)
    (hsteady : ∀ u, l - secondsPerDay ≤ u → u ≤ l + secondsPerDay → z.wallClock u = u + c)
    (hfirst : (Timestamp.firstDay + 1) * secondsPerDay ≤ l)
    (hlast : l < Timestamp.lastDay * secondsPerDay) : z.RunsThrough t := by
  subst hl
  refine ⟨fun u hu => ?_, fun u hu => ?_⟩
  · have hnear := hz.near u
    have hnext := hz.near (u + 1)
    by_cases hearly : u < readingSeconds t - secondsPerDay
    · omega
    · have hlate : u < readingSeconds t + secondsPerDay := by omega
      rw [hsteady u (by omega) (by omega)] at hu
      rw [hsteady (u + 1) (by omega) (by omega)]
      omega
  · have hnear := hz.near u
    rw [Int.add_mul] at hfirst ⊢
    constructor <;> omega

/-- No clock change within a day of a time: it is not shown before the clock gets there. -/
theorem not_shownBy_of_steady (hz : z.Lawful) {l c now : Int} (hl : readingSeconds t = l)
    (hsteady : ∀ u, l - secondsPerDay ≤ u → u ≤ l + secondsPerDay → z.wallClock u = u + c)
    (hahead : z.wallClock now < readingSeconds t) : ¬z.ShownBy t now := by
  subst hl
  rintro ⟨u, hu, hshows⟩
  have hnear := hz.near u
  have hnow := hz.near now
  have hlate : now < readingSeconds t + secondsPerDay := by omega
  have hearly : readingSeconds t - secondsPerDay < u := by omega
  rw [hsteady u (by omega) (by omega)] at hshows
  rw [hsteady now (by omega) (by omega)] at hahead
  omega

theorem toUtc_plain (h : t.IsPlain) : (z.toUtc t).IsPlain := by
  cases z with
  | fixed offset =>
    show (t.addSeconds (-offset)).IsPlain
    rw [h.addSeconds]
    exact h.moveSeconds _
  | named zone =>
    unfold toUtc
    dsimp only
    cases hshown : shownAt? zone t with
    | none =>
      rw [Option.getD_none, h.addSeconds]
      exact h.moveSeconds _
    | some instant =>
      obtain ⟨hmap, -⟩ := Option.filter_eq_some_iff.mp hshown
      obtain ⟨offset, -, rfl⟩ := Option.map_eq_some_iff.mp hmap
      exact h.moveSeconds _

/-- The instant of a time that the clock shows: no earlier one shows it. -/
theorem RunsThrough.toUtc (hz : z.Lawful) (ht : t.IsPlain) (h : z.RunsThrough t)
    (hshown : ∃ u, z.wallClock u = readingSeconds t) :
    z.wallClock (readingSeconds (z.toUtc t)) = readingSeconds t ∧
      ∀ u, z.wallClock u = readingSeconds t → readingSeconds (z.toUtc t) ≤ u := by
  cases z with
  | fixed offset =>
    show wallClock (N := N) (.fixed offset) (readingSeconds (t.addSeconds (-offset))) = _ ∧
      ∀ u, wallClock (N := N) (.fixed offset) u = _ → readingSeconds (t.addSeconds (-offset)) ≤ u
    rw [ht.addSeconds, Timestamp.readingSeconds_moveSeconds]
    simp only [wallClock]
    exact ⟨by omega, fun u hu => by omega⟩
  | named zone =>
    have hzone : ZoneRules.Lawful zone := hz
    cases hoffset : ZoneRules.offsetOfLocal? zone (readingSeconds t) with
    | none =>
      obtain ⟨u, hu⟩ := hshown
      exact absurd hu (hzone.found _ hoffset u)
    | some offset =>
      have hseconds := Timestamp.readingSeconds_moveSeconds t (-offset)
      have hshows : wallClock (.named zone) (readingSeconds t - offset) = readingSeconds t := by
        show _ + ZoneRules.offsetAt zone _ = _
        rw [hzone.shows _ _ hoffset]
        omega
      have hrange : (t.moveSeconds (-offset)).inRange = true := by
        have hkept := h.kept _ hshows
        rw [Timestamp.inRange_iff (Timestamp.second_moveSeconds t _), hseconds]
        exact hkept
      have hfound : Zone.toUtc (.named zone) t = t.moveSeconds (-offset) := by
        simp only [Zone.toUtc, shownAt?, hoffset, Option.map_some, Option.filter_some, hrange,
          if_true, Option.getD_some]
      rw [hfound, hseconds]
      exact ⟨hshows, fun u hu => hzone.first _ _ hoffset u hu⟩

end Zone

end LinkQuery.Time
