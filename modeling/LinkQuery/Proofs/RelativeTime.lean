import LinkQuery.Proofs.CalendarEnds
/-!
# Relative time in expressions

The move, the zone and the count are found in the logs of the present and of periods, and what is
read from these logs is tied to them. Relative time is a timestamp that is kept, or is refused as
invalid, except where the written move or period leads to an end of the calendar.

Main statements:
- `Value.relative_time_kept`: relative time that the grammar admits.
- `Value.relative_time_overflows`: a conversion back to UTC that overflows.
-/
namespace LinkQuery

open Time (Period TimeUnit Timestamp Zone ZoneRules secondsPerDay)

namespace Value

open Rule Language ElementReader

variable {clock : Clock} {rest : List Element} {lang : Part → LogSet}

/-! ## What a log writes -/

/-- The move that a number and a unit behind a sign write. -/
def moveOf (negative : Bool) (number unit : String) : Option (Int × TimeUnit) := do
  let amount ← Text.signed? 64 number
  let unit ← TimeUnit.ofKeyword? unit
  return (if negative then negate amount else amount, unit)

/-- The move in the log of the present. -/
def writtenMove (log : List Token) : Option (Int × TimeUnit) := do
  let number ← log.find? (·.kind == .number)
  let unit ← log.find? (·.kind == .keyword)
  moveOf (log.any (·.isSymbol "-")) number.value unit.value

/-- The zone that a log names. -/
def writtenZone (log : List Token) : Option String :=
  (log.find? Token.isName).map (·.value)

/-- The units in the log of a period. -/
def writtenCount (log : List Token) : Nat :=
  ((log.find? (·.kind == .number)).bind fun number => Text.unsigned? 32 number.value).getD 1

/-! ## The present -/

/-- An offset is the move that is written, or it is refused before anything is moved. -/
theorem offset_cases (negative : Bool) (number word : String) (p q : Nat) (rest : List Element) :
    (∃ move, moveOf negative number word = some move ∧
      offset negative (.token ⟨.number, number, p⟩ :: .token ⟨.keyword, word, q⟩ :: rest) =
        .ok (move, rest)) ∨
    ∃ why, why ≠ .overflow ∧
      offset negative (.token ⟨.number, number, p⟩ :: .token ⟨.keyword, word, q⟩ :: rest) =
        .error why := by
  have hnext : ∀ (t : Token) (es : List Element) (k : Token → ElementReader (Int × TimeUnit)),
      (nextToken >>= k) (.token t :: es) = k t es := fun _ _ _ => rfl
  unfold offset moveOf
  rw [hnext]
  dsimp only
  cases Text.signed? 64 number with
  | none => exact Or.inr ⟨.invalid (.offsetNotWhole number), by simp, rfl⟩
  | some amount =>
    dsimp only
    rw [hnext]
    unfold unitOf
    dsimp only
    cases TimeUnit.ofKeyword? word with
    | none => exact Or.inr ⟨.internal (.unknownUnit word), by simp, rfl⟩
    | some unit => exact Or.inl ⟨_, rfl, rfl⟩

/-- In front of what closes a call, only the conversions behind a move can overflow. -/
theorem closedMove_overflow {zone : Option String} {negative : Bool} {number word : String}
    {p q r : Nat}
    (h : ((some <$> offset negative) (.token ⟨.number, number, p⟩ :: .token ⟨.keyword, word, q⟩ ::
        .token ⟨.symbol, ")", r⟩ :: rest) >>= fun found =>
          (ElementReader.symbol ")" >>= fun _ => ElementReader.lift (clock.nowIn zone found.1))
            found.2) = .error .overflow) :
    ∃ move, moveOf negative number word = some move ∧
      clock.nowIn zone (some move) = .error .overflow := by
  have hmap : ∀ es, (some <$> offset negative) es =
      (offset negative es).map fun found => (some found.1, found.2) := by
    intro es
    show offset negative es >>= _ = _
    cases offset negative es <;> rfl
  rw [hmap] at h
  rcases offset_cases negative number word p q (.token ⟨.symbol, ")", r⟩ :: rest) with
    ⟨move, hmove, hread⟩ | ⟨why, hwhy, hread⟩
  · rw [hread] at h
    refine ⟨move, hmove, ?_⟩
    have hclosed : (clock.nowIn zone (some move)).map (fun found => (found, rest)) =
        .error .overflow := h
    exact map_eq_error hclosed
  · rw [hread] at h
    exact absurd (Except.error.inj h) hwhy

/-- The present only overflows with the zone and the move that are written in its log. -/
theorem now_overflow {t : Token} {tail : List Token} (hlog : Produces lang Language.now (t :: tail))
    (hrest : NotOpening rest) (h : now clock (elements tail ++ rest) = .error .overflow) :
    ∃ move, writtenMove tail = some move ∧
      clock.nowIn (writtenZone tail) (some move) = .error .overflow := by
  rw [produces_now, single_chained] at hlog
  obtain ⟨_, tail, heq, hlog⟩ := hlog
  simp only [List.cons.injEq] at heq
  obtain ⟨rfl, rfl⟩ := heq
  have hnone : ∀ zone, (clock.nowIn zone none).map (fun found => (found, rest)) ≠
      .error .overflow := fun zone hmap => clock.nowIn_none_ne_overflow zone (map_eq_error hmap)
  rcases hlog with rfl | hlog
  · have hbare : now clock rest = (clock.nowIn none none).map fun found => (found, rest) := by
      unfold now symbolIf
      show (tokenIf? (·.isSymbol "(") rest >>= _) >>= _ = _
      rw [Takes.tokenIf_none hrest]
      rfl
    exact absurd (hbare.symm.trans h) (hnone none)
  obtain ⟨_, _, rfl, ⟨p, rfl⟩, inside, _, rfl, hinside, q, rfl⟩ := hlog
  -- the call is empty, or a move, or a zone with or without a move behind it
  rcases hinside with rfl | ⟨sign, _, rfl, hsign, _, _, rfl, ⟨number, s, rfl⟩, word, -, u, rfl⟩ |
    ⟨zone, more, rfl, hzone, hmore⟩
  · exact absurd h (hnone none)
  · rcases hsign with ⟨p', rfl⟩ | ⟨p', rfl⟩ <;> exact closedMove_overflow h
  · rcases hmore with rfl |
      ⟨_, _, rfl, ⟨r, rfl⟩, sign, _, rfl, hsign, _, _, rfl, ⟨number, s, rfl⟩, word, -, u, rfl⟩
    · rcases hzone with ⟨name, p', rfl⟩ | ⟨name, p', rfl⟩ <;> exact absurd h (hnone (some name))
    · rcases hzone with ⟨name, p', rfl⟩ | ⟨name, p', rfl⟩ <;>
        rcases hsign with ⟨p'', rfl⟩ | ⟨p'', rfl⟩ <;> exact closedMove_overflow h

/-! ## Periods -/

/-- The count of a period, up to the comma that may stand behind it. -/
theorem count_cases (keyword number : String) (p : Nat) (behind : List Element) :
    (∃ count, Text.unsigned? 32 number = some count ∧
      count? keyword (.token ⟨.number, number, p⟩ :: behind) =
        (symbolIf "," >>= fun _ => pure (some count)) behind) ∨
    ∃ why, why ≠ .overflow ∧
      count? keyword (.token ⟨.number, number, p⟩ :: behind) = .error why := by
  have hnext : ∀ k : Option Token → ElementReader (Option Nat),
      (tokenIf? (·.kind == .number) >>= k) (.token ⟨.number, number, p⟩ :: behind) =
        k (some ⟨.number, number, p⟩) behind := fun _ => rfl
  unfold count?
  rw [hnext]
  dsimp only
  cases Text.unsigned? 32 number with
  | none => exact Or.inr ⟨.invalid (.periodCount number), by simp, rfl⟩
  | some count =>
    cases count with
    | zero => exact Or.inr ⟨.invalid (.emptyPeriod keyword), by simp, rfl⟩
    | succ count => exact Or.inl ⟨count + 1, rfl, rfl⟩

/-- Arguments that begin with a count, in front of what is read as a zone. -/
theorem counted_cases {keyword number : String} {p q : Nat} {behind : List Element}
    {zone : Option String}
    (hzone : ∀ count : Nat, ((symbolIf "," >>= fun _ => pure (some count)) behind >>= fun found =>
      (zoneName? >>= fun zone => ElementReader.symbol ")" >>= fun _ => pure (found.1, zone))
        found.2) = .ok ((some count, zone), rest)) :
    (∃ count : Option Nat, count.getD 1 = (Text.unsigned? 32 number).getD 1 ∧
      periodArguments keyword
        (.token ⟨.symbol, "(", p⟩ :: .token ⟨.number, number, q⟩ :: behind) =
          .ok ((count, zone), rest)) ∨
    ∃ why, why ≠ .overflow ∧ periodArguments keyword
      (.token ⟨.symbol, "(", p⟩ :: .token ⟨.number, number, q⟩ :: behind) = .error why := by
  have hopened : periodArguments keyword
      (.token ⟨.symbol, "(", p⟩ :: .token ⟨.number, number, q⟩ :: behind) =
      count? keyword (.token ⟨.number, number, q⟩ :: behind) >>= fun found =>
        (zoneName? >>= fun zone => ElementReader.symbol ")" >>= fun _ => pure (found.1, zone))
          found.2 := rfl
  rw [hopened]
  rcases count_cases keyword number q behind with ⟨count, hcount, hread⟩ | ⟨why, hwhy, hread⟩
  · refine Or.inl ⟨some count, by rw [hcount], ?_⟩
    rw [hread]
    exact hzone count
  · refine Or.inr ⟨why, hwhy, ?_⟩
    rw [hread]
    rfl

/-- What the arguments of a period say. -/
theorem periodArguments_cases {keyword : String} {t : Token} {tail : List Token}
    (hlog : Produces lang Language.period (t :: tail)) (hrest : NotOpening rest) :
    (∃ count : Option Nat, count.getD 1 = writtenCount tail ∧
      periodArguments keyword (elements tail ++ rest) = .ok ((count, writtenZone tail), rest)) ∨
    ∃ why, why ≠ .overflow ∧ periodArguments keyword (elements tail ++ rest) = .error why := by
  rw [produces_period] at hlog
  obtain ⟨_, tail, heq, ⟨word, -, p, rfl⟩, hlog⟩ := hlog
  simp only [List.singleton_append, List.cons.injEq] at heq
  obtain ⟨rfl, rfl⟩ := heq
  rcases hlog with rfl | hlog
  · have hbare : periodArguments keyword rest = .ok ((none, none), rest) := by
      unfold periodArguments symbolIf
      show (tokenIf? (·.isSymbol "(") rest >>= _) >>= _ = _
      rw [Takes.tokenIf_none hrest]
      rfl
    exact Or.inl ⟨none, rfl, hbare⟩
  obtain ⟨_, _, rfl, ⟨p, rfl⟩, inside, _, rfl, hinside, q, rfl⟩ := hlog
  rcases hinside with rfl | ⟨_, more, rfl, ⟨number, s, rfl⟩, hmore⟩ | hzone
  · exact Or.inl ⟨none, rfl, rfl⟩
  · rcases hmore with rfl | ⟨_, zone, rfl, ⟨r, rfl⟩, hzone⟩
    · exact counted_cases fun _ => rfl
    · rcases hzone with ⟨name, p', rfl⟩ | ⟨name, p', rfl⟩ <;> exact counted_cases fun _ => rfl
  · rcases hzone with ⟨name, p', rfl⟩ | ⟨name, p', rfl⟩ <;> exact Or.inl ⟨none, rfl, rfl⟩

/-- A period only overflows with the count and the zone that are written in its log. -/
theorem span_overflow {keyword : String} {period : Period} {t : Token} {tail : List Token}
    (hlog : Produces lang Language.period (t :: tail)) (hrest : NotOpening rest)
    (h : span clock keyword period (elements tail ++ rest) = .error .overflow) :
    clock.periodSpan period (writtenCount tail) (writtenZone tail) = .error .overflow := by
  rcases bind_eq_error h with hlost | ⟨⟨⟨count, zone⟩, behind⟩, hread, hspan⟩
  · rcases periodArguments_cases hlog hrest with ⟨count, -, hread⟩ | ⟨why, hwhy, hread⟩
    · rw [hread] at hlost
      cases hlost
    · rw [hread] at hlost
      exact absurd (Except.error.inj hlost) hwhy
  · rcases periodArguments_cases hlog hrest with ⟨found, hcount, hfound⟩ | ⟨why, -, hfound⟩
    · rw [hfound] at hread
      obtain ⟨⟨rfl, rfl⟩, rfl⟩ : (found = count ∧ writtenZone tail = zone) ∧ rest = behind := by
        simpa using hread
      rw [← hcount]
      dsimp only at hspan
      split at hspan
      · cases hspan
      · exact map_eq_error hspan
    · rw [hfound] at hread
      cases hread

/-! ## Relative time -/

/-- The negation of a number only wraps around at the least one. -/
theorem negate_eq {number : String} {amount : Int} (h : Text.signed? 64 number = some amount) :
    negate amount = -amount ∨ negate amount = -(Text.bitBound 63 : Int) := by
  have hrange : -(Text.bitBound 63 : Int) ≤ amount ∧ amount < Text.bitBound 63 := by
    unfold Text.signed? at h
    split at h <;> simpa using (Option.filter_eq_some_iff.mp h).2
  have hbound : (Text.bitBound 63 : Int) = 9223372036854775808 := by decide
  by_cases hleast : amount = -(Text.bitBound 63 : Int)
  · right
    rw [hleast]
    decide
  · left
    have h64 : Text.bitBound 64 = 18446744073709551616 := by decide
    unfold negate
    rw [h64]
    exact Int.bmod_eq_of_le (by omega) (by omega)

/-- Relative time that the grammar admits is read as timestamps that are kept, or is refused as
invalid. A conversion only overflows where the present, or the local time that it is moved to,
stands near an end of the calendar. The negation of an amount only wraps around at the least one,
and what it wraps to leads out of the range. -/
theorem relative_time_kept {clock : Clock} (hzone : clock.zone.Lawful)
    (hsecond : clock.now.second < secondsPerDay) (hrange : clock.now.inRange = true) :
    (∀ (N : Type) [ZoneRules N] (zone : Zone N), zone.Lawful →
      (∀ amount unit, KeptUnless (fun moved => moved.inRange = true)
        (zone.MovesNearEnd clock.now amount unit)
        ((zone.moved clock.now amount unit).mapError QueryError.ofMove)) ∧
      ∀ (period : Period) count,
        KeptUnless (fun ends => ends.1.inRange = true ∧ ends.2.inRange = true)
          (period.SpansNearEnd count zone clock.now)
          ((period.resolve count zone clock.now).mapError QueryError.ofMove)) ∧
    (∀ log, Produces lang relativeTime log → ∀ rest, NotOpening rest → ∃ t tail, log = t :: tail ∧
      (startOf t = .now ∧
          KeptUnless (fun found => found.1.inRange = true ∧ found.2 = rest)
            (∃ amount unit zone, writtenMove tail = some (amount, unit) ∧
              clock.zoneFor (writtenZone tail) = .ok zone ∧
              zone.MovesNearEnd clock.now amount unit)
            (now clock (elements tail ++ rest)) ∨
        ∃ period, startOf t = .period period ∧
          KeptUnless (fun found => (found.1.1.inRange = true ∧ found.1.2.inRange = true) ∧
              found.2 = rest)
            (∃ zone, clock.zoneFor (writtenZone tail) = .ok zone ∧
              period.SpansNearEnd (writtenCount tail) zone clock.now)
            (span clock t.value period (elements tail ++ rest)))) ∧
    ∀ number amount, Text.signed? 64 number = some amount → negate amount = -amount ∨
      ∀ t : Timestamp, t.second < secondsPerDay → t.inRange = true →
        ∀ unit, t.shift (negate amount) unit = none := by
  have hshows := Clock.shows_kept hrange
  refine ⟨fun N _ zone hlawful => ⟨fun amount unit => ?_, fun period count => ?_⟩,
    fun log hlog rest hrest => ?_, fun number amount hread => ?_⟩
  · exact Zone.moved_kept hlawful hsecond
  · exact Period.resolve_kept hlawful hsecond
  · obtain ⟨t, tail, rfl, ⟨hstart, hnow⟩ | ⟨period, hstart, hperiod⟩⟩ := relativeTime_start hlog
    · refine ⟨t, tail, rfl, Or.inl ⟨hstart, ?_⟩⟩
      refine ((now_takes hshows hnow).yields hrest).keptUnless fun hlost => ?_
      obtain ⟨⟨amount, unit⟩, hmove, hlost⟩ := now_overflow hnow hrest hlost
      obtain ⟨zone, hfound, hend⟩ := Clock.nowIn_overflow hzone hsecond hlost
      exact ⟨amount, unit, zone, hmove, hfound, hend⟩
    · refine ⟨t, tail, rfl, Or.inr ⟨period, hstart, ?_⟩⟩
      refine ((span_takes hshows hperiod).yields hrest).keptUnless fun hlost => ?_
      exact Clock.periodSpan_overflow hzone hsecond (span_overflow hperiod hrest hlost)
  · rcases negate_eq hread with hexact | hleast
    · exact Or.inl hexact
    · exact Or.inr fun t ht hkept unit => Timestamp.shift_least ht hkept (Int.le_of_eq hleast) unit

/-- A present that is moved by days in a zone. -/
def movedPresent (zone days : String) : List Token :=
  [⟨.keyword, "NOW", 0⟩, ⟨.symbol, "(", 3⟩, ⟨.quoted, zone, 4⟩, ⟨.symbol, ",", 12⟩,
    ⟨.symbol, "+", 14⟩, ⟨.number, days, 15⟩, ⟨.keyword, "DAYS", 24⟩, ⟨.symbol, ")", 28⟩]

/-- The last years in a zone. -/
def lastYears (count zone : String) : List Token :=
  [⟨.keyword, "LASTYEAR", 0⟩, ⟨.symbol, "(", 8⟩, ⟨.number, count, 9⟩, ⟨.symbol, ",", 15⟩,
    ⟨.quoted, zone, 17⟩, ⟨.symbol, ")", 25⟩]

theorem produces_movedPresent (zone days : String) :
    Produces lang relativeTime (movedPresent zone days) := by
  simp only [relativeTime, Produces, ProducesAny, or_false]
  refine Or.inl ?_
  rw [produces_now]
  refine ⟨[_], _, rfl, ⟨0, rfl⟩, Or.inr ⟨[_], _, rfl, ⟨3, rfl⟩,
    [_, _, _, _, _], [_], rfl, Or.inr (Or.inr ?_), ⟨28, rfl⟩⟩⟩
  exact ⟨[_], _, rfl, Or.inl ⟨zone, 4, rfl⟩, Or.inr ⟨[_], _, rfl, ⟨12, rfl⟩,
    [_], _, rfl, Or.inl ⟨14, rfl⟩, [_], [_], rfl, ⟨days, 15, rfl⟩, "DAYS", by decide, 24, rfl⟩⟩

theorem produces_lastYears (count zone : String) :
    Produces lang relativeTime (lastYears count zone) := by
  simp only [relativeTime, Produces, ProducesAny, or_false]
  refine Or.inr ?_
  rw [produces_period]
  refine ⟨[_], _, rfl, ⟨"LASTYEAR", by decide, 0, rfl⟩, Or.inr ⟨[_], _, rfl, ⟨8, rfl⟩,
    [_, _, _], [_], rfl, Or.inr (Or.inl ?_), ⟨25, rfl⟩⟩⟩
  exact ⟨[_], _, rfl, ⟨count, 9, rfl⟩, Or.inr ⟨[_], _, rfl, ⟨15, rfl⟩, Or.inl ⟨zone, 17, rfl⟩⟩⟩

/-- The morning of 15 March 2024. -/
def march : Clock := ⟨.utc, "UTC", ⟨738959, 37800, 0⟩⟩

/-- A day later, and the two years in front. -/
theorem relative_time_kept_march :
    (∃ found, now march (elements (movedPresent "GMT-12" "1").tail) = .ok (found, []) ∧
      found.inRange = true) ∧
    ∃ found, span march "LASTYEAR" (.last .year) (elements (lastYears "2" "GMT+14").tail) =
      .ok (found, []) ∧ found.1.inRange = true ∧ found.2.inRange = true := by
  obtain ⟨-, hread, -⟩ := @relative_time_kept (fun (_ : Part) _ => False) march
    ⟨by decide, by decide⟩ (by decide) (by decide +kernel)
  have hnow : now march (elements (movedPresent "GMT-12" "1").tail) =
      .ok (⟨738960, 37800, 0⟩, []) := by decide +kernel
  have hspan : span march "LASTYEAR" (.last .year) (elements (lastYears "2" "GMT+14").tail) =
      .ok ((⟨738154, 36000, 0⟩, ⟨738884, 36000, 0⟩), []) := by decide +kernel
  obtain ⟨_, _, heq, hkept⟩ := hread _ (produces_movedPresent "GMT-12" "1") [] Without.nil
  obtain ⟨_, _, heq', hkept'⟩ := hread _ (produces_lastYears "2" "GMT+14") [] Without.nil
  obtain ⟨rfl, rfl⟩ := List.cons.inj heq
  obtain ⟨rfl, rfl⟩ := List.cons.inj heq'
  have hyears : startOf ⟨.keyword, "LASTYEAR", 0⟩ = .period (.last .year) := rfl
  constructor
  · rcases hkept with ⟨-, hkept⟩ | ⟨period, hstart, -⟩
    · rw [List.append_nil] at hkept
      exact ⟨_, hnow, (hkept.of_ok hnow).1⟩
    · cases hstart
  · rcases hkept' with ⟨hstart, -⟩ | ⟨period, hstart, hkept⟩
    · cases hyears.symm.trans hstart
    · obtain rfl := Start.period.inj (hyears.symm.trans hstart)
      rw [List.append_nil] at hkept
      exact ⟨_, hspan, (hkept.of_ok hspan).1⟩

/-- A conversion back to UTC that overflows behind a move that is not refused. -/
theorem relative_time_overflows :
    Produces (fun (_ : Part) _ => False) relativeTime (movedPresent "GMT-12" "95006440") ∧
      now march (elements (movedPresent "GMT-12" "95006440").tail) = .error .overflow ∧
    Produces (fun (_ : Part) _ => False) relativeTime (lastYears "264167" "GMT+14") ∧
      span march "LASTYEAR" (.last .year) (elements (lastYears "264167" "GMT+14").tail) =
        .error .overflow :=
  ⟨produces_movedPresent _ _, by decide +kernel, produces_lastYears _ _, by decide +kernel⟩

end Value

end LinkQuery
