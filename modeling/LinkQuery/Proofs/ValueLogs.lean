import LinkQuery.Language.FilterRules
import LinkQuery.Proofs.Logs
import LinkQuery.Proofs.Readers
import LinkQuery.Value
/-!
# Reading the logs of values

The logs that the grammar produces for relative time, bounds, ranges and values are read from end to
end. Instants in what is read satisfy whatever the instants of the clock do.

Main statements:
- `Value.now_takes`, `Value.span_takes`: the present and the periods.
- `Value.read_takes`: a value, an interval or a refused null.
-/
namespace LinkQuery

open Rule Language ElementReader Time

/-! ## Instants -/

/-- What holds of every instant that the clock can show or a text can write. -/
structure Clock.Shows (clock : Clock) (good : Timestamp → Prop) : Prop where
  now : ∀ name offset, Yields good (clock.nowIn name offset)
  span : ∀ period count name,
    Yields (fun s => good s.1 ∧ good s.2) (clock.periodSpan period count name)
  text : ∀ text t, Timestamp.ofText? text = some t → good t

theorem Settings.zoneNamed_yields (name : String) : Yields (fun _ => True) (zoneNamed name) := by
  unfold zoneNamed
  split <;> trivial

theorem Clock.zoneFor_yields (clock : Clock) (name : Option String) :
    Yields (fun _ => True) (clock.zoneFor name) := by
  cases name with
  | none => trivial
  | some name => exact Settings.zoneNamed_yields name

/-- A move that gives no timestamp refuses the expression. -/
theorem Yields.ofMove {α : Type} {P : α → Prop} {r : Except MoveError α}
    (h : ∀ a, r = .ok a → P a) : Yields P (r.mapError QueryError.ofMove) := by
  cases r with
  | ok a => exact h a rfl
  | error why => cases why <;> trivial

/-- The clock shows instants, if nothing more is asked of them. -/
theorem Clock.shows_any (clock : Clock) : clock.Shows fun _ => True := by
  refine ⟨fun name offset => ?_, fun period count name => ?_, fun _ _ _ => trivial⟩
  · unfold nowIn
    refine (clock.zoneFor_yields name).bind fun zone _ => ?_
    cases offset with
    | none => trivial
    | some offset => exact Yields.ofMove fun _ _ => trivial
  · unfold periodSpan
    exact (clock.zoneFor_yields name).bind fun zone _ => Yields.ofMove fun _ _ => ⟨trivial, trivial⟩

/-- The instant in a value, if there is one, satisfies a property. -/
def RawValue.Good (good : Timestamp → Prop) : RawValue → Prop
  | .instant t => good t
  | _ => True

/-- The bounds of an interval satisfy a property. -/
def Interval.Bounds {α : Type} (P : α → Prop) (range : Interval α) : Prop :=
  (∀ bound ∈ range.min, P bound) ∧ ∀ bound ∈ range.max, P bound

/-- The bounds of an interval satisfy what follows from what they satisfy. -/
theorem Interval.Bounds.mono {α : Type} {P Q : α → Prop} {range : Interval α}
    (h : range.Bounds P) (hPQ : ∀ a, P a → Q a) : range.Bounds Q :=
  ⟨fun bound hbound => hPQ bound (h.1 bound hbound), fun bound hbound => hPQ bound (h.2 bound hbound)⟩

/-- The instants in a value satisfy a property. -/
def Value.Good (good : Timestamp → Prop) : Value → Prop
  | .raw value => value.Good good
  | .interval range => range.Bounds (RawValue.Good good)

/-! ## Logs of tokens -/

section Shapes

variable {ν : Type} (lang : ν → LogSet)

/-- The logs of an offset. -/
def Language.OffsetLog : LogSet :=
  Chained (fun log => Single .symbol "+" log ∨ Single .symbol "-" log)
    (Chained (fun log => ∃ value, Single .number value log) (OneKeyword timeUnitWords))

/-- The logs of the name of a zone. -/
def Language.ZoneLog : LogSet :=
  fun log => (∃ value, Single .quoted value log) ∨ ∃ value, Single .word value log

/-- A log in parentheses. -/
def Language.InParentheses (A : LogSet) : LogSet :=
  Chained (Single .symbol "(") (Chained A (Single .symbol ")"))

theorem produces_timeOffset : Produces lang timeOffset = OffsetLog := by
  simp [timeOffset, timeUnit, OffsetLog, Produces, ProducesAll, ProducesAny]

theorem produces_zoneName : Produces lang zoneName = ZoneLog := by
  funext log
  simp [zoneName, ZoneLog, Produces, ProducesAny]

theorem produces_now : Produces lang Language.now =
    Chained (Single .keyword "NOW") (fun log => log = [] ∨
      InParentheses (fun log => log = [] ∨ OffsetLog log ∨
        Chained ZoneLog (fun log => log = [] ∨ Chained (Single .symbol ",") OffsetLog log) log) log) := by
  simp [Language.now, produces_timeOffset, produces_zoneName, Produces, ProducesAll, ProducesAny,
    InParentheses]

theorem produces_period : Produces lang Language.period =
    Chained (OneKeyword periodWords) (fun log => log = [] ∨
      InParentheses (fun log => log = [] ∨
        Chained (fun log => ∃ value, Single .number value log)
          (fun log => log = [] ∨ Chained (Single .symbol ",") ZoneLog log) log ∨ ZoneLog log) log) := by
  simp [Language.period, produces_zoneName, Produces, ProducesAll, ProducesAny, InParentheses]

end Shapes

/-- A log outside of paths as elements. -/
def elements (log : List Token) : List Element := log.map .token

@[simp]
theorem elements_nil : elements [] = [] := rfl

@[simp]
theorem elements_cons (t : Token) (log : List Token) :
    elements (t :: log) = .token t :: elements log := rfl

@[simp]
theorem elements_append (a b : List Token) : elements (a ++ b) = elements a ++ elements b :=
  List.map_append ..

/-- No opening parenthesis may follow. -/
abbrev NotOpening : List Element → Prop := Without (·.isSymbol "(")

namespace Value

variable {lang : Part → LogSet} {clock : Clock} {good : Timestamp → Prop}

/-! ## The present -/

theorem unitOf_yields {t : Token} (h : t.value ∈ timeUnitWords) :
    Yields (fun _ => True) (unitOf t) := by
  have hall : timeUnitWords.all (fun word => (TimeUnit.ofKeyword? word).isSome) = true := by decide
  have hsome := List.all_eq_true.mp hall t.value h
  unfold unitOf
  split
  · trivial
  · rename_i hnone
    simp [hnone] at hsome

theorem offset_takes {tail : List Token} {value : String} {p : Nat} (negative : Bool)
    {follow : List Element → Prop} (h : OneKeyword timeUnitWords tail) :
    Takes (offset negative) (elements (⟨.number, value, p⟩ :: tail)) follow (fun _ => True) := by
  obtain ⟨word, hword, q, rfl⟩ := h
  unfold offset
  refine Takes.nextToken ?_
  dsimp only
  split
  · exact Takes.refuse _
  · refine Takes.nextToken ?_
    refine Takes.lift_bind (unitOf_yields hword) fun unit _ => ?_
    exact Takes.pure trivial

/-- An offset in front of what closes a call. -/
theorem someOffset_takes {α : Type} {log : List Token} {P : α → Prop}
    {follow : List Element → Prop} {k : Option (Int × TimeUnit) → ElementReader α} {q : Nat}
    (hlog : OffsetLog log)
    (hk : ∀ moved, Takes (k moved) [.token ⟨.symbol, ")", q⟩] follow P) :
    Takes (tokenIf? (fun t => t.isSymbol "+" || t.isSymbol "-") >>= fun found =>
        match found with
        | none => k none
        | some sign => do
          let a ← offset (sign.value == "-")
          k (some a))
      (elements log ++ [.token ⟨.symbol, ")", q⟩]) follow P := by
  obtain ⟨sign, _, rfl, hsign, _, _, rfl, ⟨value, p, rfl⟩, hunit⟩ := hlog
  obtain ⟨t, rfl, ht⟩ : ∃ t, sign = [t] ∧ (t.isSymbol "+" || t.isSymbol "-") = true := by
    rcases hsign with ⟨p', rfl⟩ | ⟨p', rfl⟩ <;> exact ⟨_, rfl, rfl⟩
  refine Takes.tokenIf ht ?_
  exact Takes.bindAnything (offset_takes _ hunit) fun moved _ => hk (some moved)

/-- No offset in front of what closes a call. -/
theorem noOffset_takes {α : Type} {P : α → Prop} {follow : List Element → Prop}
    {k : Option (Int × TimeUnit) → ElementReader α} {q : Nat}
    (hk : ∀ moved, Takes (k moved) [.token ⟨.symbol, ")", q⟩] follow P) :
    Takes (tokenIf? (fun t => t.isSymbol "+" || t.isSymbol "-") >>= fun found =>
        match found with
        | none => k none
        | some sign => do
          let a ← offset (sign.value == "-")
          k (some a))
      [.token ⟨.symbol, ")", q⟩] follow P :=
  Takes.tokenIf_not (fun _ _ => Without.cons rfl) (hk none)

theorem zoneToken {log : List Token} (h : ZoneLog log) : ∃ t, log = [t] ∧ t.isName = true ∧
    (∀ text, t.isSymbol text = false) ∧ (t.kind == .number) = false := by
  rcases h with ⟨value, p, rfl⟩ | ⟨value, p, rfl⟩ <;> exact ⟨_, rfl, rfl, fun _ => rfl, rfl⟩

/-- What follows the keyword of the present. -/
theorem now_takes
    (hclock : clock.Shows good) {t : Token} {tail : List Token}
    (h : Produces lang Language.now (t :: tail)) :
    Takes (now clock) (elements tail) NotOpening good := by
  rw [produces_now, single_chained] at h
  obtain ⟨_, tail, heq, h⟩ := h
  simp only [List.cons.injEq] at heq
  obtain ⟨rfl, rfl⟩ := heq
  unfold now
  rcases h with rfl | h
  · refine Takes.symbolIf_not (fun rest hrest => hrest) ?_
    simp only [Bool.not_false, if_true]
    exact Takes.lift (hclock.now none none)
  obtain ⟨_, _, rfl, ⟨p, rfl⟩, inside, _, rfl, hinside, q, rfl⟩ := h
  have hclosing : ∀ zone moved, Takes (do
      ElementReader.symbol ")"
      ElementReader.lift (clock.nowIn zone moved)) [.token ⟨.symbol, ")", q⟩] NotOpening good :=
    fun zone moved => Takes.symbol rfl (Takes.lift (hclock.now zone moved))
  simp only [elements_append, elements_cons, elements_nil, List.cons_append, List.nil_append]
  refine Takes.symbolIf rfl ?_
  simp only [zoneName?, Bool.not_true, Bool.false_eq_true, if_false, bind_assoc, pure_bind,
    map_eq_pure_bind]
  rcases hinside with rfl | hoffset | ⟨zone, more, rfl, hzone, hmore⟩
  · refine Takes.tokenIf_not (fun _ _ => Without.cons rfl) ?_
    exact noOffset_takes (hclosing none)
  · refine Takes.tokenIf_not ?_ ?_
    · obtain ⟨_, _, rfl, ⟨p', rfl⟩ | ⟨p', rfl⟩, -⟩ := hoffset <;>
        exact fun _ _ => Without.cons rfl
    · exact someOffset_takes hoffset (hclosing none)
  · obtain ⟨t, rfl, ht, -⟩ := zoneToken hzone
    simp only [elements_cons, List.cons_append, List.nil_append]
    refine Takes.tokenIf ht ?_
    simp only [Option.map_some, Option.isSome_some, if_true]
    rcases hmore with rfl | ⟨_, _, rfl, ⟨p', rfl⟩, hoffset⟩
    · refine Takes.symbolIf_not (fun _ _ => Without.cons rfl) ?_
      exact noOffset_takes (hclosing (some t.value))
    · refine Takes.symbolIf rfl ?_
      exact someOffset_takes hoffset (hclosing (some t.value))

/-! ## Periods -/

theorem count_takes {keyword value : String} {p : Nat} {c : List Element}
    {follow : List Element → Prop} {α : Type} {k : Option Nat → ElementReader α} {P : α → Prop}
    {behind : List Element} (hcomma : c = [] ∨ ∃ q, c = [.token ⟨.symbol, ",", q⟩])
    (hbehind : ∀ rest, follow rest → Without (·.isSymbol ",") (behind ++ rest))
    (hk : ∀ count, Takes (k count) behind follow P) :
    Takes (count? keyword >>= k) (.token ⟨.number, value, p⟩ :: (c ++ behind)) follow P := by
  unfold count?
  simp only [bind_assoc]
  refine Takes.tokenIf rfl ?_
  dsimp only
  cases hcount : Text.unsigned? 32 value with
  | none => exact Takes.refuse_bind _
  | some count =>
    cases count with
    | zero => exact Takes.refuse_bind _
    | succ count =>
      simp only [bind_assoc, pure_bind]
      rcases hcomma with rfl | ⟨q, rfl⟩
      · exact Takes.symbolIf_not hbehind (hk _)
      · exact Takes.symbolIf rfl (hk _)

theorem noCount_takes {keyword : String} {follow : List Element → Prop} {α : Type}
    {k : Option Nat → ElementReader α} {P : α → Prop} {behind : List Element}
    (hbehind : ∀ rest, follow rest → Without (·.kind == .number) (behind ++ rest))
    (hk : Takes (k none) behind follow P) : Takes (count? keyword >>= k) behind follow P := by
  unfold count?
  simp only [bind_assoc]
  refine Takes.tokenIf_not hbehind ?_
  simpa only [pure_bind] using hk

/-- The arguments of a period behind its keyword. -/
theorem periodArguments_takes {keyword : String} {t : Token}
    {tail : List Token} (h : Produces lang Language.period (t :: tail)) :
    Takes (periodArguments keyword) (elements tail) NotOpening (fun _ => True) := by
  rw [produces_period] at h
  obtain ⟨_, tail, heq, ⟨word, -, p, rfl⟩, h⟩ := h
  simp only [List.singleton_append, List.cons.injEq] at heq
  obtain ⟨rfl, rfl⟩ := heq
  unfold periodArguments
  rcases h with rfl | h
  · refine Takes.symbolIf_not (fun rest hrest => hrest) ?_
    exact Takes.pure trivial
  obtain ⟨_, _, rfl, ⟨p, rfl⟩, inside, _, rfl, hinside, q, rfl⟩ := h
  simp only [elements_append, elements_cons, elements_nil, List.cons_append, List.nil_append]
  refine Takes.symbolIf rfl ?_
  simp only [zoneName?, Bool.not_true, Bool.false_eq_true, if_false, bind_assoc, pure_bind]
  have hclosing : ∀ count zone, Takes (do
      ElementReader.symbol ")"
      pure (count, zone)) [.token ⟨.symbol, ")", q⟩] NotOpening
        (fun _ : Option Nat × Option String => True) :=
    fun count zone => Takes.symbol rfl (Takes.pure trivial)
  rcases hinside with rfl | ⟨_, more, rfl, ⟨value, p', rfl⟩, hmore⟩ | hzone
  · refine noCount_takes (fun _ _ => Without.cons rfl) ?_
    exact Takes.tokenIf_not (fun _ _ => Without.cons rfl) (hclosing none none)
  · simp only [elements_cons, List.cons_append, List.nil_append]
    rcases hmore with rfl | ⟨_, zone, rfl, ⟨p'', rfl⟩, hzone⟩
    · refine count_takes (c := []) (Or.inl rfl) (fun _ _ => Without.cons rfl) fun count => ?_
      exact Takes.tokenIf_not (fun _ _ => Without.cons rfl) (hclosing count none)
    · obtain ⟨t, rfl, ht, hsymbol, -⟩ := zoneToken hzone
      refine count_takes (c := [_]) (Or.inr ⟨_, rfl⟩) ?_ fun count => ?_
      · exact fun _ _ => Without.cons (hsymbol ",")
      · exact Takes.tokenIf ht (hclosing count _)
  · obtain ⟨t, rfl, ht, -, hnumber⟩ := zoneToken hzone
    refine noCount_takes (fun _ _ => Without.cons hnumber) ?_
    exact Takes.tokenIf ht (hclosing none _)

/-- What follows the keyword of a period. -/
theorem span_takes (hclock : clock.Shows good) {keyword : String} {period : Period} {t : Token}
    {tail : List Token} (h : Produces lang Language.period (t :: tail)) :
    Takes (span clock keyword period) (elements tail) NotOpening
      (fun s => good s.1 ∧ good s.2) := by
  unfold span
  refine Takes.andThen (periodArguments_takes h) fun arguments _ => ?_
  obtain ⟨count, zone⟩ := arguments
  dsimp only
  split
  · exact Takes.refuse_bind _
  · exact Takes.lift (hclock.span period _ zone)

/-! ## Bounds and values -/

/-- What a token of relative time begins. -/
theorem relativeTime_start {log : List Token}
    (h : Produces lang relativeTime log) :
    ∃ t tail, log = t :: tail ∧
      ((startOf t = .now ∧ Produces lang Language.now (t :: tail)) ∨
        ∃ period, startOf t = .period period ∧ Produces lang Language.period (t :: tail)) := by
  simp only [relativeTime, Produces, ProducesAny, or_false] at h
  rcases h with h | h
  · have hlog := h
    rw [produces_now, single_chained] at hlog
    obtain ⟨p, tail, rfl, -⟩ := hlog
    exact ⟨_, _, rfl, Or.inl ⟨rfl, h⟩⟩
  · have hlog := h
    rw [produces_period] at hlog
    obtain ⟨_, tail, rfl, ⟨word, hword, p, rfl⟩, -⟩ := hlog
    have hall : periodWords.all (fun word => word != "NOW" && (Period.ofKeyword? word).isSome)
        = true := by decide
    have hone := List.all_eq_true.mp hall word hword
    simp only [Bool.and_eq_true, bne_iff_ne, ne_eq, Option.isSome_iff_exists] at hone
    obtain ⟨hnow, period, hperiod⟩ := hone
    exact ⟨_, _, rfl, Or.inr ⟨period, by simp [startOf, hnow, hperiod], h⟩⟩

/-- Reading a token that is a value, or the present, or a period. -/
theorem bound_takes (hclock : clock.Shows good) {lower : Bool} {log : List Token}
    (h : Produces lang Language.bound log) :
    Takes (bound clock lower) (elements log) NotOpening
      (fun b => ∀ value ∈ b, RawValue.Good good value) := by
  simp only [Language.bound, Produces, ProducesAny, produces_symbol, or_false] at h
  unfold bound
  rcases h with ⟨p, rfl⟩ | h | ⟨value, p, rfl⟩ | ⟨value, p, rfl⟩ | ⟨value, p, rfl⟩
  · refine Takes.nextToken ?_
    exact Takes.pure (by simp)
  · obtain ⟨t, tail, rfl, ⟨hstart, hnow⟩ | ⟨period, hstart, hperiod⟩⟩ := relativeTime_start h
    · refine Takes.nextToken ?_
      rw [hstart]
      refine Takes.andThen (now_takes hclock hnow) fun instant hgood => ?_
      exact Takes.pure (by simpa [RawValue.Good] using hgood)
    · refine Takes.nextToken ?_
      rw [hstart]
      refine Takes.andThen (span_takes hclock hperiod) fun s hgood => ?_
      obtain ⟨start, finish⟩ := s
      refine Takes.pure ?_
      cases lower with
      | true => simpa [RawValue.Good] using hgood.1
      | false => simpa [RawValue.Good] using hgood.2
  · exact Takes.nextToken (Takes.pure (by simp [RawValue.Good]))
  · exact Takes.nextToken (Takes.pure (by simp [RawValue.Good]))
  · exact Takes.nextToken (Takes.pure (by simp [RawValue.Good]))

/-- An interval behind its opening bracket. -/
theorem readInterval_takes (hclock : clock.Shows good) {inclusive : Bool}
    {a b : List Token} {p q : Nat} {close : String} (hclose : close = "]" ∨ close = "\x7d")
    (ha : Produces lang Language.bound a) (hb : Produces lang Language.bound b)
    {follow : List Element → Prop} :
    Takes (readInterval clock inclusive)
      (elements a ++ .token ⟨.keyword, "TO", p⟩ :: (elements b ++ [.token ⟨.symbol, close, q⟩]))
      follow (Interval.Bounds (RawValue.Good good)) := by
  unfold readInterval
  refine Takes.bind (bound_takes hclock ha) (fun _ _ => Without.cons rfl) fun min hmin => ?_
  refine Takes.keywordIf rfl ?_
  simp only [Bool.not_true, Bool.false_eq_true, if_false]
  refine Takes.bind (bound_takes hclock hb) ?_ fun max hmax => ?_
  · refine fun _ _ => Without.cons ?_
    rcases hclose with rfl | rfl <;> rfl
  refine Takes.nextToken ?_
  have hinclusive : Yields (fun _ => True) (closesInclusively close) := by
    rcases hclose with rfl | rfl <;> trivial
  exact Takes.lift_bind hinclusive fun _ _ => Takes.pure ⟨hmin, hmax⟩

/-- The logs of ranges. -/
theorem produces_range (log : List Token) (h : Produces lang Language.range log) :
    ∃ p opening a q b r close, (opening = "[" ∨ opening = "\x7b") ∧ (close = "]" ∨ close = "\x7d") ∧
      Produces lang Language.bound a ∧ Produces lang Language.bound b ∧
      log = ⟨.symbol, opening, p⟩ :: (a ++ ⟨.keyword, "TO", q⟩ :: (b ++ [⟨.symbol, close, r⟩])) := by
  simp only [Language.range, Produces, ProducesAll, ProducesAny, produces_symbol, or_false,
    chained_nil_right] at h
  obtain ⟨first, _, rfl, hfirst, a, _, rfl, ha, _, _, rfl, ⟨q, rfl⟩, b, last, rfl, hb, hlast⟩ := h
  rcases hfirst with ⟨p, rfl⟩ | ⟨p, rfl⟩ <;> rcases hlast with ⟨r, rfl⟩ | ⟨r, rfl⟩ <;>
    exact ⟨p, _, a, q, b, r, _, by simp, by simp, ha, hb, rfl⟩

/-- The logs of a value that is no range and not null. -/
def PlainLog (lang : Part → LogSet) : LogSet :=
  Produces lang (.choice [relativeTime, .quoted, .number, .word])

/-- A value that is an interval has a lower bound. -/
def HasStart : Value → Prop
  | .raw _ => True
  | .interval range => range.min.isSome = true

/-- Reading relative time or a single token. -/
theorem read_plain_takes (hclock : clock.Shows good) {log : List Token} (h : PlainLog lang log) :
    Takes (read clock) (elements log) NotOpening (fun v => v.Good good ∧ v.HasStart) := by
  simp only [PlainLog, Produces, ProducesAny, or_false] at h
  unfold read
  rcases h with h | ⟨value, p, rfl⟩ | ⟨value, p, rfl⟩ | ⟨value, p, rfl⟩
  · obtain ⟨t, tail, rfl, ⟨hstart, hnow⟩ | ⟨period, hstart, hperiod⟩⟩ := relativeTime_start h
    · refine Takes.nextToken ?_
      rw [hstart]
      exact Takes.andThen (now_takes hclock hnow) fun instant hgood => Takes.pure ⟨hgood, trivial⟩
    · refine Takes.nextToken ?_
      rw [hstart]
      refine Takes.andThen (span_takes hclock hperiod) fun s hgood => Takes.pure ⟨?_, rfl⟩
      exact ⟨by simpa [RawValue.Good] using hgood.1, by simpa [RawValue.Good] using hgood.2⟩
  · exact Takes.nextToken (Takes.pure ⟨trivial, trivial⟩)
  · exact Takes.nextToken (Takes.pure ⟨trivial, trivial⟩)
  · exact Takes.nextToken (Takes.pure ⟨trivial, trivial⟩)

/-- Reading a value, an interval, or relative time. -/
theorem read_takes (hclock : clock.Shows good) {log : List Token}
    (h : Produces lang Language.value log) :
    Takes (read clock) (elements log) NotOpening (Value.Good good) := by
  simp only [Language.value, Produces, ProducesAny, or_false] at h
  rcases h with ⟨p, rfl⟩ | h | h
  · have hnone : Period.ofKeyword? "NULL" = none := by decide
    have hstart : startOf ⟨.keyword, "NULL", p⟩ = .other := by simp [startOf, hnone]
    unfold read
    refine Takes.nextToken ?_
    rw [hstart]
    exact Takes.refuse _
  · obtain ⟨p, opening, a, q, b, r, close, hopening, hclose, ha, hb, rfl⟩ := produces_range log h
    simp only [elements_append, elements_cons, elements_nil]
    unfold read
    refine Takes.nextToken ?_
    rcases hopening with rfl | rfl
    · exact Takes.andThen (readInterval_takes hclock hclose ha hb) fun _ hrange => Takes.pure hrange
    · exact Takes.andThen (readInterval_takes hclock hclose ha hb) fun _ hrange => Takes.pure hrange
  · exact (read_plain_takes hclock (by simpa [PlainLog, Produces, ProducesAny] using h)).mono
      fun _ hv => hv.1

end Value

end LinkQuery
