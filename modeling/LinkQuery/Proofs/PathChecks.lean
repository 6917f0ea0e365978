import LinkQuery.Proofs.Refusal
import LinkQuery.Value
/-!
# Readers that check their paths

Readers take tokens freely, and a path only to do something with it. Where what they do with it
needs a property of the path, all paths that they take have the property.

Main statements:
- `ElementReader.Free`: readers that take no path.
- `ElementReader.Checks.bind`, `ElementReader.Checks.loop`: readers of readers.
- `ElementReader.checks_path`: a reader that takes a path.
- `ElementReader.Checks.run`: a reader that checks its paths has checked all paths of a log.
-/
namespace LinkQuery

namespace Element

/-- The paths among the elements, in order. -/
def paths : List Element → List Path
  | [] => []
  | .path p :: rest => p :: paths rest
  | .token _ :: rest => paths rest

/-- The property holds of each path among the elements. -/
def EachPath (P : Path → Prop) (es : List Element) : Prop :=
  ∀ p, .path p ∈ es → P p

theorem mem_paths {p : Path} {es : List Element} : p ∈ paths es ↔ .path p ∈ es := by
  induction es with
  | nil => simp [paths]
  | cons e es ih => cases e <;> simp [paths, ih]

end Element

/-- The state that a loop goes on from, or ends with, has the property. -/
def Progress.Keeps {σ : Type} (P : σ → Prop) : Progress σ → Prop
  | .more state => P state
  | .done state => P state

namespace ElementReader

open Element (EachPath paths mem_paths)

variable {α β σ : Type} {P : Path → Prop} {es : List Element}

/-! ## Readers that check their paths -/

/-- The paths among what a reader takes off these elements have the property. -/
def ChecksAt (P : Path → Prop) (r : ElementReader α) (es : List Element) : Prop :=
  ∀ a rest, r es = .ok (a, rest) → EachPath P rest → EachPath P es

/-- The paths among what a reader takes have the property. -/
def Checks (P : Path → Prop) (r : ElementReader α) : Prop :=
  ∀ es, ChecksAt P r es

theorem bind_ok {r : ElementReader α} {k : α → ElementReader β} {found : β × List Element}
    (h : (r >>= k) es = .ok found) : ∃ a rest, r es = .ok (a, rest) ∧ k a rest = .ok found := by
  obtain ⟨⟨a, rest⟩, hr, hk⟩ := bind_eq_ok h
  exact ⟨a, rest, hr, hk⟩

theorem rest_eq {a b : α} {rest : List Element}
    (h : (.ok (a, es) : Except QueryError (α × List Element)) = .ok (b, rest)) : rest = es :=
  (Prod.ext_iff.mp (Except.ok.inj h)).2.symm

theorem lift_ok {v : Except QueryError α} {a : α} {rest : List Element}
    (h : lift v es = .ok (a, rest)) : v = .ok a ∧ rest = es := by
  obtain ⟨b, hv, heq⟩ := map_eq_ok h
  obtain ⟨rfl, rfl⟩ := Prod.ext_iff.mp heq
  exact ⟨hv, rfl⟩

/-! ## Readers that take no path -/

/-- What the reader takes is tokens. -/
def Free (r : ElementReader α) : Prop :=
  ∀ es a rest, r es = .ok (a, rest) → paths rest = paths es

namespace Free

/-- A reader that leaves all elements in place. -/
theorem of_leaves {r : ElementReader α} (h : ∀ es a rest, r es = .ok (a, rest) → rest = es) :
    Free r :=
  fun es a rest hr => congrArg paths (h es a rest hr)

theorem pure (a : α) : Free (Pure.pure a) :=
  of_leaves fun _ _ _ h => rest_eq h

theorem refuse (cause : InvalidCause) : Free (refuse cause : ElementReader α) :=
  of_leaves fun _ _ _ h => by cases h

theorem fail (cause : InternalCause) : Free (fail cause : ElementReader α) :=
  of_leaves fun _ _ _ h => by cases h

theorem lift (v : Except QueryError α) : Free (lift v) :=
  of_leaves fun _ _ _ h => (lift_ok h).2

theorem atEnd : Free atEnd :=
  of_leaves fun _ _ _ h => rest_eq h

theorem bind {r : ElementReader α} {k : α → ElementReader β} (h : Free r) (hk : ∀ a, Free (k a)) :
    Free (r >>= k) := by
  intro es b rest hrun
  obtain ⟨a, mid, hr, hmid⟩ := bind_ok hrun
  exact (hk a mid b rest hmid).trans (h es a mid hr)

theorem bindOption {r : ElementReader (Option α)} {k : Option α → ElementReader β} (h : Free r)
    (hnone : Free (k none)) (hsome : ∀ a, Free (k (some a))) : Free (r >>= k) :=
  h.bind fun found => by
    cases found with
    | none => exact hnone
    | some a => exact hsome a

theorem map {r : ElementReader α} (h : Free r) (f : α → β) : Free (f <$> r) :=
  h.bind fun a => pure (f a)

theorem nextToken : Free nextToken := by
  intro es a rest h
  match es with
  | [] => cases h
  | .path p :: es => cases h
  | .token t :: es =>
    obtain rfl := rest_eq h
    rfl

theorem tokenIf? (accept : Token → Bool) : Free (tokenIf? accept) := by
  intro es a rest h
  match es with
  | [] => exact congrArg paths (rest_eq h)
  | .path p :: es => exact congrArg paths (rest_eq h)
  | .token t :: es =>
    rw [ElementReader.tokenIf?] at h
    split at h <;> obtain rfl := rest_eq h <;> rfl

theorem symbol (text : String) : Free (symbol text) :=
  nextToken.bind fun t => by
    split
    · exact fail _
    · exact pure ()

theorem symbolIf (text : String) : Free (symbolIf text) :=
  (tokenIf? _).bind fun _ => pure _

theorem keywordIf (word : String) : Free (keywordIf word) :=
  (tokenIf? _).bind fun _ => pure _

theorem separator (missing : InternalCause) : Free (separator missing) :=
  (symbolIf ",").bind fun comma => by
    cases comma
    · exact atEnd.bind fun ended => by
        cases ended
        · exact fail _
        · exact pure ()
    · exact pure ()

/-- A reader that takes no path checks all that it takes. -/
theorem checks {r : ElementReader α} (h : Free r) : Checks P r := by
  intro es a rest hr hrest p hp
  exact hrest p (mem_paths.mp (h es a rest hr ▸ mem_paths.mpr hp))

end Free

/-! ## Readers in order -/

theorem ChecksAt.bind {r : ElementReader α} {k : α → ElementReader β} (h : ChecksAt P r es)
    (hk : ∀ a, Checks P (k a)) : ChecksAt P (r >>= k) es := by
  intro b rest hrun hrest
  obtain ⟨a, mid, hr, hmid⟩ := bind_ok hrun
  exact h a mid hr (hk a mid b rest hmid hrest)

theorem eachPath_token {t : Token} (h : EachPath P es) : EachPath P (.token t :: es) := by
  intro p hp
  rcases List.mem_cons.mp hp with hp | hp
  · cases hp
  · exact h p hp

theorem eachPath_path {p : Path} (hp : P p) (h : EachPath P es) : EachPath P (.path p :: es) := by
  intro q hq
  rcases List.mem_cons.mp hq with hq | hq
  · cases hq
    exact hp
  · exact h q hq

theorem checksAt_skip_token {t : Token} : ChecksAt P skip (.token t :: es) := by
  rintro ⟨⟩ rest h hrest
  obtain rfl := rest_eq h
  exact eachPath_token hrest

namespace Checks

theorem bind {r : ElementReader α} {k : α → ElementReader β} (h : Checks P r)
    (hk : ∀ a, Checks P (k a)) : Checks P (r >>= k) :=
  fun es => (h es).bind hk

theorem pure (a : α) : Checks P (Pure.pure a) :=
  (Free.pure a).checks

theorem refuse (cause : InvalidCause) : Checks P (refuse cause : ElementReader α) :=
  (Free.refuse cause).checks

theorem fail (cause : InternalCause) : Checks P (fail cause : ElementReader α) :=
  (Free.fail cause).checks

theorem lift (v : Except QueryError α) : Checks P (lift v) :=
  (Free.lift v).checks

theorem nextToken : Checks P nextToken :=
  Free.nextToken.checks

theorem tokenIf? (accept : Token → Bool) : Checks P (tokenIf? accept) :=
  (Free.tokenIf? accept).checks

theorem symbol (text : String) : Checks P (symbol text) :=
  (Free.symbol text).checks

theorem symbolIf (text : String) : Checks P (symbolIf text) :=
  (Free.symbolIf text).checks

theorem keywordIf (word : String) : Checks P (keywordIf word) :=
  (Free.keywordIf word).checks

theorem separator (missing : InternalCause) : Checks P (separator missing) :=
  (Free.separator missing).checks

/-! ## Loops -/

theorem loop {step : σ → ElementReader (Progress σ)} (h : ∀ state, Checks P (step state))
    (state : σ) : Checks P (loop step state) := by
  intro es
  induction hlength : es.length using Nat.strongRecOn generalizing es state with
  | ind n ih =>
    intro a rest hrun hrest
    rw [ElementReader.loop] at hrun
    split at hrun
    · cases hrun
    · rename_i hstep
      obtain ⟨rfl, rfl⟩ := Prod.ext_iff.mp (Except.ok.inj hrun)
      exact h _ _ _ _ hstep hrest
    · rename_i next mid hstep
      split at hrun
      · rename_i hshorter
        exact h _ _ _ _ hstep (ih _ (hlength ▸ hshorter) next mid rfl a rest hrun hrest)
      · cases hrun

theorem untilEnd {step : σ → ElementReader σ} (h : ∀ state, Checks P (step state)) (state : σ) :
    Checks P (untilEnd step state) :=
  loop (fun state => Free.atEnd.checks.bind fun ended => by
    cases ended
    · exact (h state).bind fun _ => pure _
    · exact pure _) state

theorem itemsUntil {item : ElementReader α} (close : String) (h : Checks P item) :
    Checks P (itemsUntil close item) :=
  (symbolIf close).bind fun closed => by
    cases closed
    · exact loop (fun items => h.bind fun a => (symbolIf close).bind fun closed => by
        cases closed
        · exact (symbol ",").bind fun _ => pure _
        · exact pure _) []
    · exact pure _

end Checks

/-! ## Paths -/

theorem checksAt_peek_token {k : Option Token → ElementReader α}
    (hnone : Checks P (k none)) (hsome : ∀ t es, ChecksAt P (k (some t)) (.token t :: es)) :
    Checks P (peekToken? >>= k) := by
  intro es
  match es with
  | [] => exact hnone []
  | .path p :: es => exact hnone (.path p :: es)
  | .token t :: es => exact hsome t es

theorem checks_peek {k : Option Element → ElementReader α} (hnone : ChecksAt P (k none) [])
    (hpath : ∀ p es, ChecksAt P (k (some (.path p))) (.path p :: es))
    (htoken : ∀ t es, ChecksAt P (k (some (.token t))) (.token t :: es)) :
    Checks P (peek? >>= k) := by
  intro es
  match es with
  | [] => exact hnone
  | .path p :: es => exact hpath p es
  | .token t :: es => exact htoken t es

/-- A reader that has a result only if something is the case. -/
def Demands (Q : Prop) (r : ElementReader α) : Prop :=
  ∀ es found, r es = .ok found → Q

theorem Demands.lift {Q : Prop} {v : Except QueryError α} (h : ∀ a, v = .ok a → Q) :
    Demands Q (lift v) :=
  fun _ found hrun => h found.1 (lift_ok hrun).1

theorem Demands.bind {Q : Prop} {r : ElementReader α} {k : α → ElementReader β}
    (h : Demands Q r) : Demands Q (r >>= k) := by
  intro es found hrun
  obtain ⟨a, rest, hr, -⟩ := bind_ok hrun
  exact h es (a, rest) hr

/-- A reader may leave a path behind if it goes on only where the path has the property. -/
theorem checksAt_skip_path {p : Path} {r : ElementReader α} (hp : Demands (P p) r)
    (hr : Checks P r) : ChecksAt P (skip >>= fun _ => r) (.path p :: es) := by
  intro a rest hrun hrest
  have hrun : r es = .ok (a, rest) := hrun
  exact eachPath_path (hp es _ hrun) (hr es a rest hrun hrest)

theorem checks_path {r : Path → ElementReader α} (hp : ∀ p, Demands (P p) (r p))
    (hr : ∀ p, Checks P (r p)) : Checks P (nextPath >>= r) := by
  intro es a rest hrun hrest
  match es with
  | [] => cases hrun
  | .token t :: es => cases hrun
  | .path p :: es => exact checksAt_skip_path (hp p) (hr p) a rest hrun hrest

/-! ## Logs -/

/-- Reading to the end leaves nothing. -/
theorem untilEnd_rest {step : σ → ElementReader σ} {state last : σ} {rest : List Element}
    (h : untilEnd step state es = .ok (last, rest)) : rest = [] := by
  unfold untilEnd at h
  induction hlength : es.length using Nat.strongRecOn generalizing es state with
  | ind n ih =>
    rw [loop] at h
    split at h
    · cases h
    · rename_i hstep
      obtain ⟨ended, mid, hend, hstep⟩ := bind_ok hstep
      obtain ⟨rfl, rfl⟩ := Prod.ext_iff.mp (Except.ok.inj hend)
      cases hempty : es.isEmpty with
      | true =>
        simp only [hempty, if_true] at hstep
        rw [rest_eq h, rest_eq hstep]
        exact List.isEmpty_iff.mp hempty
      | false =>
        simp only [hempty] at hstep
        obtain ⟨_, _, _, hdone⟩ := bind_ok hstep
        cases Except.ok.inj hdone
    · split at h
      · rename_i hshorter
        exact ih _ (hlength ▸ hshorter) h rfl
      · cases h

/-- A reader that checks its paths, and leaves none, has checked all paths of a log. -/
theorem Checks.run {r : ElementReader α} {form : LogForm} {tokens : List Token} {a : α}
    (h : Checks P r) (hrest : ∀ es a rest, r es = .ok (a, rest) → rest = [])
    (hrun : r.run form tokens = .ok a) (hes : Element.ofTokens form tokens = .ok es) :
    EachPath P es := by
  obtain ⟨found, hfound, hrun⟩ := bind_eq_ok hrun
  obtain rfl : es = found := Except.ok.inj (hes.symm.trans hfound)
  obtain ⟨⟨b, rest⟩, hr, -⟩ := bind_eq_ok hrun
  obtain rfl := hrest es b rest hr
  exact h es b [] hr fun p hp => by cases hp

end ElementReader

/-! ## Values -/

namespace Value

open ElementReader

variable (clock : Clock)

theorem zoneName?_free : Free zoneName? :=
  (Free.tokenIf? _).bind fun _ => .pure _

theorem offset_free (negative : Bool) : Free (offset negative) :=
  Free.nextToken.bind fun written => by
    split
    · exact .refuse _
    · exact Free.nextToken.bind fun _ => (Free.lift _).bind fun _ => .pure _

theorem now_free : Free (now clock) :=
  (Free.symbolIf "(").bind fun opened => by
    cases opened
    · exact .lift _
    · have hclose (zone : Option String) (moved : Option (Int × Time.TimeUnit)) :
          Free (do symbol ")"; ElementReader.lift (clock.nowIn zone moved)) :=
        (Free.symbol ")").bind fun _ => .lift _
      have hoffset (zone : Option String) (sign : Token) :
          Free (some <$> offset (sign.value == "-") >>= fun moved => do
            symbol ")"; ElementReader.lift (clock.nowIn zone moved)) :=
        ((offset_free _).map some).bind (hclose zone)
      refine zoneName?_free.bindOption ?_ fun zone => (Free.symbolIf ",").bind fun _ => ?_
      · exact (Free.tokenIf? _).bindOption (hclose none none) (hoffset none)
      · exact (Free.tokenIf? _).bindOption (hclose (some zone) none) (hoffset (some zone))

theorem count?_free (keyword : String) : Free (count? keyword) :=
  (Free.tokenIf? _).bind fun found => by
    cases found with
    | none => exact .pure _
    | some written =>
      dsimp only
      split
      · exact .refuse _
      · exact .refuse _
      · exact (Free.symbolIf ",").bind fun _ => .pure _

theorem periodArguments_free (keyword : String) : Free (periodArguments keyword) :=
  (Free.symbolIf "(").bind fun opened => by
    cases opened
    · exact .pure _
    · exact (count?_free keyword).bind fun _ => zoneName?_free.bind fun _ =>
        (Free.symbol ")").bind fun _ => .pure _

theorem span_free (keyword : String) (period : Time.Period) :
    Free (span clock keyword period) :=
  (periodArguments_free keyword).bind fun found => by
    obtain ⟨count, zone⟩ := found
    show Free (if _ then _ else _)
    split
    · exact .refuse _
    · exact .lift _

theorem bound_free (lower : Bool) : Free (bound clock lower) :=
  Free.nextToken.bind fun t => by
    split
    · exact .pure _
    · exact (now_free clock).bind fun _ => .pure _
    · exact (span_free clock t.value _).bind fun _ => .pure _
    · split
      · exact .pure _
      · exact .fail _

theorem readInterval_free (minInclusive : Bool) : Free (readInterval clock minInclusive) :=
  (bound_free clock true).bind fun _ => (Free.keywordIf "TO").bind fun there => by
    cases there
    · exact .fail _
    · exact (bound_free clock false).bind fun _ => Free.nextToken.bind fun _ =>
        (Free.lift _).bind fun _ => .pure _

theorem read_free : Free (Value.read clock) :=
  Free.nextToken.bind fun t => by
    split
    · exact .pure _
    · exact (now_free clock).bind fun _ => .pure _
    · exact (span_free clock t.value _).bind fun _ => .pure _
    · split
      · exact .refuse _
      · split
        · exact (readInterval_free clock _).bind fun _ => .pure _
        · exact .fail _

theorem read_checks {P : Path → Prop} : Checks P (Value.read clock) :=
  (read_free clock).checks

end Value

end LinkQuery
