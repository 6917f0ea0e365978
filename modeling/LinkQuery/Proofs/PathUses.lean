import LinkQuery.Metric.Build
import LinkQuery.Proofs.PathChecks
import LinkQuery.Proofs.Stacks
import LinkQuery.Proofs.Terms
import Mathlib.Data.List.Forall2
/-!
# The paths of metrics

Metrics use the paths of their log one after another: each path is the one of a call or of a field
of instants, and operators keep the order of their operands. So the paths of a log and the places
of its metrics that stand for a path belong together one by one.

Main statements:
- `ElementReader.Accounts.loop`: readers whose results account for the paths that they take.
- `Metric.build_uses`, `Metric.statistic_uses`: the paths of a log, one by one.
-/
namespace LinkQuery

/-! ## Readers that account for their paths -/

namespace ElementReader

open Element (paths)

variable {α β σ : Type} {es : List Element}

/-- What a reader gives is related to the paths that it takes off these elements, in order. -/
def AccountsAt (R : α → List Path → Prop) (r : ElementReader α) (es : List Element) : Prop :=
  ∀ a rest, r es = .ok (a, rest) → ∃ ps, paths es = ps ++ paths rest ∧ R a ps

/-- What a reader gives is related to the paths that it takes, in order. -/
def Accounts (R : α → List Path → Prop) (r : ElementReader α) : Prop :=
  ∀ es, AccountsAt R r es

variable {R : α → List Path → Prop} {S : β → List Path → Prop}

theorem AccountsAt.bind {r : ElementReader α} {k : α → ElementReader β} (h : AccountsAt R r es)
    (hk : ∀ a ps, R a ps → Accounts (fun b qs => S b (ps ++ qs)) (k a)) :
    AccountsAt S (r >>= k) es := by
  intro b rest hrun
  obtain ⟨a, mid, hr, hmid⟩ := bind_ok hrun
  obtain ⟨ps, hps, ha⟩ := h a mid hr
  obtain ⟨qs, hqs, hb⟩ := hk a ps ha mid b rest hmid
  exact ⟨ps ++ qs, by rw [hps, hqs, List.append_assoc], hb⟩

namespace Accounts

theorem bind {r : ElementReader α} {k : α → ElementReader β} (h : Accounts R r)
    (hk : ∀ a ps, R a ps → Accounts (fun b qs => S b (ps ++ qs)) (k a)) : Accounts S (r >>= k) :=
  fun es => (h es).bind hk

theorem pure {a : α} (h : R a []) : Accounts R (Pure.pure a) := by
  intro es b rest heq
  obtain ⟨rfl, rfl⟩ := Prod.ext_iff.mp (Except.ok.inj heq)
  exact ⟨[], rfl, h⟩

theorem refuse {cause : InvalidCause} : Accounts R (ElementReader.refuse cause) :=
  fun _ _ _ heq => by cases heq

theorem fail {cause : InternalCause} : Accounts R (ElementReader.fail cause) :=
  fun _ _ _ heq => by cases heq

theorem lift {v : Except QueryError α} (h : ∀ a, v = .ok a → R a []) :
    Accounts R (ElementReader.lift v) := by
  intro es a rest heq
  obtain ⟨hv, rfl⟩ := lift_ok heq
  exact ⟨[], rfl, h a hv⟩

/-- Behind a result that takes no element. -/
theorem lift_bind {v : Except QueryError α} {k : α → ElementReader β}
    (hk : ∀ a, v = .ok a → Accounts S (k a)) : Accounts S (ElementReader.lift v >>= k) := by
  intro es b rest hrun
  obtain ⟨a, mid, hlift, hmid⟩ := bind_ok hrun
  obtain ⟨hv, rfl⟩ := lift_ok hlift
  exact hk a hv mid b rest hmid

/-- Behind a reader that takes no path. -/
theorem after {r : ElementReader α} {k : α → ElementReader β} (h : Free r)
    (hk : ∀ a, Accounts S (k a)) : Accounts S (r >>= k) := by
  intro es b rest hrun
  obtain ⟨a, mid, hr, hmid⟩ := bind_ok hrun
  rw [← h es a mid hr]
  exact hk a mid b rest hmid

theorem nextPath {k : Path → ElementReader β}
    (hk : ∀ p, Accounts (fun b ps => S b (p :: ps)) (k p)) : Accounts S (nextPath >>= k) := by
  intro es b rest hrun
  match es with
  | [] => cases hrun
  | .token t :: es => cases hrun
  | .path p :: es =>
    obtain ⟨ps, hps, hb⟩ := hk p es b rest hrun
    exact ⟨p :: ps, congrArg (p :: ·) hps, hb⟩

/-- What one round of a loop accounts for, the loop accounts for. -/
theorem loop {J : σ → List Path → Prop} {step : σ → ElementReader (Progress σ)}
    (hstep : ∀ state ps, J state ps →
      Accounts (fun progress qs => progress.Keeps (J · (ps ++ qs))) (step state))
    {state : σ} {ps : List Path} (h : J state ps) :
    Accounts (fun last qs => J last (ps ++ qs)) (ElementReader.loop step state) := by
  intro es
  induction hlength : es.length using Nat.strongRecOn generalizing es state ps with
  | ind n ih =>
    intro last rest hrun
    rw [ElementReader.loop] at hrun
    split at hrun
    · cases hrun
    · rename_i hround
      obtain ⟨rfl, rfl⟩ := Prod.ext_iff.mp (Except.ok.inj hrun)
      exact hstep state ps h _ _ _ hround
    · rename_i next mid hround
      obtain ⟨qs, hqs, hnext⟩ := hstep state ps h _ _ _ hround
      split at hrun
      · rename_i hshorter
        obtain ⟨more, hmore, hlast⟩ := ih _ (hlength ▸ hshorter) hnext mid rfl last rest hrun
        rw [List.append_assoc] at hlast
        exact ⟨qs ++ more, by rw [hqs, hmore, List.append_assoc], hlast⟩
      · cases hrun

theorem untilEnd {J : σ → List Path → Prop} {step : σ → ElementReader σ}
    (hstep : ∀ state ps, J state ps → Accounts (fun next qs => J next (ps ++ qs)) (step state))
    {state : σ} (h : J state []) : Accounts J (ElementReader.untilEnd step state) := by
  refine loop (J := J) (fun state ps hstate => ?_) h
  refine after .atEnd fun ended => ?_
  cases ended with
  | true => exact .pure (by simpa [Progress.Keeps] using hstate)
  | false =>
    refine bind (hstep state ps hstate) fun next qs hnext => .pure ?_
    simpa [Progress.Keeps] using hnext

/-- A reader that leaves no path accounts for all paths of a log. -/
theorem run {r : ElementReader α} {form : LogForm} {tokens : List Token} {a : α}
    (h : Accounts R r) (hrest : ∀ es a rest, r es = .ok (a, rest) → rest = [])
    (hrun : r.run form tokens = .ok a) :
    ∃ es, Element.ofTokens form tokens = .ok es ∧ R a (paths es) := by
  obtain ⟨es, hes, hrun⟩ := bind_eq_ok hrun
  obtain ⟨⟨b, rest⟩, hr, hrun⟩ := bind_eq_ok hrun
  obtain rfl : b = a := Except.ok.inj hrun
  obtain rfl := hrest es b rest hr
  obtain ⟨ps, hps, hb⟩ := h es b [] hr
  refine ⟨es, hes, ?_⟩
  rw [hps, paths, List.append_nil]
  exact hb

end Accounts

theorem accountsAt_skip_token {t : Token} {r : ElementReader α} (h : Accounts R r) :
    AccountsAt R (skip >>= fun _ => r) (.token t :: es) :=
  fun a rest hrun => h es a rest hrun

theorem accountsAt_skip_path {p : Path} {r : ElementReader α}
    (h : Accounts (fun a ps => R a (p :: ps)) r) :
    AccountsAt R (skip >>= fun _ => r) (.path p :: es) := by
  intro a rest hrun
  obtain ⟨ps, hps, ha⟩ := h es a rest hrun
  exact ⟨p :: ps, congrArg (p :: ·) hps, ha⟩

theorem accounts_peek_token {k : Option Token → ElementReader α} (hnone : Accounts R (k none))
    (hsome : ∀ t es, AccountsAt R (k (some t)) (.token t :: es)) :
    Accounts R (peekToken? >>= k) := by
  intro es
  match es with
  | [] => exact hnone []
  | .path p :: es => exact hnone (.path p :: es)
  | .token t :: es => exact hsome t es

theorem accounts_peek {k : Option Element → ElementReader α} (hnone : AccountsAt R (k none) [])
    (hpath : ∀ p es, AccountsAt R (k (some (.path p))) (.path p :: es))
    (htoken : ∀ t es, AccountsAt R (k (some (.token t))) (.token t :: es)) :
    Accounts R (peek? >>= k) := by
  intro es
  match es with
  | [] => exact hnone
  | .path p :: es => exact hpath p es
  | .token t :: es => exact htoken t es

end ElementReader

/-! ## Places that stand for a path -/

/-- A place of a metric that stands for a path: a call on it, or the field of instants at its
end. -/
inductive PathUse where
  | call (c : MetricCall)
  | field (names : List String)

/-- The call at the place, if it is one. -/
def PathUse.call? : PathUse → Option MetricCall
  | .call c => some c
  | .field _ => none

theorem PathUse.call?_eq_some_iff {place : PathUse} {c : MetricCall} :
    place.call? = some c ↔ place = .call c := by
  cases place <;> simp [call?]

/-- The call, unless it is one on a star. -/
def MetricCall.pathUses (c : MetricCall) : List PathUse :=
  if c.path.isEmpty then [] else [.call c]

def TimeOperand.pathUses : TimeOperand → List PathUse
  | .timestamp _ => []
  | .field names => [.field names]

/-- The places of a metric that stand for a path, in order. -/
def MetricExpr.pathUses : MetricExpr → List PathUse
  | .call c => c.pathUses
  | .number _ => []
  | .dateDifference _ start finish => start.pathUses ++ finish.pathUses
  | .binary _ left right => left.pathUses ++ right.pathUses

namespace Metric

open ElementReader LinkQuery.Filter

variable {scope : Scope} {table : String}

/-- The place is what the path makes it. -/
def ReadOff (scope : Scope) (table : String) : PathUse → Path → Prop
  | .call c, path => ∃ function keyword,
      callPath scope table function keyword path = .ok (c.path, c.filter)
  | .field names, path => timeField scope table path = .ok (.field names)

/-- The places and the paths belong together one by one. -/
def Uses (scope : Scope) (table : String) (uses : List PathUse) (ps : List Path) : Prop :=
  List.Forall₂ (ReadOff scope table) uses ps

theorem Uses.nil : Uses scope table [] [] :=
  List.Forall₂.nil

theorem Uses.single {place : PathUse} {path : Path} (h : ReadOff scope table place path) :
    Uses scope table [place] [path] :=
  .cons h .nil

theorem Uses.append {front back : List PathUse} {ps qs : List Path}
    (h : Uses scope table front ps) (hback : Uses scope table back qs) :
    Uses scope table (front ++ back) (ps ++ qs) :=
  List.rel_append h hback

/-! ## Calls -/

theorem callPath_names {function : MetricFunction} {keyword : String} {path : Path}
    {names : List String} {filter : Option Query}
    (h : callPath scope table function keyword path = .ok (names, filter)) : names ≠ [] := by
  obtain ⟨_, -, h⟩ := bind_eq_ok h
  obtain ⟨resolved, -, h⟩ := bind_eq_ok h
  split at h
  · cases h
  obtain ⟨filters, -, h⟩ := bind_eq_ok h
  obtain ⟨rfl, -⟩ := Prod.ext_iff.mp (Except.ok.inj h)
  simp [ResolvedPath.names, ResolvedPath.segments]

theorem callTarget_accounts (function : MetricFunction) (keyword : String) :
    Accounts (fun found ps => found.1 = [] ∧ ps = [] ∨
      ∃ path, ps = [path] ∧ callPath scope table function keyword path = .ok found)
      (callTarget scope table function keyword) := by
  unfold callTarget
  refine .after (.symbolIf _) fun star => ?_
  cases star with
  | true =>
    show Accounts _ (if function ≠ .count then _ else _)
    split
    · exact .refuse
    · exact .pure (Or.inl ⟨rfl, rfl⟩)
  | false => exact .nextPath fun path => .lift fun found h => Or.inr ⟨path, rfl, h⟩

theorem call_accounts (keyword : String) :
    Accounts (fun found ps => Uses scope table found.pathUses ps) (call scope table keyword) := by
  unfold call
  split
  · exact .fail
  rename_i function _
  refine .after (.symbol _) fun _ => (callTarget_accounts function keyword).bind ?_
  rintro ⟨names, filter⟩ ps hps
  have hclose : ∀ parameter, Accounts (fun found qs => Uses scope table found.pathUses (ps ++ qs))
      (do
        symbol ")"
        ElementReader.lift (checkParameter function keyword parameter)
        return (⟨function, names, filter, parameter⟩ : MetricCall)) := by
    refine fun parameter => .after (.symbol _) fun _ => .after (.lift _) fun _ => .pure ?_
    rw [List.append_nil]
    rcases hps with ⟨rfl, rfl⟩ | ⟨path, rfl, hpath⟩
    · exact .nil
    · have hnames := callPath_names hpath
      rw [MetricCall.pathUses, if_neg (by simpa using hnames)]
      exact .single ⟨function, keyword, hpath⟩
  refine .after (.symbolIf _) fun more => ?_
  cases more with
  | false => exact hclose none
  | true => exact .after .nextToken fun _ => .after ((Free.lift _).map some) hclose

/-! ## Differences between instants -/

theorem timeField_names {path : Path} {operand : TimeOperand}
    (h : timeField scope table path = .ok operand) :
    operand = .field path.names := by
  obtain ⟨_, -, h⟩ := bind_eq_ok h
  split at h
  · cases h
  obtain ⟨resolved, hresolved, h⟩ := bind_eq_ok h
  split at h
  · cases h
  obtain rfl := Except.ok.inj h
  rw [(Schema.along_of_resolve hresolved).1]

theorem timeOperand_accounts :
    Accounts (fun operand ps => Uses scope table operand.pathUses ps)
      (timeOperand scope table) := by
  refine accounts_peek (Accounts.fail _) (fun path es => ?_) fun t es => ?_
  · refine accountsAt_skip_path (.lift fun operand h => ?_)
    obtain rfl := timeField_names h
    exact .single h
  · refine accountsAt_skip_token ?_
    split
    · exact .after (Value.now_free scope.clock) fun _ => .pure .nil
    · split
      · split
        · exact .pure .nil
        · exact .refuse
      · exact .fail

theorem dateDifference_accounts :
    Accounts (fun metric ps => Uses scope table metric.pathUses ps)
      (dateDifference scope table) := by
  refine .after (.symbol _) fun _ => .after .nextToken fun _ => .after (.lift _) fun unit => ?_
  refine .after (.symbol _) fun _ => timeOperand_accounts.bind fun start ps hstart => ?_
  refine .after (.symbol _) fun _ => timeOperand_accounts.bind fun finish qs hfinish => ?_
  refine .after (.symbol _) fun _ => .pure ?_
  rw [List.append_nil]
  have huses : (difference unit start finish).pathUses = start.pathUses ++ finish.pathUses := by
    cases start <;> cases finish <;> rfl
  rw [huses]
  exact hstart.append hfinish

/-! ## Arithmetic -/

/-- The places of the operands on a stack, in the order in which they were read. -/
def operandUses (operands : List MetricExpr) : List PathUse :=
  operands.reverse.flatMap MetricExpr.pathUses

/-- The stacks hold operands whose places belong to the paths. -/
def Holds (scope : Scope) (table : String) (s : Stacks) (ps : List Path) : Prop :=
  Uses scope table (operandUses s.operands) ps

theorem operandUses_apply (op : ArithmeticOp) (operands operands' : List MetricExpr)
    (h : apply op operands = .ok operands') : operandUses operands' = operandUses operands := by
  unfold apply at h
  split at h
  · obtain rfl := Except.ok.inj h
    simp [operandUses, MetricExpr.pathUses]
  · cases h

theorem Holds.push {s : Stacks} {q : MetricExpr} {ps qs : List Path} (h : Holds scope table s ps)
    (hq : Uses scope table q.pathUses qs) : Holds scope table (s.push q) (ps ++ qs) := by
  have huses : operandUses (s.push q).operands = operandUses s.operands ++ q.pathUses := by
    simp [operandUses, OperatorStacks.push]
  rw [Holds, huses]
  exact h.append hq

theorem symbolStep_accounts {s : Stacks} {ps : List Path} (h : Holds scope table s ps) (t : Token)
    (es : List Element) :
    AccountsAt (fun progress qs => progress.Keeps (Holds scope table · (ps ++ qs)))
      (symbolStep s t.value) (.token t :: es) := by
  have hkept : ∀ {t : Stacks}, operandUses t.operands = operandUses s.operands →
      Holds scope table t (ps ++ []) := by
    intro t ht
    rw [List.append_nil, Holds, ht]
    exact h
  unfold symbolStep
  split
  · exact accountsAt_skip_token (.pure (hkept rfl))
  split
  · split
    · exact Accounts.pure (hkept rfl) _
    · refine accountsAt_skip_token (.lift_bind fun closed hclosed => .pure (hkept ?_))
      exact OperatorStacks.closed_keeps operandUses_apply hclosed
  split
  · exact Accounts.pure (hkept rfl) _
  split
  · exact Accounts.fail _
  · refine accountsAt_skip_token (.lift_bind fun connected hconnected => .pure (hkept ?_))
    exact OperatorStacks.connected_keeps operandUses_apply hconnected

theorem step_accounts {s : Stacks} {ps : List Path} (h : Holds scope table s ps) :
    Accounts (fun progress qs => progress.Keeps (Holds scope table · (ps ++ qs)))
      (step scope table s) := by
  have hnone : Holds scope table s (ps ++ []) := by rwa [List.append_nil]
  refine accounts_peek_token (.pure hnone) fun t es => ?_
  dsimp only
  split
  · exact symbolStep_accounts h t es
  · exact accountsAt_skip_token (.lift_bind fun value _ => .pure (h.push .nil))
  · refine accountsAt_skip_token ?_
    split
    · refine dateDifference_accounts.bind fun metric qs hqs => .pure ?_
      rw [List.append_nil]
      exact h.push hqs
    · refine (call_accounts _).bind fun found qs hqs => .pure ?_
      rw [List.append_nil]
      exact h.push hqs
  · exact Accounts.fail _

theorem expression_accounts :
    Accounts (fun metric ps => Uses scope table metric.pathUses ps) (expression scope table) := by
  have hempty : Holds scope table .empty [] := .nil
  refine (Accounts.loop (fun s ps h => step_accounts h) hempty).bind fun s ps hs => ?_
  refine .lift_bind fun operands hoperands => ?_
  have hkept := OperatorStacks.finish_keeps operandUses_apply hoperands
  split
  · rename_i only
    refine .pure ?_
    rw [List.append_nil]
    have honly : operandUses [only] = only.pathUses := by simp [operandUses]
    exact honly ▸ hkept ▸ hs
  · exact .fail

/-! ## Logs -/

/-- The paths of a log of metrics are used by the metrics, one by one. -/
theorem build_uses {tokens : List Token} {metrics : List MetricExpr}
    (h : build scope table tokens = .ok metrics) :
    ∃ es, Element.ofTokens .list tokens = .ok es ∧
      Uses scope table (metrics.flatMap MetricExpr.pathUses) (Element.paths es) := by
  refine Accounts.run
    (R := fun metrics ps => Uses scope table (metrics.flatMap MetricExpr.pathUses) ps)
    (.untilEnd (fun metrics ps hmetrics => ?_) .nil) (fun _ _ _ => untilEnd_rest) h
  refine expression_accounts.bind fun metric qs hmetric => ?_
  refine .after (.separator _) fun _ => .pure ?_
  rw [List.append_nil, List.flatMap_append, List.flatMap_singleton]
  exact hmetrics.append hmetric

theorem statistic_accounts :
    Accounts (fun found ps => Uses scope table found.pathUses ps) (statistic scope table) := by
  refine .after .nextToken fun keyword => (call_accounts _).bind fun found ps hps => ?_
  refine .after .atEnd fun ended => ?_
  cases ended with
  | true =>
    refine .pure ?_
    rwa [List.append_nil]
  | false => exact .fail

/-- Reading a statistic leaves nothing. -/
theorem statistic_rest {es rest : List Element} {found : MetricCall}
    (h : statistic scope table es = .ok (found, rest)) : rest = [] := by
  obtain ⟨_, _, -, h⟩ := bind_ok h
  obtain ⟨_, left, -, h⟩ := bind_ok h
  obtain ⟨ended, mid, hend, h⟩ := bind_ok h
  obtain ⟨rfl, rfl⟩ := Prod.ext_iff.mp (Except.ok.inj hend)
  cases hempty : left.isEmpty with
  | true =>
    simp only [hempty] at h
    rw [rest_eq h]
    exact List.isEmpty_iff.mp hempty
  | false =>
    simp only [hempty] at h
    cases h

/-- The path of a log of a statistic, if there is one, is used by the statistic. -/
theorem statistic_uses {tokens : List Token} {found : MetricCall}
    (h : run (statistic scope table) .list tokens = .ok found) :
    ∃ es, Element.ofTokens .list tokens = .ok es ∧
      Uses scope table found.pathUses (Element.paths es) :=
  statistic_accounts.run (fun _ _ _ => statistic_rest) h

end Metric

end LinkQuery
