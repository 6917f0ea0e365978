import LinkQuery.Proofs.Coverage
import LinkQuery.Proofs.HeightLimit
import LinkQuery.Proofs.OperatorChains
/-!
# The heights of metrics

Parentheses around a metric and the levels of its paths are limited alike, but a chain of operators
is one level however long it is. What the nesting limit bounds is the height without the steps into
left operands; such steps are operators, each of which stands in the text.

Main statements:
- `Metric.Derives.low`: metrics are low where their logs nest to few levels and have little room.
- `Compiler.metric_height`: the height of a compiled metric.
- `Compiler.metric_height_unbounded`: the nesting limit alone does not bound it.
-/
namespace LinkQuery

open Rule Language
open TokenLog (Closes Fits)

/-! ## Heights -/

namespace MetricExpr

/-- The most nodes on a way down from the root of a metric, the trees of its filters included. -/
def height : MetricExpr → Nat
  | .call c => Query.heightIfAny c.filter + 1
  | .binary _ left right => max left.height right.height + 1
  | _ => 1

/-- The height when steps from an operator to its left operand do not count. -/
def depth : MetricExpr → Nat
  | .call c => Query.heightIfAny c.filter + 1
  | .binary _ left right => max left.depth (right.depth + 1)
  | _ => 1

/-- The number of operators. -/
def operators : MetricExpr → Nat
  | .binary _ left right => left.operators + right.operators + 1
  | _ => 0

theorem height_le (m : MetricExpr) : m.height ≤ m.depth + m.operators := by
  induction m with
  | binary op left right hleft hright =>
    simp only [height, depth, operators]
    omega
  | _ => simp [height, depth, operators]

/-- Each addition puts a level on top of a chain. -/
theorem height_addOnes (one : Decimal) {q : MetricExpr} (hq : 1 ≤ q.height) (n : Nat) :
    (Metric.addOnes (.number one) q n).height = q.height + n := by
  induction n generalizing q with
  | zero => rfl
  | succ n ih =>
    have hsum : (MetricExpr.binary .add q (.number one)).height = q.height + 1 := by
      simp only [height]
      omega
    rw [Metric.addOnes, ih (by omega), hsum]
    omega

end MetricExpr

namespace Compiler

variable {c : Compiler} {table : String}

/-- Settling keeps the operators, and adds a level to the trees of filters at most. -/
theorem settleMetric_depth {m : MetricExpr} :
    Ensures (fun settled => settled.depth ≤ m.depth + 1 ∧ settled.operators = m.operators)
      (c.settleMetric table m) := by
  induction m with
  | call found =>
    have hfilter : Ensures (Query.heightIfAny · ≤ Query.heightIfAny found.filter + 1)
        (c.settleIfAny table found.filter) := by
      cases found.filter with
      | none => exact .ok (Nat.zero_le _)
      | some q => exact Query.height_settle.map fun _ h => h
    refine Ensures.map (P := fun s => Query.heightIfAny s.filter ≤ Query.heightIfAny found.filter + 1)
      (hfilter.bind fun _ h => .ok h) fun _ h => ⟨Nat.succ_le_succ h, rfl⟩
  | binary op left right hleft hright =>
    refine hleft.bind fun l hl => hright.bind fun r hr => .ok ?_
    simp only [MetricExpr.depth, MetricExpr.operators]
    omega
  | number value => exact .ok ⟨Nat.le_succ _, rfl⟩
  | dateDifference unit start finish => exact .ok ⟨Nat.le_succ _, rfl⟩

end Compiler

/-! ## Filters of calls -/

namespace Query

theorem height_throughLinks (links : List String) (inner : Option Query) :
    heightIfAny (throughLinks links inner) ≤ heightIfAny inner + links.length := by
  induction links with
  | nil => exact Nat.le_refl _
  | cons name links ih =>
    have hstep : heightIfAny (throughLinks (name :: links) inner) =
        heightIfAny (throughLinks links inner) + 1 := by
      simp [throughLinks, ofLink, heightIfAny, height]
    rw [hstep, List.length_cons]
    omega

end Query

namespace Metric

open Filter (Scope NestedLow)
open Path (Roomy FilterBelow)
open Query (heightIfAny)

variable {scope : Scope} {table : String} {n room : Nat} {log : List Token}

theorem buildIn_low (scope : Scope) : NestedLow (Filter.buildIn scope) n where
  closes log h := by
    obtain ⟨m, -, h⟩ := h
    exact (@Filter.buildIn_height scope _ _ h).1
  height log room h hfits table := by
    obtain ⟨m, hm, h⟩ := h
    exact ((Filter.buildIn_height h).2 room hfits table).mono fun q hq => by omega

theorem carriedFilters_height {links : List String} {segments : List ResolvedSegment}
    (h : Roomy (FilterBelow n) room (segments.map (·.segment))) :
    Ensures (∀ filter ∈ ·, heightIfAny filter ≤ 3 * n + 6 * room + links.length + 1)
      (carriedFilters scope links segments) := by
  induction segments generalizing links room with
  | nil => exact .ok (by simp)
  | cons s rest ih =>
    cases room with
    | zero => exact h.elim
    | succ room =>
      obtain ⟨hlogs, hbehind⟩ := h
      have hbelow : Filter.Nested.Below (Filter.buildIn scope) (3 * n + 6 * room) s.segment := by
        intro log hlog table
        exact (buildIn_low scope).height log room (hlogs log hlog).1 (hlogs log hlog).2 table
      have hrest : Ensures (∀ filter ∈ ·,
          heightIfAny filter ≤ 3 * n + 6 * (room + 1) + links.length + 1)
          (carriedFilters scope (links ++ [s.name]) rest) := by
        refine (ih hbehind).mono fun filters hfilters filter hfilter => ?_
        have hheight := hfilters filter hfilter
        rw [List.length_append, List.length_singleton] at hheight
        omega
      have hhere : ∀ here : List (Option Query), (∀ filter ∈ here,
          heightIfAny filter ≤ 3 * n + 6 * (room + 1) + links.length + 1) →
          Ensures (∀ filter ∈ ·, heightIfAny filter ≤ 3 * n + 6 * (room + 1) + links.length + 1)
            (do return here ++ (← carriedFilters scope (links ++ [s.name]) rest)) :=
        fun here hhere => hrest.bind fun others hothers =>
          .ok (List.forall_mem_append.mpr ⟨hhere, hothers⟩)
      unfold carriedFilters
      dsimp only
      split
      · exact hhere [] (by simp)
      · split
        · refine (hbelow.filters _).bind fun filter hfilter => hhere _ ?_
          have hthrough := Query.height_throughLinks (links ++ [s.name]) filter
          rw [List.length_append, List.length_singleton] at hthrough
          exact List.forall_mem_singleton.mpr (by omega)
        · refine (hbelow.filters _).bind fun filter hfilter => hhere _ ?_
          have hthrough := Query.height_throughLinks links filter
          exact List.forall_mem_singleton.mpr (by omega)

theorem callPath_height {function : MetricFunction} {keyword : String} {path : Path}
    (h : Roomy (FilterBelow n) room path.segments) :
    Ensures (fun found => heightIfAny found.2 ≤ 3 * n + 6 * room + 2)
      (callPath scope table function keyword path) := by
  intro found hfound
  obtain ⟨_, -, hfound⟩ := bind_eq_ok hfound
  obtain ⟨resolved, hresolved, hfound⟩ := bind_eq_ok hfound
  have hsegments := (Schema.resolve_yields.of_ok hresolved).2
  rw [← hsegments] at h
  have hfilters : Ensures (∀ filter ∈ ·, heightIfAny filter ≤ 3 * n + 6 * room + 1)
      (carriedFilters scope [] resolved.segments) := carriedFilters_height h
  have hpath : Ensures (fun found : List String × Option Query =>
      heightIfAny found.2 ≤ 3 * n + 6 * room + 2)
        (carriedFilters scope [] resolved.segments >>= fun filters =>
          return (resolved.names, Query.andAll filters)) :=
    hfilters.bind fun _ h => .ok (Query.height_andAll h)
  exact Ensures.guarded hpath found hfound

/-! ## Levels of metrics -/

section Closing

theorem closes_target (h : Produces (Generates Part.body n) Language.path log) : Closes log :=
  Filter.closes_items (Filter.items_path h)

theorem closes_call (h : Produces (Generates Part.body n) metricCall log) : Closes log := by
  simp only [metricCall, Produces, ProducesAll, ProducesAny, produces_symbol, produces_keywords,
    produces_modifiablePath, chained_nil_right, or_false] at h
  obtain ⟨_, _, rfl, ⟨word, -, p, rfl⟩, _, _, rfl, ⟨q, rfl⟩, target, _, rfl, htarget, parameter,
    _, rfl, hparameter, r, rfl⟩ := h
  have htarget : Closes target := by
    rcases htarget with ⟨p', rfl⟩ | htarget
    · exact Closes.unmarked rfl
    · exact closes_target htarget
  have hparameter : Closes parameter := by
    rcases hparameter with rfl | ⟨_, _, rfl, ⟨p', rfl⟩, value, q', rfl⟩ <;>
      exact Closes.unmarked rfl
  exact Closes.append (Closes.unmarked rfl) (Closes.append (Closes.unmarked rfl)
    (htarget.append (hparameter.append (Closes.unmarked rfl))))

theorem closes_timeArgument (h : Produces (Generates Part.body n) timeArgument log) :
    Closes log := by
  simp only [timeArgument, Produces, ProducesAny, produces_modifiablePath, or_false] at h
  rcases h with hnow | ⟨text, p, rfl⟩ | hpath
  · exact Filter.closes_unmarked (by decide) (by decide) hnow
  · exact Closes.unmarked rfl
  · exact closes_target hpath

theorem closes_difference (h : Produces (Generates Part.body n) Language.dateDifference log) :
    Closes log := by
  simp only [Language.dateDifference, timeUnit, Produces, ProducesAll, produces_symbol,
    produces_keywords, chained_nil_right] at h
  obtain ⟨_, _, rfl, ⟨p, rfl⟩, _, _, rfl, ⟨q, rfl⟩, _, _, rfl, ⟨unit, -, r, rfl⟩, _, _, rfl,
    ⟨p', rfl⟩, start, _, rfl, hstart, _, _, rfl, ⟨q', rfl⟩, finish, _, rfl, hfinish, r', rfl⟩ := h
  have hfront : Closes ([⟨.keyword, "DATEDIFF", p⟩] ++ [⟨.symbol, "(", q⟩] ++
      [⟨.keyword, unit, r⟩] ++ [⟨.symbol, ",", p'⟩]) := Closes.unmarked rfl
  have hback : Closes (finish ++ [⟨.symbol, ")", r'⟩]) :=
    (closes_timeArgument hfinish).append (Closes.unmarked rfl)
  simpa only [List.append_assoc] using hfront.append
    ((closes_timeArgument hstart).append (Closes.append (a := [_]) (Closes.unmarked rfl) hback))

/-- Operators between operands add to what closes its blocks only what closes its blocks. -/
theorem closes_list {A S : LogSet} (hitem : ∀ log, A log → Closes log)
    (hseparator : ∀ log, S log → Closes log) (h : Chained A (Repeated (Chained S A)) log) :
    Closes log := by
  have hclosed : Closed (fun (_ : Part) _ => False) Closes :=
    ⟨.nil, fun _ _ ha hb => ha.append hb, fun _ _ h => h.elim⟩
  exact Chained.closed hclosed hitem
    (Repeated.closed hclosed (Chained.closed hclosed hseparator hitem)) log h

theorem closes_metric (h : Generates Part.body n .metric log) : Closes log := by
  induction n generalizing log with
  | zero => exact h.elim
  | succ n ih =>
    simp only [Generates, Part.body, metric, metricTerm] at h
    rw [Produces] at h
    refine closes_list (fun log hlog => ?_)
      (fun _ hop => Filter.closes_unmarked (by decide) (by decide) hop) h
    rw [Produces] at hlog
    refine closes_list (fun log hlog => ?_)
      (fun _ hop => Filter.closes_unmarked (by decide) (by decide) hop) hlog
    simp only [metricFactor, Produces, ProducesAny, or_false] at hlog
    rcases hlog with hlog | hlog | hlog | ⟨value, p, rfl⟩
    · simp only [ProducesAll, Produces, produces_symbol, chained_nil_right] at hlog
      obtain ⟨_, _, rfl, ⟨p, rfl⟩, inside, _, rfl, hinside, q, rfl⟩ := hlog
      exact Closes.append (Closes.unmarked rfl) ((ih hinside).append (Closes.unmarked rfl))
    · exact closes_difference hlog
    · exact closes_call hlog
    · exact Closes.unmarked rfl

end Closing

/-- The filter of a call is low where the log of the call has little room. -/
theorem IsCall.height {c : MetricCall} (h : IsCall scope table (CalledOn n log) c)
    (hfits : Fits room log) : heightIfAny c.filter ≤ 3 * n + 6 * room + 2 := by
  rcases h with hnone | ⟨function, keyword, path, hcalled, hpath⟩
  · rw [hnone]
    exact Nat.zero_le _
  · obtain ⟨word, p, q, target, back, rfl, htarget, hread⟩ := hcalled
    have hbehind : Fits room (target ++ back) :=
      Fits.right (a := [⟨.keyword, word, p⟩, ⟨.symbol, "(", q⟩]) hfits (Closes.unmarked rfl)
    obtain ⟨v, hadds, hv⟩ := Filter.adds_roomy htarget hbehind.left
    have hroomy := hv [.path path] ((hadds .list []).ofTokens.symm.trans hread)
    exact callPath_height (hroomy path (List.mem_singleton.mpr rfl)) _ hpath

/-- The log closes its blocks, and the metric is low where the log has little room. -/
structure IsLow (n k : Nat) (log : List Token) (q : MetricExpr) : Prop where
  closes : Closes log
  depth : ∀ room, Fits room log → q.depth ≤ 5 * n + 6 * room + 3 + (3 - k)

/-- Each level of precedence puts one step to the right on top of the levels below it. -/
theorem Derives.low {k : Nat} {q : MetricExpr} (h : Derives scope table n k log q) :
    IsLow n k log q := by
  induction h with
  | number n text p value =>
    exact ⟨Closes.unmarked rfl, fun room _ => by simp only [MetricExpr.depth]; omega⟩
  | difference hlog unit start finish =>
    refine ⟨closes_difference hlog, fun room _ => ?_⟩
    have hleaf : (Metric.difference unit start finish).depth = 1 := by
      cases start <;> cases finish <;> rfl
    omega
  | call hlog hcall =>
    refine ⟨closes_call hlog, fun room hfits => ?_⟩
    have hfilter := hcall.height hfits
    simp only [MetricExpr.depth]
    omega
  | group _ p p' ih =>
    have hopen : Closes [(⟨.symbol, "(", p⟩ : Token)] := Closes.unmarked rfl
    refine ⟨hopen.append (ih.closes.append (Closes.unmarked rfl)), fun room hfits => ?_⟩
    have hinside := ih.depth room (Fits.right (a := [_]) hfits hopen).left
    omega
  | weaken _ ih =>
    refine ⟨ih.closes, fun room hfits => ?_⟩
    have hbelow := ih.depth room hfits
    omega
  | @binary n k op a b left right hrank _ p _ hleft hright =>
    have hop : Closes [(⟨.symbol, op.symbol, p⟩ : Token)] := Closes.unmarked rfl
    refine ⟨hleft.closes.append (hop.append hright.closes), fun room hfits => ?_⟩
    have hdepth := hleft.depth room hfits.left
    have hdepth' := hright.depth room ((hfits.right hleft.closes).right (a := [_]) hop)
    have hbounds := rank_bounds op
    simp only [MetricExpr.depth]
    omega

/-- Each operator stands in the text. -/
theorem Derives.operators_le {k : Nat} {q : MetricExpr} (h : Derives scope table n k log q) :
    q.operators ≤ log.countP Token.isPlaced := by
  induction h with
  | number n text p value => exact Nat.zero_le _
  | difference hlog unit start finish =>
    have hleaf : (Metric.difference unit start finish).operators = 0 := by
      cases start <;> cases finish <;> rfl
    omega
  | call hlog hcall => exact Nat.zero_le _
  | group _ p p' ih =>
    rw [List.countP_cons, List.countP_append]
    omega
  | weaken _ ih => exact ih
  | @binary n k op a b left right hrank _ p _ hleft hright =>
    have hplaced : Token.isPlaced ⟨.symbol, op.symbol, p⟩ = true := rfl
    rw [List.countP_append, List.countP_cons_of_pos hplaced]
    simp only [MetricExpr.operators]
    omega

end Metric

/-! ## Metrics of a text -/

namespace Rule

/-- Each token takes a character at least. -/
theorem Covers.length_le {n m : Nat} {cs rest : List Char} {tokens : List Token}
    (h : Covers n cs m rest tokens) : tokens.length + rest.length ≤ cs.length := by
  induction h with
  | done => exact Nat.le_of_eq (Nat.zero_add _)
  | gap h hmore ih =>
    rw [List.length_append]
    omega
  | @token n m text cs rest t tokens hposition hne h hmore ih =>
    have hpositive := List.length_pos_iff.mpr hne
    rw [List.length_append, List.length_cons]
    omega

end Rule

namespace Metric

variable {n room : Nat} {log : List Token}

/-- A metric of a list, with the room of the list and no more tokens than it. -/
def ItemOf (n room : Nat) (log : List Token) : Part → LogSet :=
  fun part item => Generates Part.body n part item ∧ Fits room item ∧
    item.countP Token.isPlaced ≤ log.countP Token.isPlaced

theorem produces_items (h : Produces (Generates Part.body n) metrics log) (hfits : Fits room log) :
    Produces (ItemOf n room log) metrics log := by
  have hseparator : ∀ gap : List Token, Produces (Generates Part.body n) (symbol ",") gap →
      Closes gap := fun gap hgap => Filter.closes_unmarked (by decide) (by decide) hgap
  have hitem : ∀ front item back : List Token, log = front ++ (item ++ back) → Closes front →
      Generates Part.body n .metric item → ItemOf n room log .metric item := by
    rintro front item back rfl hfront hitem
    refine ⟨hitem, (hfits.right hfront).left, ?_⟩
    simp only [List.countP_append]
    omega
  simp only [metrics, Produces] at h ⊢
  obtain ⟨first, _, hlog, hfirst, parts, rfl, hparts⟩ := h
  refine ⟨first, parts.flatten, hlog, hitem [] first _ hlog .nil hfirst, parts, rfl, ?_⟩
  intro part hpart
  obtain ⟨gap, item, rfl, hgap, hmetric⟩ := hparts part hpart
  obtain ⟨front, back, rfl⟩ := List.append_of_mem hpart
  have hfront : Closes (first ++ front.flatten) :=
    closes_list (fun _ h => closes_metric h) hseparator
      ⟨first, _, rfl, hfirst, front, rfl, fun part hpart =>
        hparts part (List.mem_append_left _ hpart)⟩
  refine ⟨gap, item, rfl, hgap, hitem (first ++ front.flatten ++ gap) item back.flatten ?_
    (hfront.append (hseparator gap hgap)) hmetric⟩
  rw [hlog]
  simp

end Metric

namespace Compiler

theorem metrics_low {compiler : Compiler} {table input : String} {metrics : List MetricExpr}
    (h : compiler.metrics table input = .ok metrics) :
    ∀ m ∈ metrics, m.depth ≤ 11 * (compiler.settings.maxNesting + 1) ∧
      m.operators ≤ input.length := by
  obtain ⟨log, hlog, h⟩ := bind_eq_ok h
  obtain ⟨found, hfound, hsettled⟩ := bind_eq_ok h
  obtain ⟨scope, -, hbuild⟩ := bind_eq_ok hfound
  have hfits := TokenLog.fits_of_pathDepth (TokenLog.ofText_levels hlog)
  obtain ⟨_, hcovers⟩ := TokenLog.ofText_covers hlog
  have hplaced : log.countP Token.isPlaced ≤ input.length := by
    have hle := hcovers.length_le
    rw [← String.length_toList, List.countP_eq_length_filter]
    omega
  have hproduces : log ≠ [] → Produces (Generates Part.body compiler.settings.maxNesting)
      Language.metrics log := (compiler.log_answers .aggregationMetric input).of_ok hlog
  have hlow := (Metric.build_yields scope.clock.shows_any
    (fun _ (h : Metric.ItemOf _ compiler.settings.maxNesting log .metric _) => h.1)
    fun hne => Metric.produces_items (hproduces hne) hfits).of_ok hbuild
  intro m hm
  obtain ⟨raw, hraw, hsettle⟩ := (mem_mapM hsettled).2 m hm
  obtain ⟨item, k, ⟨-, hroom, hitem⟩, hk, hderives⟩ := hlow raw hraw
  have hdepth := hderives.low.depth _ hroom
  have hoperators := hderives.operators_le
  have hkept := settleMetric_depth m hsettle
  omega

/--
Apart from steps into left operands, the height of a metric is linear in the nesting limit,
whatever the schema, the table and the text. Those steps are as many as the text has operators.
-/
theorem metric_height : ∃ c, ∀ (compiler : Compiler) (table input : String)
    (metrics : List MetricExpr), compiler.metrics table input = .ok metrics →
      ∀ m ∈ metrics, m.depth ≤ c * (compiler.settings.maxNesting + 1) ∧
        m.operators ≤ input.length ∧
        m.height ≤ c * (compiler.settings.maxNesting + 1) + input.length := by
  refine ⟨11, fun compiler table input metrics h m hm => ?_⟩
  obtain ⟨hdepth, hoperators⟩ := metrics_low h m hm
  have hheight := m.height_le
  exact ⟨hdepth, hoperators, by omega⟩

/-- A product of a sum in parentheses and of a call on a filtered link. -/
theorem metric_height_product : ∃ c metrics,
    staff.metrics "Person" "2 * (3 - COUNT(Boss.WHERE(Name = 'Ann')))" = .ok metrics ∧
      ∀ m ∈ metrics, m.depth ≤ c * (staff.settings.maxNesting + 1) ∧ m.operators ≤ 41 ∧
        m.height ≤ c * (staff.settings.maxNesting + 1) + 41 := by
  have hsome : (staff.metrics "Person" "2 * (3 - COUNT(Boss.WHERE(Name = 'Ann')))").toOption.isSome =
      true := by decide +kernel
  obtain ⟨metrics, hmetrics⟩ := Option.isSome_iff_exists.mp hsome
  obtain ⟨c, hc⟩ := metric_height
  exact ⟨c, metrics, toOption_eq_some hmetrics, hc _ _ _ _ (toOption_eq_some hmetrics)⟩

/-- Within one level of nesting, a longer sum is a higher metric. -/
theorem metric_height_unbounded : ¬ ∃ b : Nat → Nat, ∀ (compiler : Compiler) (table input : String)
    (metrics : List MetricExpr), compiler.metrics table input = .ok metrics →
      ∀ m ∈ metrics, m.height ≤ b compiler.settings.maxNesting := by
  rintro ⟨b, hb⟩
  have hsome : staff.scope.toOption.isSome = true := by decide +kernel
  obtain ⟨scope, hscope⟩ := Option.isSome_iff_exists.mp hsome
  have hlimits : (staff.withLimits (Metric.onesText (b 1)).length 1).scope = .ok scope :=
    toOption_eq_some hscope
  obtain ⟨one, hones⟩ := metrics_ones "" hlimits (Nat.le_refl _) (Nat.le_refl _)
  have hlow : _ ≤ b 1 := hb _ _ _ _ hones _ (List.mem_singleton.mpr rfl)
  have hone : (MetricExpr.number one).height = 1 := rfl
  have hhigh := MetricExpr.height_addOnes one (Nat.le_of_eq hone.symm) (b 1)
  omega

end Compiler

end LinkQuery
