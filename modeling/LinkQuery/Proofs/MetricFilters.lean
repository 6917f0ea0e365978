import LinkQuery.Proofs.CarriedFilters
import LinkQuery.Proofs.PathUses
/-!
# Filters of metrics

A metric is about the objects at the ends of the paths of its calls. The filter of a call selects
the objects that these paths start from, and it has to keep each one that contributes: one with a
chain of links along the path that passes all filters on the way.

Main statements:
- `Compiler.metric_filters_keep`: the filters of the calls in metrics and statistics.
-/
namespace LinkQuery

open Filter (Scope PassesAlong PassesEach)
open Metric (ReadOff Uses)

/-- The filter of a call along a path keeps each stored object of the table with a chain along the
whole path that passes the filters on it. Where only one segment has filters, it keeps none but the
objects with a chain up to this segment. -/
structure MetricCall.KeepsAlong (scope : Scope) (store : Store) (table : String) (c : MetricCall)
    (path : Path) : Prop where
  names : c.path = path.names
  keeps : ∀ o b, (scope.view store).Stores o → o.table = table →
    (scope.view store).holdsIfAny c.filter o = .ok b →
      PassesAlong scope store path.segments o → b = true
  single : ∀ front s back, path.segments = front ++ s :: back → s.filters ≠ [] →
    (∀ t ∈ front ++ back, t.filters = []) → ∀ o b, (scope.view store).Stores o → o.table = table →
      (scope.view store).holdsIfAny c.filter o = .ok b →
        (b = true ↔ PassesAlong scope store (front ++ [s]) o)

/-- The place stands for the path; a call at it keeps the objects that contribute. -/
def PathUse.KeepsAlong (scope : Scope) (store : Store) (table : String) : PathUse → Path → Prop
  | .call c, path => c.KeepsAlong scope store table path
  | .field names, path => names = path.names

namespace Compiler

variable {c : Compiler} {scope : Scope} {table : String} {store : Store}

/-! ## Settling -/

theorem settleIfAny_eq_ok {raw q : Option Query} (h : c.settleIfAny table raw = .ok q) :
    Query.promoteIfAny c.schema table raw = .ok q ∧ Query.Known (Query.namesIfAny q) := by
  cases raw with
  | none =>
    obtain rfl : none = q := Except.ok.inj h
    exact ⟨rfl, by simp [Query.Known, Query.namesIfAny]⟩
  | some raw =>
    obtain ⟨settled, hsettled, rfl⟩ := map_eq_ok h
    obtain ⟨hpromote, hknown⟩ := Query.settle_eq_ok_iff.mp hsettled
    refine ⟨?_, by simpa [Query.namesIfAny] using hknown⟩
    rw [Query.promoteIfAny, hpromote]
    rfl

/-- Settling a place settles the filter of a call and leaves its path. -/
inductive SettlesUse (c : Compiler) (table : String) : PathUse → PathUse → Prop
  | call {before settled : MetricCall} (hpath : settled.path = before.path)
    (hfilter : c.settleIfAny table before.filter = .ok settled.filter) :
    SettlesUse c table (.call before) (.call settled)
  | field (names : List String) : SettlesUse c table (.field names) (.field names)

theorem settlesUse_operand (operand : TimeOperand) :
    List.Forall₂ (SettlesUse c table) operand.pathUses operand.pathUses := by
  cases operand with
  | timestamp value => exact .nil
  | field names => exact .cons (.field names) .nil

theorem settleCall_uses {before settled : MetricCall}
    (h : c.settleCall table before = .ok settled) :
    List.Forall₂ (SettlesUse c table) before.pathUses settled.pathUses := by
  obtain ⟨filter, hfilter, h⟩ := bind_eq_ok h
  obtain rfl := Except.ok.inj h
  unfold MetricCall.pathUses
  cases hpath : before.path.isEmpty with
  | true => exact .nil
  | false => exact .cons (.call rfl hfilter) .nil

theorem settleMetric_uses {before settled : MetricExpr}
    (h : c.settleMetric table before = .ok settled) :
    List.Forall₂ (SettlesUse c table) before.pathUses settled.pathUses := by
  induction before generalizing settled with
  | call found =>
    obtain ⟨call, hcall, rfl⟩ := map_eq_ok h
    exact settleCall_uses hcall
  | number value =>
    obtain rfl := Except.ok.inj h
    exact .nil
  | dateDifference unit start finish =>
    obtain rfl := Except.ok.inj h
    exact List.rel_append (settlesUse_operand start) (settlesUse_operand finish)
  | binary op left right hleft hright =>
    obtain ⟨left', hleft', h⟩ := bind_eq_ok h
    obtain ⟨right', hright', h⟩ := bind_eq_ok h
    obtain rfl := Except.ok.inj h
    exact List.rel_append (hleft hleft') (hright hright')

theorem settleMetrics_uses {before settled : List MetricExpr}
    (h : before.mapM (c.settleMetric table) = .ok settled) :
    List.Forall₂ (SettlesUse c table) (before.flatMap MetricExpr.pathUses)
      (settled.flatMap MetricExpr.pathUses) := by
  induction before generalizing settled with
  | nil =>
    obtain rfl := Except.ok.inj h
    exact .nil
  | cons first rest ih =>
    rw [List.mapM_cons] at h
    obtain ⟨first', hfirst, h⟩ := bind_eq_ok h
    obtain ⟨rest', hrest, h⟩ := bind_eq_ok h
    obtain rfl := Except.ok.inj h
    exact List.rel_append (settleMetric_uses hfirst) (ih hrest)

/-! ## Calls -/

/-- The settled filter of a path keeps the objects that contribute. -/
theorem settled_keepsAlong (hshare : scope.schema.GroupsShareTargets)
    (hgroups : scope.schema.GroupsLead) (hstore : store.Keyed) (hschema : scope.schema = c.schema)
    {place settled : PathUse} {path : Path} (hread : ReadOff scope table place path)
    (hsettle : c.SettlesUse table place settled) : settled.KeepsAlong scope store table path := by
  cases hsettle with
  | field names =>
    obtain rfl : names = path.names := by simpa using Metric.timeField_names hread
    rfl
  | @call before settled hpath hfilter =>
    obtain ⟨function, keyword, hcall⟩ := hread
    obtain ⟨hnames, hmeans⟩ := Metric.callPath_means hstore hshare hgroups hcall
    obtain ⟨hpromote, hknown⟩ := settleIfAny_eq_ok hfilter
    have htells : ∀ o b, (scope.view store).Stores o → o.table = table →
        (scope.view store).holdsIfAny settled.filter o = .ok b →
          (b = true ↔ PassesEach scope store [] path.segments o) := fun o b ho htable =>
      hmeans settled.filter (hschema ▸ hpromote) hknown o ho htable b
    refine ⟨hpath.trans hnames, fun o b ho htable hholds hpasses => ?_, ?_⟩
    · exact (htells o b ho htable hholds).mpr (hpasses.each rfl)
    · intro front s back hsegments hs hothers o b ho htable hholds
      rw [htells o b ho htable hholds, hsegments, Filter.passesEach_single hs hothers]

theorem uses_keepAlong (hshare : scope.schema.GroupsShareTargets)
    (hgroups : scope.schema.GroupsLead) (hstore : store.Keyed) (hschema : scope.schema = c.schema)
    {uses settled : List PathUse} {paths : List Path} (hread : Uses scope table uses paths)
    (hsettle : List.Forall₂ (c.SettlesUse table) uses settled) :
    List.Forall₂ (PathUse.KeepsAlong scope store table) settled paths := by
  induction hread generalizing settled with
  | nil =>
    cases hsettle
    exact .nil
  | cons hfirst _ ih =>
    cases hsettle with
    | cons hsettled hrest =>
      exact .cons (settled_keepsAlong hshare hgroups hstore hschema hfirst hsettled) (ih hrest)

/-! ## Texts -/

/-- The paths of a list, in order. -/
def paths (c : Compiler) (kind : ExpressionKind) (input : String) :
    Except QueryError (List Path) := do
  let tokens ← c.log kind input
  return Element.paths (← Element.ofTokens .list tokens)

theorem paths_eq {kind : ExpressionKind} {input : String} {tokens : List Token} {es : List Element}
    (hlog : c.log kind input = .ok tokens) (hes : Element.ofTokens .list tokens = .ok es) :
    c.paths kind input = .ok (Element.paths es) := by
  rw [paths, hlog]
  show (Element.ofTokens .list tokens >>= _) = _
  rw [hes]
  rfl

/--
The calls in compiled metrics and statistics stand for the paths of the text one by one, and their
filters never lose an object that contributes: the filter of a call holds, where its evaluation
comes to an end, of each stored object from which a chain of stored objects along the path satisfies
all filters on it. Where a single segment has filters, it holds of no other object than those with
such a chain up to this segment.
-/
theorem metric_filters_keep (hshare : c.schema.GroupsShareTargets) (hgroups : c.schema.GroupsLead)
    (hstore : store.Keyed) (hscope : c.scope = .ok scope) :
    (∀ table input metrics, c.metrics table input = .ok metrics →
      ∃ paths, c.paths .aggregationMetric input = .ok paths ∧
        List.Forall₂ (PathUse.KeepsAlong scope store table)
          (metrics.flatMap MetricExpr.pathUses) paths) ∧
    ∀ table input found, c.statistic table input = .ok (some found) →
      ∃ paths, c.paths .statisticMetric input = .ok paths ∧
        List.Forall₂ (PathUse.KeepsAlong scope store table) found.pathUses paths := by
  have hschema : scope.schema = c.schema := c.scope_yields.of_ok hscope
  rw [← hschema] at hshare hgroups
  constructor
  · intro table input metrics h
    obtain ⟨tokens, hlog, h⟩ := bind_eq_ok h
    obtain ⟨raw, hbuild, hsettle⟩ := bind_eq_ok h
    rw [buildMetrics, hscope] at hbuild
    obtain ⟨es, hes, huses⟩ := Metric.build_uses hbuild
    exact ⟨_, paths_eq hlog hes,
      uses_keepAlong hshare hgroups hstore hschema huses (settleMetrics_uses hsettle)⟩
  · intro table input found h
    obtain ⟨tokens, hlog, h⟩ := bind_eq_ok h
    obtain ⟨raw, hbuild, hsettle⟩ := bind_eq_ok h
    rw [buildStatistic, hscope] at hbuild
    have hbuild : Metric.buildStatistic scope table tokens = .ok raw := hbuild
    obtain ⟨call, rfl, hcall⟩ : ∃ call, raw = some call ∧ c.settleCall table call = .ok found := by
      cases raw with
      | none => cases Except.ok.inj hsettle
      | some call =>
        obtain ⟨settled, hsettled, heq⟩ := map_eq_ok hsettle
        exact ⟨call, rfl, Option.some.inj heq ▸ hsettled⟩
    unfold Metric.buildStatistic at hbuild
    split at hbuild
    · cases hbuild
    obtain ⟨_, hread, heq⟩ := map_eq_ok hbuild
    obtain rfl := Option.some.inj heq
    obtain ⟨es, hes, huses⟩ := Metric.statistic_uses hread
    exact ⟨_, paths_eq hlog hes,
      uses_keepAlong hshare hgroups hstore hschema huses (settleCall_uses hcall)⟩

theorem crew_groupsLead : crew.schema.GroupsLead := by
  refine Schema.groupsLead_of_firstLink ?_
  decide +kernel

/-- Twice the names of the people of a task named Bob: the task has such a person behind one link of
the group. -/
theorem metric_filters_keep_people : ∃ scope metrics call path s rest,
    crew.scope = .ok scope ∧
    crew.metrics "Task" "2 * COUNT(People.WHERE(Name = 'Bob').Name)" = .ok metrics ∧
    metrics.flatMap MetricExpr.pathUses = [.call call] ∧
    crew.paths .aggregationMetric "2 * COUNT(People.WHERE(Name = 'Bob').Name)" = .ok [path] ∧
    path.segments = s :: rest ∧ s.filters ≠ [] ∧ (∀ t ∈ rest, t.filters = []) ∧
    View.holdsIfAny ⟨crew.schema, crewStore⟩ call.filter ⟨"Task", chore⟩ = .ok true ∧
    PassesAlong scope crewStore [s] ⟨"Task", chore⟩ := by
  have hrun : (crew.metrics "Task" "2 * COUNT(People.WHERE(Name = 'Bob').Name)").toOption.map
      (fun metrics => (metrics.flatMap MetricExpr.pathUses).map fun place =>
        place.call?.bind fun call =>
          (View.holdsIfAny ⟨crew.schema, crewStore⟩ call.filter ⟨"Task", chore⟩).toOption) =
      some [some true] := by decide +kernel
  have hread : (crew.paths .aggregationMetric
      "2 * COUNT(People.WHERE(Name = 'Bob').Name)").toOption.map
        (·.map fun path => path.segments.map (·.filters.isEmpty)) = some [[false, true]] := by
    decide +kernel
  have hscope : crew.scope.toOption.isSome = true := by decide +kernel
  obtain ⟨scope, hscope⟩ := Option.isSome_iff_exists.mp hscope
  have hscope := toOption_eq_some hscope
  obtain ⟨metrics, hmetrics, hrun⟩ := Option.map_eq_some_iff.mp hrun
  have hmetrics := toOption_eq_some hmetrics
  obtain ⟨place, huses, hrun⟩ := List.map_eq_singleton_iff.mp hrun
  obtain ⟨call, hcall, hrun⟩ := Option.bind_eq_some_iff.mp hrun
  obtain rfl := PathUse.call?_eq_some_iff.mp hcall
  obtain ⟨paths, hpaths, hread⟩ := Option.map_eq_some_iff.mp hread
  have hpaths := toOption_eq_some hpaths
  obtain ⟨path, rfl, hpath⟩ := List.map_eq_singleton_iff.mp hread
  obtain ⟨s, rest, hsegments, hs, hrest⟩ := List.map_eq_cons_iff.mp hpath
  have hs : s.filters ≠ [] := by simpa using hs
  have hrest : ∀ t ∈ rest, t.filters = [] := by
    obtain ⟨last, rfl, hlast⟩ := List.map_eq_singleton_iff.mp hrest
    simpa using hlast
  obtain ⟨found, hfound, hkeep⟩ := (metric_filters_keep crew_sharesTargets crew_groupsLead
    crewStore_keyed hscope).1 _ _ _ hmetrics
  obtain rfl : [path] = found := Except.ok.inj (hpaths.symm.trans hfound)
  rw [huses] at hkeep
  obtain ⟨hcall, -⟩ := List.forall₂_cons.mp hkeep
  have hholds := toOption_eq_some hrun
  have hschema : scope.schema = crew.schema := crew.scope_yields.of_ok hscope
  have hstored : (scope.view crewStore).Stores ⟨"Task", chore⟩ := find?_chore
  have hchain := (hcall.single [] s rest hsegments hs hrest ⟨"Task", chore⟩ true hstored rfl
    (by rw [Scope.view, hschema]; exact hholds)).mp rfl
  exact ⟨scope, metrics, call, path, s, rest, hscope, hmetrics, huses, hpaths, hsegments, hs,
    hrest, hholds, hchain⟩

end Compiler

end LinkQuery
