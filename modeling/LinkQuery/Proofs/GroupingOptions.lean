import LinkQuery.Proofs.GroupingFilters
import LinkQuery.Proofs.PathChecks
import LinkQuery.Proofs.Typing
import LinkQuery.Proofs.ValueSets
/-!
# Options of groupings

A level is put together by readers that each add an option to it and leave its path alone. What an
option needs of the last step is checked when it is added, so it holds of the level in the end,
whatever order the options come in. Boundaries are only compared with their neighbours. The order of
literals is transitive, so each of them is below all later ones.

Main statements:
- `Literal.order_trans`: the order of literals, also of different kinds.
- `ElementReader.Gives.loop`: what one round of a loop keeps, the loop keeps.
- `Compiler.groupings_wellFormed`: every level of compiled grouping sets is well formed.
-/
namespace LinkQuery

open Filter (Scope)
open Time (Timestamp Zone)

/-! ## The order of literals -/

/-- Decimals are ordered as their values. -/
theorem Decimal.order_lt_iff {a b : Decimal} : a.order b = .lt ↔ a.value < b.value := by
  have hpower : ∀ n, (Text.powerOfTen n : ℚ) = 10 ^ n := fun n => by
    simp [Text.powerOfTen]
  have hpos : ∀ n, (0 : ℚ) < 10 ^ n := fun n => pow_pos (by decide) n
  have hcast : a.coefficient * Text.powerOfTen b.scale < b.coefficient * Text.powerOfTen a.scale ↔
      (a.coefficient * 10 ^ b.scale : ℚ) < b.coefficient * 10 ^ a.scale := by
    rw [← hpower, ← hpower]
    exact_mod_cast Iff.rfl
  rw [order, compare_lt_iff_lt, hcast, value, value, div_lt_div_iff₀ (hpos _) (hpos _)]

theorem Time.Timestamp.order_trans {a b c : Timestamp} (h : a.order b = .lt)
    (h' : b.order c = .lt) : a.order c = .lt := by
  simp only [order, Ordering.then_eq_lt, compare_lt_iff_lt, compare_eq_iff_eq] at h h' ⊢
  omega

namespace Literal

variable {a b c : Literal}

theorem order_of_rank_ne (h : a.rank ≠ b.rank) : a.order b = compare a.rank b.rank := by
  cases a <;> cases b <;> first | rfl | exact absurd rfl h

theorem rank_le_of_order (h : a.order b = .lt) : a.rank ≤ b.rank := by
  by_cases hkind : a.rank = b.rank
  · exact Nat.le_of_eq hkind
  · rw [order_of_rank_ne hkind, compare_lt_iff_lt] at h
    exact Nat.le_of_lt h

/-- Literals of one kind are ordered by their values, and different kinds by their ranks. -/
theorem order_trans (h : a.order b = .lt) (h' : b.order c = .lt) : a.order c = .lt := by
  have hab := rank_le_of_order h
  have hbc := rank_le_of_order h'
  by_cases hkind : a.rank = c.rank
  · have hfirst : a.rank = b.rank := by omega
    have hsecond : b.rank = c.rank := by omega
    cases a <;> cases b <;> cases hfirst <;> cases c <;> cases hsecond
    · rename_i x y z
      have h : compare x y = .lt := h
      have h' : compare y z = .lt := h'
      show compare x z = .lt
      exact Std.TransCmp.lt_trans h h'
    · exact Decimal.order_lt_iff.mpr
        (lt_trans (Decimal.order_lt_iff.mp h) (Decimal.order_lt_iff.mp h'))
    · rename_i x y z
      have h : compare x y = .lt := h
      have h' : compare y z = .lt := h'
      show compare x z = .lt
      exact Std.TransCmp.lt_trans h h'
    · exact Timestamp.order_trans h h'
  · rw [order_of_rank_ne hkind, compare_lt_iff_lt]
    omega

end Literal

/-! ## What readers give -/

namespace ElementReader

variable {α β σ : Type} {P : α → Prop} {Q : β → Prop}

/-- What a reader gives has the property. -/
def Gives (P : α → Prop) (r : ElementReader α) : Prop :=
  ∀ es a rest, r es = .ok (a, rest) → P a

namespace Gives

theorem pure {a : α} (h : P a) : Gives P (Pure.pure a) := by
  rintro es b rest heq
  obtain ⟨rfl, -⟩ := Prod.ext_iff.mp (Except.ok.inj heq)
  exact h

theorem lift {v : Except QueryError α} (h : ∀ a, v = .ok a → P a) :
    Gives P (ElementReader.lift v) :=
  fun _ a _ heq => h a (lift_ok heq).1

theorem refuse {cause : InvalidCause} : Gives P (ElementReader.refuse cause) :=
  fun _ _ _ heq => by cases heq

theorem fail {cause : InternalCause} : Gives P (ElementReader.fail cause) :=
  fun _ _ _ heq => by cases heq

theorem bind {r : ElementReader α} {k : α → ElementReader β} (h : Gives P r)
    (hk : ∀ a, P a → Gives Q (k a)) : Gives Q (r >>= k) := by
  intro es b rest heq
  obtain ⟨a, mid, hr, hkb⟩ := bind_ok heq
  exact hk a (h es a mid hr) mid b rest hkb

/-- Whatever the first reader gives. -/
theorem after {r : ElementReader α} {k : α → ElementReader β} (hk : ∀ a, Gives Q (k a)) :
    Gives Q (r >>= k) :=
  Gives.bind (P := fun _ => True) (fun _ _ _ _ => trivial) fun a _ => hk a

/-- What one round of a loop keeps, the loop keeps. -/
theorem loop {P : σ → Prop} {step : σ → ElementReader (Progress σ)}
    (hstep : ∀ state, P state → Gives (Progress.Keeps P) (step state)) {state : σ}
    (h : P state) : Gives P (ElementReader.loop step state) := by
  intro es
  induction hlength : es.length using Nat.strongRecOn generalizing es state with
  | ind n ih =>
    intro a rest hrun
    rw [ElementReader.loop] at hrun
    split at hrun
    · cases hrun
    · rename_i hround
      obtain ⟨rfl, -⟩ := Prod.ext_iff.mp (Except.ok.inj hrun)
      exact hstep state h _ _ _ hround
    · rename_i next mid hround
      split at hrun
      · rename_i hshorter
        exact ih _ (hlength ▸ hshorter) (hstep state h _ _ _ hround) mid rfl a rest hrun
      · cases hrun

theorem untilEnd {P : σ → Prop} {step : σ → ElementReader σ}
    (hstep : ∀ state, P state → Gives P (step state)) {state : σ} (h : P state) :
    Gives P (ElementReader.untilEnd step state) :=
  loop (fun state h => after fun ended => by
    cases ended
    · exact (hstep state h).bind fun _ hnext => pure hnext
    · exact pure h) h

end Gives

end ElementReader

/-! ## Buckets that are given -/

/-- The buckets of a batching are there, and of a type. Boundaries ascend, each of them below all
later ones, and values with a bucket each stand for different data. -/
def Batching.WellFormed (type : ScalarType) : Batching → Prop
  | .boundaries values => values ≠ [] ∧ (∀ value ∈ values, value.IsOf (some type)) ∧
      values.Pairwise fun a b => a.order b = .lt
  | .sets values => values ≠ [] ∧ (∀ value ∈ values, value.IsOf (some type)) ∧
      Literal.Distinct values

namespace Grouping

open ElementReader LinkQuery.Filter

/-- Literals that ascend from neighbour to neighbour ascend throughout. -/
theorem pairwise_of_ascending {values : List Literal} (h : ascending values = true) :
    values.Pairwise fun a b => a.order b = .lt := by
  have hchain : values.IsChain fun a b => a.order b = .lt := by
    induction values with
    | nil => exact .nil
    | cons a rest ih =>
      cases rest with
      | nil => exact .singleton a
      | cons b rest =>
        rw [ascending, Bool.and_eq_true, beq_iff_eq] at h
        exact .cons_cons h.1 (ih h.2)
  have : IsTrans Literal fun a b => a.order b = .lt := ⟨fun _ _ _ => Literal.order_trans⟩
  exact List.isChain_iff_pairwise.mp hchain

theorem distinct_data {values : List Literal} (h : distinct values = true) :
    Literal.Distinct values := by
  induction values with
  | nil => exact List.nodup_nil
  | cons a rest ih =>
    rw [distinct, Bool.and_eq_true, Bool.not_eq_true'] at h
    refine List.nodup_cons.mpr ⟨fun hmem => ?_, ih h.2⟩
    rw [Literal.contains_iff.mpr hmem] at h
    cases h.1

variable {leaf : GroupItem} {values : List RawValue} {literals : List Literal}

/-- The literals of a modifier are of the type of the last step. -/
theorem leafLiterals_isOf (h : leafLiterals leaf values = .ok literals) :
    ∀ literal ∈ literals, literal.IsOf leaf.kind.scalarType? := by
  intro literal hliteral
  obtain ⟨value, -, hvalue⟩ := (mem_mapM h).2 literal hliteral
  have hgood : value.Good fun _ => True := by
    cases value <;> trivial
  exact ((literalOf_yields hgood).of_ok hvalue).isOf

theorem leafLiterals_ne_nil (h : leafLiterals leaf values = .ok literals) (hvalues : values ≠ []) :
    literals ≠ [] := by
  obtain ⟨value, hvalue⟩ := List.exists_mem_of_ne_nil values hvalues
  obtain ⟨literal, hliteral, -⟩ := (mem_mapM h).1 value hvalue
  exact List.ne_nil_of_mem hliteral

/-! ## Options -/

/-- The options of a level fit its last step, and only its groups stand for links. -/
structure OptionsFit (g : Grouping) : Prop where
  nested : ∀ item ∈ g.items, item.nestedLinks ≠ [] → item.kind = .group
  batch : ∀ batch ∈ g.batch, ∃ type, g.leaf.kind.scalarType? = some type ∧ batch.WellFormed type
  included : ∀ value ∈ g.included, value.IsOf g.leaf.kind.scalarType?
  excluded : ∀ value ∈ g.excluded, value.IsOf g.leaf.kind.scalarType?
  truncate : ∀ cut ∈ g.truncate, g.leaf.kind.scalarType? = some .timestamp ∧
    (Zone.ofText? cut.zone).isSome = true
  texts : g.terms = true ∨ g.caseFold.isSome = true → g.leaf.kind.scalarType? = some .text
  selection : ∀ selection ∈ g.selection, 1 ≤ selection.count

variable {scope : Scope} {base : Option Query} {table keyword : String} {g found : Grouping}

theorem itemOf_nested {s : ResolvedSegment} {item : GroupItem} (h : itemOf scope s = .ok item)
    (hlinks : item.nestedLinks ≠ []) : item.kind = .group := by
  obtain ⟨filter, -, h⟩ := bind_eq_ok h
  obtain rfl := Except.ok.inj h
  dsimp only at hlinks ⊢
  cases hrole : s.role with
  | group target => rfl
  | _ =>
    rw [hrole] at hlinks
    exact absurd rfl hlinks

/-- A path has no options to begin with. -/
theorem ofPath_optionsFit {path : Path} (h : ofPath scope base table path = .ok g) :
    g.OptionsFit := by
  obtain ⟨_, -, h⟩ := bind_eq_ok h
  obtain ⟨resolved, -, h⟩ := bind_eq_ok h
  obtain ⟨through, hthrough, h⟩ := bind_eq_ok h
  obtain ⟨leaf, hleaf, h⟩ := bind_eq_ok h
  obtain rfl := Except.ok.inj h
  refine ⟨fun item hitem => ?_, nofun, nofun, nofun, nofun, nofun, nofun⟩
  rcases List.mem_append.mp hitem with hitem | hitem
  · obtain ⟨s, -, hs⟩ := (mem_mapM hthrough).2 item hitem
    exact itemOf_nested hs
  · obtain rfl := List.mem_singleton.mp hitem
    exact itemOf_nested hleaf

theorem requireLeaf_eq_ok {type : ScalarType} {what : String} {a : Unit}
    (h : g.requireLeaf type what = .ok a) : g.leaf.kind.scalarType? = some type := by
  unfold requireLeaf at h
  split at h
  · assumption
  · cases h

/-- Buckets are given once, on a field with values, and are checked as a whole. -/
theorem OptionsFit.withBatch (hg : g.OptionsFit) :
    Yields OptionsFit (g.withBatch keyword values) := by
  unfold Grouping.withBatch
  refine Yields.unless fun _ => Yields.unless fun htype => Yields.unless fun hvalues => ?_
  obtain ⟨type, htype⟩ : ∃ type, g.leaf.kind.scalarType? = some type :=
    Option.ne_none_iff_exists'.mp (by simpa using htype)
  refine leafLiterals_yields.itself.bind fun literals hliterals => ?_
  have hne := leafLiterals_ne_nil hliterals.1 (by simpa using hvalues)
  have hisOf := leafLiterals_isOf hliterals.1
  rw [htype] at hisOf
  have hfits : ∀ batch : Batching, batch.WellFormed type →
      OptionsFit { g with batch := some batch } := fun batch hbatch =>
    { hg with
      batch := fun _ hfound => ⟨type, htype, Option.some.inj hfound ▸ hbatch⟩ }
  split
  · exact Yields.unless fun hascending =>
      hfits _ ⟨hne, hisOf, pairwise_of_ascending (by simpa using hascending)⟩
  · exact Yields.unless fun hdistinct =>
      hfits _ ⟨hne, hisOf, distinct_data (by simpa using hdistinct)⟩

theorem OptionsFit.withCase {fold : CaseFold} (hg : g.OptionsFit) :
    Yields OptionsFit (g.withCase keyword values fold) := by
  unfold Grouping.withCase
  refine Yields.unless fun _ => requireLeaf_yields.itself.bind fun _ hleaf => ?_
  exact { hg with texts := fun _ => requireLeaf_eq_ok hleaf.1 }

/-- Every modifier leaves a level whose options fit. -/
theorem OptionsFit.modified (hg : g.OptionsFit) (h : g.modified keyword values = .ok found) :
    found.OptionsFit := by
  unfold Grouping.modified at h
  split at h
  · exact hg.withBatch.of_ok h
  · exact hg.withBatch.of_ok h
  · obtain ⟨literals, hliterals, h⟩ := bind_eq_ok h
    obtain rfl := Except.ok.inj h
    exact { hg with
      excluded := List.forall_mem_append.mpr ⟨hg.excluded, leafLiterals_isOf hliterals⟩ }
  · obtain ⟨literals, hliterals, h⟩ := bind_eq_ok h
    obtain rfl := Except.ok.inj h
    exact { hg with
      included := List.forall_mem_append.mpr ⟨hg.included, leafLiterals_isOf hliterals⟩ }
  · exact hg.withCase.of_ok h
  · exact hg.withCase.of_ok h
  · cases h

/-! ## Readers of levels -/

theorem modifiers_gives {clock : Clock} (hg : g.OptionsFit) :
    Gives OptionsFit (modifiers clock g) :=
  Gives.loop (fun g hg => Gives.after fun keyword => by
    cases keyword with
    | none => exact .pure hg
    | some keyword =>
      exact Gives.after fun _ => Gives.after fun values =>
        (Gives.lift fun _ => hg.modified).bind fun _ hfound => .pure hfound) hg

/-- The zone of a truncation is one that can be named, also where it is the caller's. -/
theorem truncation_gives (hzone : (Zone.ofText? scope.clock.zoneName).isSome = true) :
    Gives OptionsFit (truncation scope base table) := by
  refine Gives.after fun _ => Gives.after fun path => ?_
  refine (Gives.lift fun _ => ofPath_optionsFit).bind fun g hg => ?_
  refine (Gives.lift (P := fun _ => g.leaf.kind.scalarType? = some .timestamp)
    fun _ => requireLeaf_eq_ok).bind fun _ hleaf => ?_
  have hclose : ∀ unit zone, (Zone.ofText? zone).isSome = true → Gives OptionsFit (do
      symbol ")"
      return { g with truncate := some ⟨unit, zone⟩ }) := fun unit zone hzone =>
    Gives.after fun _ => .pure { hg with
      truncate := fun cut hcut => Option.some.inj hcut ▸ ⟨hleaf, hzone⟩ }
  refine Gives.after fun _ => Gives.after fun _ => ?_
  refine Gives.after fun unit => Gives.after fun named => ?_
  cases named with
  | false => exact hclose unit _ hzone
  | true =>
    refine Gives.after fun name => ?_
    refine (Gives.lift (P := fun _ => (Zone.ofText? name.value).isSome = true) ?_).bind
      fun _ hname => hclose unit _ hname
    intro zone hfound
    unfold Settings.zoneNamed at hfound
    split at hfound
    · rename_i hname
      rw [hname]
      rfl
    · cases hfound

theorem termsOf_gives : Gives OptionsFit (termsOf scope base table) := by
  refine Gives.after fun _ => Gives.after fun path => ?_
  refine (Gives.lift fun _ => ofPath_optionsFit).bind fun g hg => ?_
  refine (Gives.lift (P := fun _ => g.leaf.kind.scalarType? = some .text)
    fun _ => requireLeaf_eq_ok).bind fun _ hleaf => ?_
  have hclose : ∀ words, Gives OptionsFit (do
      symbol ")"
      return { g with terms := true, stopWords := words }) := fun words =>
    Gives.after fun _ => .pure { hg with texts := fun _ => hleaf }
  refine Gives.after fun listed => ?_
  cases listed with
  | false => exact hclose []
  | true => exact Gives.after fun _ => Gives.after hclose

theorem baseItem_gives (hzone : (Zone.ofText? scope.clock.zoneName).isSome = true) :
    Gives OptionsFit (baseItem scope base table) :=
  Gives.after fun next => by
    match next with
    | none => exact .fail
    | some (.path p) =>
      exact Gives.after fun _ => (Gives.lift fun _ => ofPath_optionsFit).bind fun g hg =>
        modifiers_gives hg
    | some (.token t) =>
      refine Gives.after fun _ => ?_
      split
      · exact truncation_gives hzone
      · exact termsOf_gives
      · exact .fail

theorem selectionCount_gives : Gives (1 ≤ ·) (selectionCount keyword) :=
  Gives.after fun _ => Gives.after fun _ => by
    split
    · exact .refuse
    · exact .refuse
    · rename_i count hne _
      exact Gives.after fun _ => .pure (Nat.pos_of_ne_zero fun h => hne (h ▸ rfl))

theorem selections_gives : Gives (∀ selection ∈ ·, 1 ≤ selection.count) selections :=
  Gives.loop (fun found hfound => Gives.after fun next => by
    match next with
    | none => exact .pure hfound
    | some t =>
      dsimp only
      split
      · exact .pure hfound
      · exact Gives.after fun _ => selectionCount_gives.bind fun count hcount =>
          .pure (List.forall_mem_cons.mpr ⟨hcount, hfound⟩)) (by simp)

theorem closeSelections_gives {enclosing : List Selection} (hg : g.OptionsFit)
    (h : ∀ selection ∈ enclosing, 1 ≤ selection.count) :
    Gives OptionsFit (closeSelections g enclosing) := by
  induction enclosing generalizing g with
  | nil => exact .pure hg
  | cons selection outer ih =>
    obtain ⟨hselection, houter⟩ := List.forall_mem_cons.mp h
    refine Gives.after fun _ => ?_
    split
    · exact .refuse
    · refine ih { hg with selection := ?_ } houter
      rintro _ ⟨⟩
      exact hselection

theorem item_gives (hzone : (Zone.ofText? scope.clock.zoneName).isSome = true) :
    Gives OptionsFit (item scope base table) :=
  selections_gives.bind fun _ henclosing => (baseItem_gives hzone).bind fun _ hg =>
    closeSelections_gives hg henclosing

/-! ## Readers of sets -/

theorem groupLevels_gives {P : Grouping → Prop} {r : ElementReader Grouping} (h : Gives P r) :
    Gives (∀ level ∈ ·, P level) (groupLevels r) :=
  Gives.after fun _ => Gives.bind (Gives.loop (P := (∀ level ∈ ·, P level))
    (fun levels hlevels => h.bind fun g hg => Gives.after fun more => by
      have hall : ∀ level ∈ levels ++ [g], P level :=
        List.forall_mem_append.mpr ⟨hlevels, List.forall_mem_singleton.mpr hg⟩
      cases more <;> exact .pure hall) (by simp))
    fun _ hlevels => Gives.after fun _ => .pure hlevels

/-- All levels of the sets so far have the property. -/
def Sets.Each (P : Grouping → Prop) (s : Sets) : Prop :=
  ∀ set ∈ s.sets, ∀ level ∈ set.levels, P level

theorem setOrLevel_gives {P : Grouping → Prop} {r : ElementReader Grouping} (h : Gives P r)
    {s : Sets} (hs : s.Each P) : Gives (Sets.Each P) (setOrLevel r s) := by
  have hclose : ∀ s : Sets, s.Each P → Gives (Sets.Each P) (do
      separator .groupingSeparator
      return s) := fun s hs => Gives.after fun _ => .pure hs
  refine Gives.after fun grouped => ?_
  cases grouped with
  | true =>
    refine (groupLevels_gives h).bind fun levels hlevels => hclose _ ?_
    exact List.forall_mem_append.mpr ⟨hs, List.forall_mem_singleton.mpr hlevels⟩
  | false =>
    refine h.bind fun g hg => hclose _ fun set hset level hlevel => ?_
    rcases Sets.level_addBare hset hlevel with rfl | ⟨old, hold, hlevel⟩
    · exact hg
    · exact hs old hold level hlevel

theorem build_optionsFit (hzone : (Zone.ofText? scope.clock.zoneName).isSome = true)
    {tokens : List Token} {sets : List GroupingSet} (h : build scope base table tokens = .ok sets) :
    ∀ set ∈ sets, ∀ level ∈ set.levels, level.OptionsFit := by
  obtain ⟨s, hrun, h⟩ := bind_eq_ok h
  obtain rfl := Except.ok.inj h
  obtain ⟨es, -, hrun⟩ := bind_eq_ok hrun
  obtain ⟨⟨found, rest⟩, hread, hrun⟩ := bind_eq_ok hrun
  obtain rfl := Except.ok.inj hrun
  have hempty : Sets.Each OptionsFit ⟨[], none⟩ := nofun
  exact Gives.untilEnd (fun _ => setOrLevel_gives (item_gives hzone)) hempty es _ rest hread

end Grouping

/-! ## Compiled groupings -/

/-- A level is well formed in a table: its steps are those of a path from the table, links or groups
up to the last one, and its options fit. -/
structure Grouping.WellFormed (schema : Schema) (table : String) (g : Grouping) : Prop
    extends g.OptionsFit where
  steps : StepsAlong schema (fun _ => True) table g.items
  through : ∀ item ∈ g.through, item.isTraversal = true

/-- Only a link or a group can be followed to the next step. -/
theorem StepsAlong.isTraversal {schema : Schema} {good : Timestamp → Prop} {table : String}
    {through : List GroupItem} {leaf : GroupItem}
    (h : StepsAlong schema good table (through ++ [leaf])) :
    ∀ item ∈ through, item.isTraversal = true := by
  induction through generalizing table with
  | nil => simp
  | cons item rest ih =>
    obtain ⟨hitem, hrest⟩ := h
    obtain ⟨target, htarget, hrest⟩ := hrest.resolve_left (by simp)
    refine List.forall_mem_cons.mpr ⟨?_, ih hrest⟩
    by_contra hkind
    rw [hitem.target_none (by simpa using hkind)] at htarget
    cases htarget

namespace Compiler

variable {c : Compiler} {table input : String} {base : Option Query} {sets : List GroupingSet}

theorem scope_zone {scope : Scope} (h : c.scope = .ok scope) :
    (Zone.ofText? scope.clock.zoneName).isSome = true := by
  obtain ⟨clock, hclock, h⟩ := bind_eq_ok h
  obtain rfl := Except.ok.inj h
  obtain ⟨zone, hzone, hclock⟩ := bind_eq_ok hclock
  obtain rfl := Except.ok.inj hclock
  unfold Settings.zone Settings.zoneNamed at hzone
  split at hzone
  · rename_i hfound
    rw [hfound]
    rfl
  · cases hzone

/-- Settling changes the filters of levels only. -/
theorem settleLevel_optionsFit {g settled : Grouping} (hg : g.OptionsFit)
    (h : c.settleLevel table g = .ok settled) : settled.OptionsFit := by
  obtain ⟨filter, -, h⟩ := bind_eq_ok h
  obtain rfl := Except.ok.inj h
  exact { hg with }

theorem groupingsUnder_optionsFit (h : c.groupingsUnder base table input = .ok sets) :
    ∀ set ∈ sets, ∀ level ∈ set.levels, level.OptionsFit := by
  obtain ⟨log, -, h⟩ := bind_eq_ok h
  obtain ⟨built, hbuilt, hsets⟩ := bind_eq_ok h
  obtain ⟨scope, hscope, hbuilt⟩ := bind_eq_ok hbuilt
  have hfit := Grouping.build_optionsFit (scope_zone hscope) hbuilt
  intro set hset level hlevel
  obtain ⟨first, hfirst, hset⟩ := (mem_mapM hsets).2 set hset
  obtain ⟨levels, hlevels, hset⟩ := bind_eq_ok hset
  obtain rfl := Except.ok.inj hset
  obtain ⟨before, hbefore, hsettle⟩ := (mem_mapM hlevels).2 level hlevel
  exact settleLevel_optionsFit (hfit first hfirst before hbefore) hsettle

theorem groupingsUnder_wellFormed (h : c.groupingsUnder base table input = .ok sets) :
    ∀ set ∈ sets, ∀ level ∈ set.levels, level.WellFormed c.schema table := by
  intro set hset level hlevel
  have hfit := groupingsUnder_optionsFit h set hset level hlevel
  obtain ⟨scope, before, hschema, hpath, hitems, -⟩ := groupingsUnder_level h hset hlevel
  have hsteps := (Grouping.steps_of_ofPath scope.clock.shows_any hpath).1
  rw [hschema, ← hitems] at hsteps
  exact { hfit with steps := hsteps, through := hsteps.isTraversal }

/-- Every level of compiled grouping sets is well formed, with a base filter or without. -/
theorem groupings_wellFormed (h : c.GroupsUnder base table input sets) :
    ∀ set ∈ sets, ∀ level ∈ set.levels, level.WellFormed c.schema table :=
  groupingsUnder_wellFormed h.compiled

/-- Tasks with a size, a time and a parent. -/
def backlog : Compiler :=
  ⟨⟨.ofList [("Task", ⟨.ofList [("Created", .scalar .timestamp), ("Parent", .link "Task"),
    ("Size", .scalar .integer)]⟩)]⟩, .standard ⟨0, 0, 0⟩⟩

/-- The two largest groups of the sizes of parents between boundaries, by month. -/
theorem groupings_wellFormed_sizes : ∃ sets set sizes months,
    backlog.GroupsUnder none "Task"
      "GROUP(TOP(2, Parent.Size.EXCLUDE(3).BATCH(1, 5, 10)), TRUNCATE(Created, MONTH))" sets ∧
    set ∈ sets ∧ set.levels = [sizes, months] ∧
    (sizes.batch.isSome = true ∧ sizes.selection.map (·.count) = some 2 ∧
      sizes.WellFormed backlog.schema "Task") ∧
    months.truncate.map (·.zone) = some "UTC" ∧ months.WellFormed backlog.schema "Task" := by
  have hrun : (backlog.groupings "Task"
      "GROUP(TOP(2, Parent.Size.EXCLUDE(3).BATCH(1, 5, 10)), TRUNCATE(Created, MONTH))"
      ).toOption.map (·.map (·.levels.map fun g =>
          (g.batch.isSome, g.selection.map (·.count), g.truncate.map (·.zone)))) =
      some [[(true, some 2, none), (false, none, some "UTC")]] := by decide +kernel
  obtain ⟨sets, hsets, hrun⟩ := Option.map_eq_some_iff.mp hrun
  have hunder : backlog.GroupsUnder none "Task"
      "GROUP(TOP(2, Parent.Size.EXCLUDE(3).BATCH(1, 5, 10)), TRUNCATE(Created, MONTH))" sets :=
    Or.inl ⟨toOption_eq_some hsets, rfl⟩
  obtain ⟨set, rfl, hset⟩ := List.map_eq_singleton_iff.mp hrun
  obtain ⟨sizes, _, hlevels, hsizes, hrest⟩ := List.map_eq_cons_iff.mp hset
  obtain ⟨months, rfl, hmonths⟩ := List.map_eq_singleton_iff.mp hrest
  simp only [Prod.mk.injEq] at hsizes hmonths
  have hwell := groupings_wellFormed hunder set List.mem_cons_self
  rw [hlevels] at hwell
  exact ⟨_, set, sizes, months, hunder, List.mem_cons_self, hlevels,
    ⟨hsizes.1, hsizes.2.1, hwell sizes (by simp)⟩, hmonths.2.2,
    hwell months (by simp)⟩

end Compiler

end LinkQuery
