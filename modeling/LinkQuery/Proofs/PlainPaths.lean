import LinkQuery.Proofs.PathChecks
import LinkQuery.Proofs.PathOperators
import LinkQuery.Proofs.PathUses
/-!
# Paths that are reduced to names

Groupings, metrics, differences between instants and sort keys keep only the names of a path, so
they refuse a path with a quantifier, a quantified condition or a link that is followed repeatedly.
Distinct counts and path operators keep only the names as well, but refuse filters and conditions
only: other quantifiers and the marks of repeated links are dropped.

Main statements:
- `Compiler.decorations_refused_or_dropped`: the paths of accepted expressions.
- `Compiler.decorated_paths_accepted`: a distinct count along a link that is followed repeatedly.
-/
namespace LinkQuery

/-! ## Plain paths -/

/-- No segment carries a quantifier or a quantified condition, or is followed repeatedly. -/
def Path.IsPlain (p : Path) : Prop :=
  ∀ s ∈ p.segments, s.isQuantified = false ∧ s.transitive = false

theorem Path.isPlain_of_required {α : Type} {p : Path} {use : Use} {k : Unit → Except QueryError α}
    {a : α} (h : (p.requirePlain use >>= k) = .ok a) : p.IsPlain := by
  obtain ⟨⟨⟩, hplain, -⟩ := bind_eq_ok h
  exact requirePlain_yields.of_ok hplain

instance : DecidablePred Path.IsPlain := fun p =>
  inferInstanceAs (Decidable (∀ s ∈ p.segments, s.isQuantified = false ∧ s.transitive = false))

/-! ## Groupings -/

namespace Grouping

open ElementReader LinkQuery.Filter

variable {P : Path → Prop} {scope : Scope} {base : Option Query} {table : String}

theorem ofPath_demands (p : Path) :
    Demands p.IsPlain (ElementReader.lift (ofPath scope base table p)) :=
  .lift fun _ h => Path.isPlain_of_required h

theorem modifierValue_checks (clock : Clock) : Checks P (modifierValue clock) :=
  (Value.read_checks clock).bind fun value => by
    cases value with
    | raw value => exact .pure _
    | interval range =>
      dsimp only
      split
      · exact .pure _
      · exact .fail _

theorem modifiers_checks (clock : Clock) (g : Grouping) : Checks P (modifiers clock g) :=
  Checks.loop (fun g => (Checks.tokenIf? _).bind fun keyword => by
    cases keyword with
    | none => exact .pure _
    | some keyword =>
      exact (Checks.symbol "(").bind fun _ =>
        (Checks.itemsUntil ")" (modifierValue_checks clock)).bind fun _ =>
          (Checks.lift _).bind fun _ => .pure _) g

theorem truncation_checks : Checks Path.IsPlain (truncation scope base table) :=
  (Checks.symbol "(").bind fun _ => checks_path (fun p => (ofPath_demands p).bind) fun p =>
    (Checks.lift _).bind fun g => (Checks.lift _).bind fun _ => (Checks.symbol ",").bind fun _ =>
      Checks.nextToken.bind fun _ => (Checks.lift _).bind fun unit => by
        have hclose (zone : String) : Checks Path.IsPlain (do
            symbol ")"
            return { g with truncate := some ⟨unit, zone⟩ }) :=
          (Checks.symbol ")").bind fun _ => .pure _
        refine (Checks.symbolIf ",").bind fun named => ?_
        cases named
        · exact hclose scope.clock.zoneName
        · exact Checks.nextToken.bind fun _ => (Checks.lift _).bind fun _ => hclose _

theorem wordsToClose_checks : Checks P wordsToClose :=
  Checks.loop (fun words => (Checks.symbolIf ")").bind fun closed => by
    cases closed
    · exact Checks.nextToken.bind fun _ => .pure _
    · exact .pure _) []

theorem termsOf_checks : Checks Path.IsPlain (termsOf scope base table) :=
  (Checks.symbol "(").bind fun _ => checks_path (fun p => (ofPath_demands p).bind) fun p =>
    (Checks.lift _).bind fun g => (Checks.lift _).bind fun _ => (Checks.symbolIf ",").bind fun more => by
      have hclose (words : List String) : Checks Path.IsPlain (do
          symbol ")"
          return { g with terms := true, stopWords := words }) :=
        (Checks.symbol ")").bind fun _ => .pure _
      cases more
      · exact hclose []
      · exact (Checks.symbol "(").bind fun _ => wordsToClose_checks.bind hclose

theorem baseItem_checks : Checks Path.IsPlain (baseItem scope base table) :=
  checks_peek (Checks.fail _ _)
    (fun p es => checksAt_skip_path (ofPath_demands p).bind
      ((Checks.lift _).bind fun g => modifiers_checks scope.clock g))
    fun t es => checksAt_skip_token.bind fun _ => by
      split
      · exact truncation_checks
      · exact termsOf_checks
      · exact .fail _

theorem selectionCount_checks (keyword : String) : Checks P (selectionCount keyword) :=
  (Checks.symbol "(").bind fun _ => Checks.nextToken.bind fun _ => by
    split
    · exact .refuse _
    · exact .refuse _
    · exact (Checks.symbol ",").bind fun _ => .pure _

theorem selections_checks : Checks P selections :=
  Checks.loop (fun found => checksAt_peek_token (.pure _) fun t es => by
    dsimp only
    split
    · exact Checks.pure _ _
    · exact checksAt_skip_token.bind fun _ => (selectionCount_checks _).bind fun _ => .pure _) []

theorem closeSelections_checks (g : Grouping) (enclosing : List Selection) :
    Checks P (closeSelections g enclosing) := by
  induction enclosing generalizing g with
  | nil => exact .pure g
  | cons selection outer ih =>
    exact (Checks.symbol ")").bind fun _ => by
      split
      · exact .refuse _
      · exact ih _

theorem item_checks : Checks Path.IsPlain (item scope base table) :=
  selections_checks.bind fun enclosing => baseItem_checks.bind fun g =>
    closeSelections_checks g enclosing

theorem groupLevels_checks {r : ElementReader Grouping} (h : Checks P r) :
    Checks P (groupLevels r) :=
  (Checks.symbol "(").bind fun _ =>
    (Checks.loop (fun levels => h.bind fun g => (Checks.symbolIf ",").bind fun more => by
      cases more <;> exact .pure _) []).bind fun _ => (Checks.symbol ")").bind fun _ => .pure _

theorem setOrLevel_checks {r : ElementReader Grouping} (h : Checks P r) (s : Sets) :
    Checks P (setOrLevel r s) :=
  (Checks.keywordIf "GROUP").bind fun grouped => by
    have hclose (s : Sets) : Checks P (do
        separator .groupingSeparator
        return s) := (Checks.separator _).bind fun _ => .pure _
    cases grouped
    · exact h.bind fun g => hclose _
    · exact (groupLevels_checks h).bind fun levels => hclose _

/-- The paths of a log that grouping sets are built from are plain. -/
theorem build_plain {tokens : List Token} {sets : List GroupingSet} {es : List Element}
    (h : build scope base table tokens = .ok sets) (hes : Element.ofTokens .list tokens = .ok es) :
    Element.EachPath Path.IsPlain es := by
  obtain ⟨s, hrun, -⟩ := bind_eq_ok h
  exact (Checks.untilEnd (setOrLevel_checks item_checks) _).run (fun _ _ _ => untilEnd_rest) hrun hes

end Grouping

/-! ## Metrics -/

namespace Metric

open ElementReader LinkQuery.Filter

variable {scope : Scope} {table : String}

/-- Paths that stand for something are plain. -/
theorem Uses.plain {uses : List PathUse} {ps : List Path} (h : Uses scope table uses ps) :
    ∀ p ∈ ps, p.IsPlain := by
  induction h with
  | nil => simp
  | @cons place path uses ps hread _ ih =>
    refine List.forall_mem_cons.mpr ⟨?_, ih⟩
    cases place with
    | call c =>
      obtain ⟨function, keyword, hpath⟩ := hread
      exact Path.isPlain_of_required hpath
    | field names => exact Path.isPlain_of_required hread

/-- The paths of a log that metrics are built from are plain. -/
theorem build_plain {tokens : List Token} {metrics : List MetricExpr} {es : List Element}
    (h : build scope table tokens = .ok metrics) (hes : Element.ofTokens .list tokens = .ok es) :
    Element.EachPath Path.IsPlain es := by
  obtain ⟨found, hfound, huses⟩ := build_uses h
  obtain rfl : es = found := Except.ok.inj (hes.symm.trans hfound)
  exact fun p hp => huses.plain p (Element.mem_paths.mpr hp)

/-- The paths of a log that a statistic is built from are plain. -/
theorem statistic_plain {tokens : List Token} {found : MetricCall} {es : List Element}
    (h : run (statistic scope table) .list tokens = .ok found)
    (hes : Element.ofTokens .list tokens = .ok es) : Element.EachPath Path.IsPlain es := by
  obtain ⟨found, hfound, huses⟩ := statistic_uses h
  obtain rfl : es = found := Except.ok.inj (hes.symm.trans hfound)
  exact fun p hp => huses.plain p (Element.mem_paths.mpr hp)

end Metric

/-! ## Sort orders -/

namespace SortOrder

open ElementReader

variable {schema : Schema} {table : String}

theorem keyPath_demands (p : Path) :
    Demands p.IsPlain (ElementReader.lift (keyPath schema table p)) :=
  .lift fun _ h => Path.isPlain_of_required h

theorem direction_checks {P : Path → Prop} : Checks P direction :=
  (Checks.keywordIf "DESC").bind fun descending => by
    cases descending
    · exact (Checks.keywordIf "ASC").bind fun _ => .pure _
    · exact .pure _

theorem key_checks (earlier : List SortKey) : Checks Path.IsPlain (key schema table earlier) :=
  checks_path (fun p => (keyPath_demands p).bind) fun _ => (Checks.lift _).bind fun _ =>
    direction_checks.bind fun _ => (Checks.separator _).bind fun _ => .pure _

/-- The paths of a log that sort keys are read from are plain. -/
theorem keys_plain {tokens : List Token} {keys : List SortKey} {es : List Element}
    (h : run (untilEnd (key schema table) []) .list tokens = .ok keys)
    (hes : Element.ofTokens .list tokens = .ok es) : Element.EachPath Path.IsPlain es :=
  (Checks.untilEnd key_checks []).run (fun _ _ _ => untilEnd_rest) h hes

end SortOrder

/-! ## Dropped decorations -/

/-- The name of the segment and nothing more. -/
def Segment.stripped (s : Segment) : Segment :=
  .named s.name s.position

/-- The names of the path and nothing more. -/
def Path.stripped (p : Path) : Path :=
  ⟨p.first.stripped, p.rest.map Segment.stripped⟩

/-- The names of the resolved path, with their roles. -/
def ResolvedPath.stripped (p : ResolvedPath) : ResolvedPath :=
  ⟨p.through.map fun s => { s with segment := s.segment.stripped },
    { p.leaf with segment := p.leaf.segment.stripped }⟩

theorem ResolvedPath.names_stripped (p : ResolvedPath) : p.stripped.names = p.names := by
  simp [names, segments, stripped, ResolvedSegment.name, Segment.stripped, Segment.named]

theorem Path.isRestricted_stripped (p : Path) : p.stripped.isRestricted = false := by
  simp [isRestricted, segments, stripped, Segment.isRestricted, Segment.stripped, Segment.named]

namespace Schema

variable {s : Schema} {table : String}

theorem resolveSegment_stripped {segment : Segment} {followed : Bool} {role : FieldRole}
    (h : s.resolveSegment table segment followed = .ok role) :
    s.resolveSegment table segment.stripped followed = .ok role := by
  obtain ⟨hrole, -, -, hleads⟩ := resolveSegment_yields.of_ok h
  have hfollowed : ¬(followed && role.target?.isNone) = true := by
    cases followed with
    | false => simp
    | true => simpa [Option.isSome_iff_ne_none] using hleads rfl
  unfold resolveSegment
  show (s.role table segment.name >>= _) = _
  rw [hrole]
  simp only [Segment.stripped, Segment.named]
  exact if_neg hfollowed

/-- Where a path resolves, its names do so without what decorates them. -/
theorem resolveFrom_stripped {rest : List Segment} {segment : Segment} {resolved : ResolvedPath}
    (h : s.resolveFrom table segment rest = .ok resolved) :
    s.resolveFrom table segment.stripped (rest.map Segment.stripped) = .ok resolved.stripped := by
  induction rest generalizing table segment resolved with
  | nil =>
    obtain ⟨role, hrole, h⟩ := bind_eq_ok h
    obtain rfl := Except.ok.inj h
    rw [List.map_nil, resolveFrom, resolveSegment_stripped hrole]
    rfl
  | cons next rest ih =>
    obtain ⟨role, hrole, h⟩ := bind_eq_ok h
    obtain ⟨behind, hbehind, h⟩ := bind_eq_ok h
    obtain rfl := Except.ok.inj h
    rw [List.map_cons, resolveFrom, resolveSegment_stripped hrole]
    show (s.resolveFrom (role.target?.getD table) next.stripped (rest.map _) >>= _) = _
    rw [ih hbehind]
    rfl

end Schema

namespace Filter

variable {schema : Schema} {table : String} {q : Query}

/-- A distinct count has no filters and conditions along its path, and is the same without what else
decorates the path. -/
theorem distinctCount_stripped {path : Path} {count : CountTest}
    (h : distinctCount schema table path count = .ok q) :
    path.isRestricted = false ∧ distinctCount schema table path.stripped count = .ok q := by
  obtain ⟨hrestricted, resolved, hresolved, hlinks, rfl⟩ := distinctCount_eq_ok_iff.mp h
  refine ⟨hrestricted, distinctCount_eq_ok_iff.mpr ⟨path.isRestricted_stripped,
    resolved.stripped, Schema.resolveFrom_stripped hresolved, ?_, ?_⟩⟩
  · simpa [ResolvedPath.segments, ResolvedPath.stripped, Function.comp_def] using hlinks
  · rw [resolved.names_stripped]

theorem comparedPath_stripped {op : PathOp} {path : Path} {names : List String}
    (h : comparedPath schema table op path = .ok names) :
    path.isRestricted = false ∧ comparedPath schema table op path.stripped = .ok names := by
  obtain ⟨hrestricted, resolved, hresolved, rfl⟩ := comparedPath_eq_ok_iff.mp h
  exact ⟨hrestricted, comparedPath_eq_ok_iff.mpr ⟨path.isRestricted_stripped,
    resolved.stripped, Schema.resolveFrom_stripped hresolved, resolved.names_stripped.symm⟩⟩

/-- A comparison of paths has no filters and conditions along them, and is the same without what
else decorates them. -/
theorem pathComparison_stripped {op : PathOp} {left right : Path}
    (h : pathComparison schema table op left right = .ok q) :
    left.isRestricted = false ∧ right.isRestricted = false ∧
      pathComparison schema table op left.stripped right.stripped = .ok q := by
  obtain ⟨names, hnames, h⟩ := bind_eq_ok h
  obtain ⟨names', hnames', h⟩ := bind_eq_ok h
  obtain ⟨hleft, hnames⟩ := comparedPath_stripped hnames
  obtain ⟨hright, hnames'⟩ := comparedPath_stripped hnames'
  refine ⟨hleft, hright, ?_⟩
  unfold pathComparison
  rw [hnames, hnames']
  exact h

end Filter

namespace Compiler

variable {c : Compiler} {table input : String}

/-- The paths of an expression that is a list are plain, those inside of filters left aside. -/
def HasPlainPaths (c : Compiler) (kind : ExpressionKind) (input : String) : Prop :=
  ∀ tokens es, c.log kind input = .ok tokens → Element.ofTokens .list tokens = .ok es →
    Element.EachPath Path.IsPlain es

theorem eachPath_of_empty {P : Path → Prop} {tokens : List Token} {es : List Element}
    (hempty : tokens.isEmpty = true) (hes : Element.ofTokens .list tokens = .ok es) :
    Element.EachPath P es := by
  have hnone : Element.ofTokens .list [] = .ok [] := by
    rw [Element.ofTokens, Element.collect]
    rfl
  rw [List.isEmpty_iff.mp hempty, hnone] at hes
  intro p hp
  rw [← Except.ok.inj hes] at hp
  cases hp

theorem hasPlainPaths_of_log {α : Type} {kind : ExpressionKind} {a : α}
    {k : List Token → Except QueryError α} (h : (c.log kind input >>= k) = .ok a)
    (hk : ∀ tokens es, k tokens = .ok a → Element.ofTokens .list tokens = .ok es →
      Element.EachPath Path.IsPlain es) : c.HasPlainPaths kind input := by
  intro tokens es hlog hes
  obtain ⟨tokens', hlog', h⟩ := bind_eq_ok h
  obtain rfl : tokens = tokens' := Except.ok.inj (hlog.symm.trans hlog')
  exact hk tokens es h hes

theorem groupings_plain {base : Option Query} {sets : List GroupingSet}
    (h : c.groupingsUnder base table input = .ok sets) :
    c.HasPlainPaths .aggregationGroup input := by
  refine hasPlainPaths_of_log h fun tokens es h hes => ?_
  obtain ⟨raw, hraw, -⟩ := bind_eq_ok h
  obtain ⟨scope, -, hraw⟩ := bind_eq_ok hraw
  exact Grouping.build_plain hraw hes

theorem metrics_plain {found : List MetricExpr} (h : c.metrics table input = .ok found) :
    c.HasPlainPaths .aggregationMetric input := by
  refine hasPlainPaths_of_log h fun tokens es h hes => ?_
  obtain ⟨raw, hraw, -⟩ := bind_eq_ok h
  obtain ⟨scope, -, hraw⟩ := bind_eq_ok hraw
  exact Metric.build_plain hraw hes

theorem statistic_plain {found : Option MetricCall} (h : c.statistic table input = .ok found) :
    c.HasPlainPaths .statisticMetric input := by
  refine hasPlainPaths_of_log h fun tokens es h hes => ?_
  obtain ⟨raw, hraw, -⟩ := bind_eq_ok h
  obtain ⟨scope, -, hraw⟩ := bind_eq_ok hraw
  unfold Metric.buildStatistic at hraw
  split at hraw
  · exact eachPath_of_empty ‹_› hes
  · obtain ⟨call, hcall, -⟩ := map_eq_ok hraw
    exact Metric.statistic_plain hcall hes

theorem sortOrder_plain {found : Option SortOrder} (h : c.sortOrder table input = .ok found) :
    c.HasPlainPaths .sortOrder input := by
  refine hasPlainPaths_of_log h fun tokens es h hes => ?_
  unfold SortOrder.build at h
  split at h
  · exact eachPath_of_empty ‹_› hes
  · obtain ⟨keys, hkeys, -⟩ := bind_eq_ok h
    exact SortOrder.keys_plain hkeys hes

/--
The constructs that keep the names of a path: all paths of accepted groupings, metrics, statistics
and sort orders are plain. A distinct count and a path operator accept no filters and conditions
along their paths, but drop quantifiers and the marks of repeated links.
-/
theorem decorations_refused_or_dropped (c : Compiler) (table : String) :
    (∀ input base sets, c.groupingsUnder base table input = .ok sets →
      c.HasPlainPaths .aggregationGroup input) ∧
    (∀ input found, c.metrics table input = .ok found →
      c.HasPlainPaths .aggregationMetric input) ∧
    (∀ input found, c.statistic table input = .ok found →
      c.HasPlainPaths .statisticMetric input) ∧
    (∀ input found, c.sortOrder table input = .ok found → c.HasPlainPaths .sortOrder input) ∧
    (∀ path count q, Filter.distinctCount c.schema table path count = .ok q →
      path.isRestricted = false ∧
        Filter.distinctCount c.schema table path.stripped count = .ok q) ∧
    ∀ op left right q, Filter.pathComparison c.schema table op left right = .ok q →
      left.isRestricted = false ∧ right.isRestricted = false ∧
        Filter.pathComparison c.schema table op left.stripped right.stripped = .ok q :=
  ⟨fun _ _ _ => groupings_plain, fun _ _ => metrics_plain, fun _ _ => statistic_plain,
    fun _ _ => sortOrder_plain, fun _ _ _ => Filter.distinctCount_stripped,
    fun _ _ _ _ => Filter.pathComparison_stripped⟩

/-- The names of bosses, and of theirs. -/
def namesOfBosses : Path :=
  ⟨(Segment.named "Boss" 0).repeated none, [Segment.named "Name" 0]⟩

/-- Persons are sorted along a plain path, and a distinct count drops the mark of a repeated link. -/
theorem decorations_refused_or_dropped_names :
    (∃ found, staff.sortOrder "Person" "Boss.Name DESC" = .ok found ∧
      staff.HasPlainPaths .sortOrder "Boss.Name DESC") ∧
    ∃ q, Filter.distinctCount staff.schema "Person" namesOfBosses (.exactly 1) = .ok q ∧
      Filter.distinctCount staff.schema "Person" namesOfBosses.stripped (.exactly 1) = .ok q := by
  have hsort : (staff.sortOrder "Person" "Boss.Name DESC").toOption.isSome = true := by
    decide +kernel
  obtain ⟨found, hfound⟩ := Option.isSome_iff_exists.mp hsort
  have hfound := toOption_eq_some hfound
  have hcount : (Filter.distinctCount staff.schema "Person" namesOfBosses
      (.exactly 1)).toOption.isSome = true := by decide +kernel
  obtain ⟨q, hq⟩ := Option.isSome_iff_exists.mp hcount
  have hq := toOption_eq_some hq
  obtain ⟨-, -, -, hplain, hcounted, -⟩ := decorations_refused_or_dropped staff "Person"
  exact ⟨⟨found, hfound, hplain _ _ hfound⟩, q, hq, (hcounted _ _ _ hq).2⟩

/-- The test is a distinct count along a path that is not plain. -/
def countsDecorated : PathTest → Bool
  | .count path _ _ => !decide path.IsPlain
  | _ => false

/-- The test is a comparison of a path that is not plain with another. -/
def comparesDecorated : PathTest → Bool
  | .compare _ left _ => !decide left.IsPlain
  | _ => false

/-- A distinct count is accepted along a link that is followed repeatedly, and a path operator along
a quantified one; nothing of this is left in the tree of the count. -/
theorem decorated_paths_accepted : ∃ scope, staff.scope = .ok scope ∧
    (∃ path op value q,
      staff.pathTest? scope "DCOUNT(Boss^.Name) = 1" = some (.count path op value) ∧
      ¬path.IsPlain ∧ staff.filter "Person" "DCOUNT(Boss^.Name) = 1" = .ok (some q) ∧
      countsBossNames q = true) ∧
    ∃ op left right q,
      staff.pathTest? scope "EQUALS(ALL(Boss), Boss)" = some (.compare op left right) ∧
      ¬left.IsPlain ∧ staff.filter "Person" "EQUALS(ALL(Boss), Boss)" = .ok (some q) := by
  have hread : (staff.scope.toOption.map fun scope =>
      (staff.pathTest? scope "DCOUNT(Boss^.Name) = 1").any countsDecorated &&
        (staff.pathTest? scope "EQUALS(ALL(Boss), Boss)").any comparesDecorated) = some true := by
    decide +kernel
  have hcount : (staff.filter "Person" "DCOUNT(Boss^.Name) = 1").toOption.bind
      (·.map countsBossNames) = some true := by decide +kernel
  have hequals : ((staff.filter "Person" "EQUALS(ALL(Boss), Boss)").toOption.bind id).isSome =
      true := by decide +kernel
  obtain ⟨scope, hscope, hread⟩ := Option.map_eq_some_iff.mp hread
  obtain ⟨found, hcompile, hcount⟩ := Option.bind_eq_some_iff.mp hcount
  obtain ⟨q, rfl, hnames⟩ := Option.map_eq_some_iff.mp hcount
  obtain ⟨q', hequals⟩ := Option.isSome_iff_exists.mp hequals
  obtain ⟨found, hcompile', rfl⟩ := Option.bind_eq_some_iff.mp hequals
  rw [Bool.and_eq_true, Option.any_eq_true, Option.any_eq_true] at hread
  obtain ⟨⟨counted, hcounted, hmark⟩, compared, hcompared, hquantifier⟩ := hread
  refine ⟨scope, toOption_eq_some hscope, ?_, ?_⟩
  · cases counted with
    | compare => cases hmark
    | count path op value =>
      exact ⟨path, op, value, q, hcounted, by simpa [countsDecorated] using hmark,
        toOption_eq_some hcompile, hnames⟩
  · cases compared with
    | count => cases hquantifier
    | compare op left right =>
      exact ⟨op, left, right, q', hcompared, by simpa [comparesDecorated] using hquantifier,
        toOption_eq_some hcompile'⟩

end Compiler

end LinkQuery
