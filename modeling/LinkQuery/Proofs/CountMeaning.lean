import LinkQuery.Proofs.GroupMeaning
import Mathlib.Data.List.Perm.Subperm
/-!
# What a count means

A count along a path without quantifiers asks for an object at the end of the path whose count is
one that the operator and the value ask for: the different stored objects that a link leads to and
that satisfy the filters of its segment, or the stored values of a field.

Main statements:
- `Filter.ofValue_admits`: the counts for an operator and a value.
- `Filter.segmentQuery_counts`: the tree of the segment whose objects or values are counted.
- `Compiler.count_term_means`: the compiled filter of a count.
-/
namespace LinkQuery

namespace View

variable {v : View} {o : Located}

/-- An object stands once among those behind a link. -/
theorem nodup_linked {name : String} {found : List Located} (h : v.linked o name = .ok found) :
    found.Nodup := by
  obtain ⟨links, -, h⟩ := bind_eq_ok h
  obtain rfl := Except.ok.inj h
  exact nodup_eraseDupsBy (fun a => by simp [Located.same]) _

theorem passing_sublist {test : Located → Except EvalError Bool} {objects found : List Located}
    (h : passing test objects = .ok found) : found.Sublist objects := by
  induction objects generalizing found with
  | nil =>
    rw [passing] at h
    obtain rfl := Except.ok.inj h
    exact List.Sublist.slnil
  | cons first rest ih =>
    rw [passing] at h
    obtain ⟨passes, -, h⟩ := bind_eq_ok h
    obtain ⟨others, hothers, h⟩ := bind_eq_ok h
    obtain rfl := Except.ok.inj h
    cases passes with
    | true => exact (ih hothers).cons_cons first
    | false => exact (ih hothers).cons first

/-- The objects behind a link that satisfy a filter, each once. -/
theorem filtered_targets (hstore : v.store.Keyed) {name : String} {filter : Option Query}
    (hlink : (v.schema.fieldKind o.table name).isLink = true) {F : Located → Prop}
    (hfilter : ∀ t, v.Follows name o t → v.Tells filter t (F t)) {behind targets : List Located}
    (hbehind : v.linked o name = .ok behind)
    (htargets : passing (v.holdsIfAny filter) behind = .ok targets) :
    targets.Nodup ∧ ∀ t, t ∈ targets ↔ v.Follows name o t ∧ F t := by
  obtain ⟨found, hfound, hmem⟩ := mem_linked hstore hlink
  obtain rfl : found = behind := Except.ok.inj (hfound.symm.trans hbehind)
  refine ⟨(passing_sublist htargets).nodup (nodup_linked hbehind), fun t => ?_⟩
  obtain ⟨htarget, hends⟩ := passing_ok htargets
  rw [htarget, hmem]
  refine and_congr_right fun ht => ?_
  obtain ⟨_, hf⟩ := hends t ((hmem t).mpr ht)
  exact (hfilter t ht).true_iff hf

end View

/-- A count compares with a number as the operator says; it contains none. -/
def CompareOp.Relates (op : CompareOp) (n k : Nat) : Prop :=
  match op with
  | .eq => n = k
  | .lt => n < k
  | .le => n ≤ k
  | .gt => k < n
  | .ge => k ≤ n
  | .contains => False

namespace Filter

open Query (Known namesIfAny)

/-! ## The counts that are asked for -/

/-- The count is one that an operator and a value, whose numbers have 64 bits, ask for. A bound
that is not given does not restrict it. -/
def AsksForCount (op : CompareOp) (n : Nat) : Value → Prop
  | .raw written => ∃ k, Text.unsigned? 64 written.asText = some k ∧ op.Relates n k
  | .interval range =>
    (∀ low, range.min = some low → ∃ k, Text.unsigned? 64 low.asText = some k ∧
      if range.minInclusive then k ≤ n else k < n) ∧
    ∀ high, range.max = some high → ∃ k, Text.unsigned? 64 high.asText = some k ∧
      if range.maxInclusive then n ≤ k else n < k

/-- The test of a count admits a count. -/
def CountTest.Admits (n : Nat) : CountTest → Prop
  | .exactly count => n = count
  | .within range => range.hasCount n = true

/-- A count lies in an interval if it keeps to each bound that is given. -/
theorem hasCount_iff {range : Interval Nat} {n : Nat} : range.hasCount n = true ↔
    (∀ low, range.min = some low → if range.minInclusive then low ≤ n else low < n) ∧
      ∀ high, range.max = some high → if range.maxInclusive then n ≤ high else n < high := by
  obtain ⟨min, max, minInclusive, maxInclusive⟩ := range
  rw [Interval.hasCount, Interval.contains, Bool.and_eq_true]
  refine and_congr ?_ ?_
  · cases min <;> cases minInclusive <;>
      simp [Interval.reachesMin, Nat.compare_eq_gt, Nat.compare_eq_lt, Nat.not_lt]
  · cases max <;> cases maxInclusive <;>
      simp [Interval.withinMax, Nat.compare_eq_gt, Nat.compare_eq_lt, Nat.not_lt]

theorem number_eq_ok {text : String} {k : Nat} (h : CountTest.number text = .ok k) :
    Text.unsigned? 64 text = some k := by
  unfold CountTest.number at h
  split at h
  · rename_i count hcount
    rw [hcount, Except.ok.inj h]
  · cases h

/-- The bounds of an interval of numbers are the numbers that are written. -/
theorem bound_iff {convert : RawValue → Except QueryError Nat} {P : Nat → Prop}
    {written : Option RawValue} {bound : Option Nat}
    (hconvert : ∀ value k, convert value = .ok k → Text.unsigned? 64 value.asText = some k)
    (h : written.mapM convert = .ok bound) :
    (∀ k, bound = some k → P k) ↔
      ∀ value, written = some value → ∃ k, Text.unsigned? 64 value.asText = some k ∧ P k := by
  cases written with
  | none =>
    obtain rfl := Except.ok.inj h
    simp
  | some value =>
    obtain ⟨k, hk, rfl⟩ := map_eq_ok h
    simp [hconvert value k hk]

/-- The test of a count by an operator and a value admits the counts that they ask for. -/
theorem ofValue_admits {op : CompareOp} {value : Value} {test : CountTest} {n : Nat}
    (h : CountTest.ofValue op value = .ok test) : test.Admits n ↔ AsksForCount op n value := by
  cases value with
  | raw written =>
    cases written with
    | number written =>
      obtain ⟨count, hcount, h⟩ := bind_eq_ok h
      have hasks : AsksForCount op n (.raw (.number written)) ↔ op.Relates n count := by
        simp [AsksForCount, RawValue.asText, number_eq_ok hcount]
      rw [hasks]
      cases op with
      | contains => cases h
      | eq =>
        obtain rfl := Except.ok.inj h
        exact Iff.rfl
      | lt | le | gt | ge =>
        obtain rfl := Except.ok.inj h
        simp [CountTest.Admits, hasCount_iff, CompareOp.Relates]
    | text written => cases h
    | instant written => cases h
  | interval range =>
    by_cases heq : op = .eq
    · rw [CountTest.ofValue, if_pos heq] at h
      obtain ⟨bounds, hbounds, rfl⟩ := map_eq_ok h
      obtain ⟨low, hlow, hbounds⟩ := bind_eq_ok hbounds
      obtain ⟨high, hhigh, hbounds⟩ := bind_eq_ok hbounds
      obtain rfl := Except.ok.inj hbounds
      have hnumber : ∀ (value : RawValue) k, CountTest.number value.asText = .ok k →
          Text.unsigned? 64 value.asText = some k := fun _ _ => number_eq_ok
      simp only [CountTest.Admits, hasCount_iff, AsksForCount]
      exact and_congr (bound_iff hnumber hlow) (bound_iff hnumber hhigh)
    · rw [CountTest.ofValue, if_neg heq] at h
      cases h

/-! ## The objects and values that are counted -/

section Counts

variable {scope : Scope} {store : Store} {nested : Nested} {table : String} {segment : Segment}
  {test : CountTest} {raw : Query}

/-- A link leads to so many different stored objects that satisfy the filters of the segment. -/
def LinksToSoMany (scope : Scope) (store : Store) (segment : Segment) (a : Located) (n : Nat) :
    Prop :=
  ∃ found : List Located, found.Nodup ∧ found.length = n ∧
    ∀ b, b ∈ found ↔ BehindLink scope store segment segment.name a b

/-- The segment counts so many: different objects behind a link, or stored values of a field. -/
def CountsTo (scope : Scope) (store : Store) (segment : Segment) (a : Located) (n : Nat) : Prop :=
  match scope.schema.fieldKind a.table segment.name with
  | .link => LinksToSoMany scope store segment a n
  | .crossLink => LinksToSoMany scope store segment a n
  | .scalar _ => (a.object.valuesOf segment.name).length = n
  | .multiValued _ => (a.object.valuesOf segment.name).length = n
  | .system => (a.object.valuesOf segment.name).length = n
  | _ => False

/-- Different lists of the same different objects are equally long. -/
theorem LinksToSoMany.unique {a : Located} {m n : Nat} (hm : LinksToSoMany scope store segment a m)
    (hn : LinksToSoMany scope store segment a n) : m = n := by
  obtain ⟨first, hfirst, rfl, hmem⟩ := hm
  obtain ⟨second, hsecond, rfl, hmem'⟩ := hn
  refine Nat.le_antisymm ?_ ?_
  · exact (List.subperm_of_subset hfirst fun b hb => (hmem' b).mpr ((hmem b).mp hb)).length_le
  · exact (List.subperm_of_subset hsecond fun b hb => (hmem b).mpr ((hmem' b).mp hb)).length_le

variable (hstore : store.Keyed) (hnested : nested.Agrees scope)

include hstore hnested

/-- A node that counts the objects behind a link asks for a count that it admits. -/
theorem countNode_means {target : String} {filter : Option Query} {node : Option Query → Query}
    {admits : Nat → Bool} (hlead : scope.schema.LeadsTo table segment.name target)
    (hfilter : allFilters nested target segment.filters = .ok filter)
    (hpromote : Query.promote scope.schema table (node filter) =
      (Query.traversalTarget scope.schema table segment.name >>= fun target =>
        node <$> Query.promoteIfAny scope.schema target filter))
    (hnames : ∀ f, (node f).names = segment.name :: namesIfAny f)
    (hholds : ∀ f o, (scope.view store).holds (node f) o =
      ((scope.view store).linked o segment.name >>= fun behind =>
        (fun targets => admits targets.length) <$>
          View.passing ((scope.view store).holdsIfAny f) behind)) :
    TreeMeans scope store table (node filter) fun o =>
      ∃ n, LinksToSoMany scope store segment o n ∧ admits n = true := by
  intro q hq hknown o _ htable c hc
  subst htable
  rw [hpromote, Query.traversalTarget_of_leadsTo hlead] at hq
  obtain ⟨_, hfound, hq⟩ := bind_eq_ok hq
  obtain rfl := Except.ok.inj hfound
  obtain ⟨f, hf, rfl⟩ := map_eq_ok hq
  rw [hnames] at hknown
  rw [View.holdsIfAny, hholds] at hc
  obtain ⟨behind, hbehind, hc⟩ := bind_eq_ok hc
  obtain ⟨targets, htargets, rfl⟩ := map_eq_ok hc
  obtain ⟨hnodup, hmem⟩ := View.filtered_targets hstore hlead.1
    (fun t ht => allFilters_tells hnested hfilter hf
      (fun name hname => hknown name (.tail _ hname)) (follows_table hlead.2 ht))
    hbehind htargets
  have hcount : LinksToSoMany scope store segment o targets.length := ⟨targets, hnodup, rfl, hmem⟩
  constructor
  · intro hadmits
    exact ⟨targets.length, hcount, hadmits⟩
  · intro hsome
    obtain ⟨n, hn, hadmits⟩ := hsome
    exact hn.unique hcount ▸ hadmits

/-- The tree of a counted link. -/
theorem linkQuery_counts {target : String} (hlead : scope.schema.LeadsTo table segment.name target)
    (hplain : segment.isQuantified = false)
    (h : linkQuery nested segment target none (.count test) = .ok raw) :
    TreeMeans scope store table raw fun o =>
      ∃ n, LinksToSoMany scope store segment o n ∧ test.Admits n := by
  obtain ⟨-, hasks⟩ := asksForExistence_of_plain hplain
  obtain ⟨filter, hfilter, h⟩ := bind_eq_ok h
  simp only [hasks.unconditioned] at h
  cases test with
  | exactly count =>
    obtain rfl := Except.ok.inj h
    have hmeans := @countNode_means _ _ _ _ _ hstore hnested _ _
      (Query.linkCount segment.name · .eq count) (· == count) hlead hfilter (by rw [Query.promote]; rfl)
      (fun f => Query.names_linkCount _ _ _ _) (fun f o => by rw [View.holds]; rfl)
    simpa only [beq_iff_eq, CountTest.Admits] using hmeans
  | within range =>
    obtain rfl := Except.ok.inj h
    exact @countNode_means _ _ _ _ _ hstore hnested _ _ (Query.linkCountRange segment.name · range)
      range.hasCount hlead hfilter (by rw [Query.promote]; rfl)
      (fun f => Query.names_linkCountRange _ _ _) (fun f o => by rw [View.holds]; rfl)

omit hstore hnested in
/-- The tree of the values of a field that are counted. -/
theorem leafQuery_counts {type : Option ScalarType} {several : Bool}
    (h : leafQuery type several segment (.count test) = .ok raw) :
    TreeMeans scope store table raw fun o =>
      test.Admits (o.object.valuesOf segment.name).length := by
  have hrestricted : ¬segment.isRestricted = true := by
    intro hrestricted
    rw [leafQuery, if_pos hrestricted] at h
    cases h
  rw [leafQuery, if_neg hrestricted] at h
  intro q hq _ o _ _ c hc
  rw [View.holdsIfAny] at hc
  cases test with
  | exactly count =>
    obtain rfl := Except.ok.inj h
    simp only [Query.promote] at hq
    obtain rfl := Except.ok.inj hq
    rw [View.holds] at hc
    rw [← Except.ok.inj hc, beq_iff_eq]
    exact Iff.rfl
  | within range =>
    obtain rfl := Except.ok.inj h
    simp only [Query.promote] at hq
    obtain rfl := Except.ok.inj hq
    rw [View.holds] at hc
    rw [← Except.ok.inj hc]
    exact Iff.rfl

/-- The tree of the last segment of a path asks for a count that is admitted. -/
theorem segmentQuery_counts (hplain : segment.isQuantified = false)
    (h : segmentQuery scope nested table segment none (.count test) = .ok raw) :
    TreeMeans scope store table raw fun o =>
      ∃ n, CountsTo scope store segment o n ∧ test.Admits n := by
  obtain ⟨role, hrole, h⟩ := bind_eq_ok h
  have hkind := Schema.role_kind (Schema.resolveSegment_yields.of_ok hrole).named
  have hmeans := (Schema.resolveSegment_yields.of_ok hrole).means
  have hlink : ∀ {target : String}, scope.schema.LeadsTo table segment.name target →
      anyLinkQuery nested segment target none (.count test) = .ok raw →
      TreeMeans scope store table raw fun o =>
        ∃ n, LinksToSoMany scope store segment o n ∧ test.Admits n := by
    intro target hlead h
    unfold anyLinkQuery at h
    split at h
    · -- A link that is followed repeatedly is not counted.
      obtain ⟨_, _, h⟩ := bind_eq_ok h
      obtain ⟨_, _, h⟩ := bind_eq_ok h
      obtain ⟨_, hend, _⟩ := bind_eq_ok h
      cases hend
    · exact linkQuery_counts hstore hnested hlead hplain h
  intro q hq hknown o ho htable
  subst htable
  simp only [CountsTo, ← hkind]
  cases role with
  | scalar type =>
    simp only [FieldRole.kind, exists_eq_left']
    exact leafQuery_counts h q hq hknown o ho rfl
  | multiValued type =>
    simp only [FieldRole.kind, exists_eq_left']
    exact leafQuery_counts h q hq hknown o ho rfl
  | system =>
    simp only [FieldRole.kind, exists_eq_left']
    exact leafQuery_counts h q hq hknown o ho rfl
  | link target => exact hlink hmeans h q hq hknown o ho rfl
  | crossLink target => exact hlink hmeans h q hq hknown o ho rfl
  | group target => cases h

/-- The tree of a counted path asks for a chain of objects to one whose count is admitted. -/
theorem countedTerm_means {path : Path} (hplain : ∀ s ∈ path.segments, s.isQuantified = false)
    (h : termQuery scope nested table path (.count test) = .ok raw) :
    TreeMeans scope store table raw fun o => ∃ e n,
      LeadsAlong scope store path.first path.rest o e ∧ CountsTo scope store path.last e n ∧
        test.Admits n := by
  rw [termQuery, if_neg (by simp)] at h
  have hmeans := chainQuery_ends hstore hnested hplain
    (fun _ _ _ hlast h => segmentQuery_counts hstore hnested hlast h) h
  simpa only [← exists_and_left] using hmeans

end Counts

/-! ## Logs of counts -/

theorem symbol_taken {t : Token} {text : String} {rest : List Element}
    (h : t.isSymbol text = true) : ElementReader.symbol text (.token t :: rest) = .ok ((), rest) := by
  show (if !t.isSymbol text then ElementReader.fail _ else Pure.pure () : ElementReader Unit) _ = _
  simp [h]
  rfl

section Logs

variable {scope : Scope} {opening closing sign : Token} {path : Path} {op : CompareOp}
  {value : Value} {behind : List Element}

theorem countedPath_taken (hopening : opening.isSymbol "(" = true)
    (hclosing : closing.isSymbol ")" = true) :
    countedPath (.token opening :: .path path :: .token closing :: behind) = .ok (path, behind) := by
  show (ElementReader.symbol "(" _ >>= _) = _
  rw [symbol_taken hopening]
  show (ElementReader.symbol ")" _ >>= _) = _
  rw [symbol_taken hclosing]
  rfl

theorem countTest_taken (hsign : CompareOp.ofSymbol? sign.value = some op)
    (hvalue : Value.read scope.clock behind = .ok (value, [])) :
    CountTest.read scope.clock (.token sign :: behind) =
      (CountTest.ofValue op value).map fun test => (test, []) := by
  have hread : CountTest.read scope.clock (.token sign :: behind) =
      (Value.read scope.clock >>= fun value => ElementReader.lift (CountTest.ofValue op value))
        behind := by
    have hnext : ∀ k : Token → ElementReader CountTest,
        (ElementReader.nextToken >>= k) (.token sign :: behind) = k sign behind := fun _ => rfl
    unfold CountTest.read
    rw [hnext, hsign]
  rw [hread]
  show (Value.read scope.clock behind >>= _) = _
  rw [hvalue]
  rfl

/-- The log of a single count builds the tree of its path with the test of its operator and its
value. -/
theorem buildWith_count {nested : Nested} {table : String} {tokens : List Token} {word : Token}
    (helements : Element.ofTokens .filter tokens = .ok (.token word :: .token opening ::
      .path path :: .token closing :: .token sign :: behind))
    (hword : word.isKeyword "COUNT" = true) (hopening : opening.isSymbol "(" = true)
    (hclosing : closing.isSymbol ")" = true) (hsign : CompareOp.ofSymbol? sign.value = some op)
    (hvalue : Value.read scope.clock behind = .ok (value, [])) :
    buildWith scope nested table tokens =
      (CountTest.ofValue op value >>= fun test => termQuery scope nested table path (.count test)) := by
  obtain ⟨kind, text, position⟩ := word
  obtain ⟨rfl, rfl⟩ : kind = .keyword ∧ text = "COUNT" := by simpa [Token.isKeyword] using hword
  refine buildWith_single helements rfl ?_
  show (countedPath _ >>= _) = _
  rw [countedPath_taken hopening hclosing]
  show (CountTest.read scope.clock _ >>= _) = _
  rw [countTest_taken hsign hvalue]
  cases CountTest.ofValue op value <;> rfl

end Logs

end Filter

namespace Compiler

open Filter

/-- The path, the operator and the value of an expression that is a single count. -/
def countTerm? (c : Compiler) (scope : Scope) (input : String) :
    Option (Path × CompareOp × Value) :=
  match c.log .filter input with
  | .error _ => none
  | .ok tokens =>
    match Element.ofTokens .filter tokens with
    | .ok (.token word :: .token opening :: .path path :: .token closing :: .token sign :: behind) =>
      if word.isKeyword "COUNT" && opening.isSymbol "(" && closing.isSymbol ")" then
        match CompareOp.ofSymbol? sign.value, Value.read scope.clock behind with
        | some op, .ok (value, []) => some (path, op, value)
        | _, _ => none
      else none
    | _ => none

variable {c : Compiler} {scope : Scope} {table input : String} {path : Path} {op : CompareOp}
  {value : Value} {store : Store}

/-- The log of a count builds the tree of its path with its test. -/
theorem buildWith_countTerm {tokens : List Token} {nested : Nested}
    (hterm : c.countTerm? scope input = some (path, op, value))
    (hlog : c.log .filter input = .ok tokens) : buildWith scope nested table tokens =
      (CountTest.ofValue op value >>= fun test =>
        termQuery scope nested table path (.count test)) := by
  rw [countTerm?, hlog] at hterm
  dsimp only at hterm
  split at hterm
  · rename_i helements
    split at hterm
    · rename_i hwords
      simp only [Bool.and_eq_true] at hwords
      split at hterm
      · rename_i hsign hvalue
        obtain ⟨rfl, rfl, rfl⟩ : _ = path ∧ _ = op ∧ _ = value := by simpa using hterm
        exact buildWith_count helements hwords.1.1 hwords.1.2 hwords.2 hsign hvalue
      · cases hterm
    · cases hterm
  · cases hterm

/--
The compiled filter of a count along a path without quantifiers holds of a stored object, where its
evaluation comes to an end, exactly if the segments lead from the object through stored objects to
one whose count is one that the operator and the value ask for.
-/
theorem count_term_means {q : Query} {o : StoredObject} {b : Bool} (hscope : c.scope = .ok scope)
    (hterm : c.countTerm? scope input = some (path, op, value))
    (hplain : ∀ segment ∈ path.segments, segment.isQuantified = false)
    (hcompile : c.filter table input = .ok (some q)) (hstore : store.Keyed)
    (ho : store.find? table o.id = some o)
    (hholds : View.holds ⟨c.schema, store⟩ q ⟨table, o⟩ = .ok b) :
    b = true ↔ ∃ e n, LeadsAlong scope store path.first path.rest ⟨table, o⟩ e ∧
      CountsTo scope store path.last e n ∧ AsksForCount op n value := by
  have hschema : scope.schema = c.schema := c.scope_yields.of_ok hscope
  obtain ⟨tokens, scope', raw, hlog, -, hscope', hraw, hsettled⟩ := filter_eq_ok hcompile
  obtain rfl : scope = scope' := Except.ok.inj (hscope.symm.trans hscope')
  obtain ⟨hpromote, hknown⟩ := Query.settle_eq_ok_iff.mp hsettled
  rw [buildIn, buildWith_countTerm hterm hlog] at hraw
  obtain ⟨test, htest, hraw⟩ := bind_eq_ok hraw
  have hmeans := countedTerm_means hstore (shorter_agrees scope tokens.length) hplain hraw q
    (hschema ▸ hpromote) hknown ⟨table, o⟩ ho rfl b (by
      rw [View.holdsIfAny, Scope.view, hschema]
      exact hholds)
  simpa only [ofValue_admits htest] using hmeans

/-- A person who names one boss twice and one who is not stored. -/
def carol : StoredObject :=
  ⟨"c", .empty, .ofList [("Boss", ["a", "b", "a", "x"])]⟩

/-- Two of the bosses that carol names are different stored persons. -/
theorem count_term_means_bosses : ∃ scope path op value, staff.scope = .ok scope ∧
    staff.countTerm? scope "COUNT(Boss) = 2" = some (path, op, value) ∧
    ∃ e n, LeadsAlong scope (staffStore.insert "Person" carol) path.first path.rest
        ⟨"Person", carol⟩ e ∧
      CountsTo scope (staffStore.insert "Person" carol) path.last e n ∧
      AsksForCount op n value := by
  have hread : (staff.scope.toOption.bind fun scope =>
      (staff.countTerm? scope "COUNT(Boss) = 2").map fun term =>
        term.1.segments.all (!·.isQuantified)) = some true := by decide +kernel
  have hrun : (staff.filter "Person" "COUNT(Boss) = 2").toOption.bind (·.bind fun q =>
      (View.holds ⟨staff.schema, staffStore.insert "Person" carol⟩ q
        ⟨"Person", carol⟩).toOption) = some true := by decide +kernel
  obtain ⟨scope, hscope, hread⟩ := Option.bind_eq_some_iff.mp hread
  obtain ⟨⟨path, op, value⟩, hterm, hplain⟩ := Option.map_eq_some_iff.mp hread
  obtain ⟨found, hcompile, hrun⟩ := Option.bind_eq_some_iff.mp hrun
  obtain ⟨q, rfl, hholds⟩ := Option.bind_eq_some_iff.mp hrun
  simp only [List.all_eq_true, Bool.not_eq_true'] at hplain
  have hscope := toOption_eq_some hscope
  have hkeyed : (staffStore.insert "Person" carol).Keyed :=
    ((Store.keyed_empty.insert _ _).insert _ _).insert _ _
  have hstored : (staffStore.insert "Person" carol).find? "Person" carol.id = some carol :=
    Store.find?_insert_self _ _ carol
  exact ⟨scope, path, op, value, hscope, hterm,
    (count_term_means hscope hterm hplain (toOption_eq_some hcompile) hkeyed hstored
      (toOption_eq_some hholds)).mp rfl⟩

end Compiler

end LinkQuery
