import LinkQuery.Proofs.CountMeaning
import LinkQuery.Proofs.GroupingFilters
import LinkQuery.Proofs.ValueSets
import Mathlib.Data.Set.Card
/-!
# What path operators mean

A path operator compares the sets of data at the ends of two paths, and a distinct count asks for
the size of such a set. The evaluator works on lists, and reads what a name is off the first of the
objects that it stands at. Where the links of each group share a target, these objects are of one
table, so that the name is the same for all of them, and no datum is listed twice.

Main statements:
- `View.pathValues_along`: the list at the end of a path is the set of data there.
- `Compiler.path_operators_compare_sets`: path operators and distinct counts in compiled filters.
-/
namespace LinkQuery

/-! ## The ends of paths -/

/-- The name is a link or a group, which leads to other objects. -/
def Schema.Leads (s : Schema) (table name : String) : Prop :=
  (s.fieldKind table name).isLink = true ∨ s.fieldKind table name = .group

namespace View

/-- One of the links that a name stands for leads from an object to a stored object. -/
def FollowsName (v : View) (name : String) (a b : Located) : Prop :=
  ∃ link ∈ v.schema.followed a.table name, v.Follows link a b

/-- A chain of links along a path leads from an object to a datum: to the identity of an object where
the path ends on a link or a group, and else to a value that is stored under its last name. -/
inductive EndsAt (v : View) : List String → Located → Datum → Prop
  | identity {name : String} {a b : Located} (h : v.FollowsName name a b) :
    EndsAt v [name] a (.text b.object.id)
  | value {name : String} {a : Located} {value : Literal}
    (hname : ¬v.schema.Leads a.table name) (h : value ∈ a.object.valuesOf name) :
    EndsAt v [name] a value.datum
  | step {name next : String} {rest : List String} {a b : Located} {d : Datum}
    (h : v.FollowsName name a b) (hrest : EndsAt v (next :: rest) b d) :
    EndsAt v (name :: next :: rest) a d

/-- The data at the ends of all chains of links along a path. -/
def dataAlong (v : View) (names : List String) (a : Located) : Set Datum :=
  {d | v.EndsAt names a d}

variable {v : View} {a b a' b' : Located} {name table : String}

theorem FollowsName.leads (h : v.FollowsName name a b) : v.schema.Leads a.table name := by
  obtain ⟨link, hlink, -⟩ := h
  unfold Schema.followed at hlink
  unfold Schema.Leads
  split at hlink
  · simp [*, FieldKind.isLink]
  · simp [*, FieldKind.isLink]
  · simp [*]
  · cases hlink

/-- The links that a name stands for lead to one table. -/
theorem FollowsName.table_eq (hshare : v.schema.GroupsShareTargets) (h : v.FollowsName name a b)
    (h' : v.FollowsName name a' b') (ha : a.table = table) (ha' : a'.table = table) :
    b.table = b'.table := by
  obtain ⟨link, hlink, hb, -⟩ := h
  obtain ⟨link', hlink', hb', -⟩ := h'
  rw [ha] at hlink hb
  rw [ha'] at hlink' hb'
  exact hshare.followed_together hlink hlink' hb hb'

theorem endsAt_of_leads {d : Datum} (hname : v.schema.Leads a.table name) :
    v.EndsAt [name] a d ↔ ∃ b, v.FollowsName name a b ∧ .text b.object.id = d := by
  constructor
  · intro h
    cases h with
    | identity h => exact ⟨_, h, rfl⟩
    | value hvalue _ => exact absurd hname hvalue
  · rintro ⟨b, h, rfl⟩
    exact .identity h

theorem endsAt_of_value {d : Datum} (hname : ¬v.schema.Leads a.table name) :
    v.EndsAt [name] a d ↔ ∃ value ∈ a.object.valuesOf name, value.datum = d := by
  constructor
  · intro h
    cases h with
    | identity h => exact absurd h.leads hname
    | value _ h => exact ⟨_, h, rfl⟩
  · rintro ⟨value, h, rfl⟩
    exact .value hname h

theorem endsAt_step {next : String} {rest : List String} {d : Datum} :
    v.EndsAt (name :: next :: rest) a d ↔
      ∃ b, v.FollowsName name a b ∧ v.EndsAt (next :: rest) b d := by
  constructor
  · intro h
    cases h with
    | step h hrest => exact ⟨_, h, hrest⟩
  · rintro ⟨b, h, hrest⟩
    exact .step h hrest

/-! ## The lists of the evaluator -/

section Paths

variable {starts : List Located}

/-- What the first of the objects of a table tells is true of all of them. -/
theorem isStep_iff {first : Located} {others : List Located} (hfirst : first.table = table) :
    v.isStep (first :: others) name = true ↔ v.schema.Leads table name := by
  rw [isStep, ← hfirst]
  simp [Schema.Leads]

/-- The objects behind a name of objects of a table, each once, have different identities. -/
theorem linkedFromAll_follows (hshare : v.schema.GroupsShareTargets) (hstore : v.store.Keyed)
    (hname : v.schema.Leads table name) (hstarts : ∀ a ∈ starts, a.table = table) :
    ∃ found, v.linkedFromAll starts name = .ok found ∧ (found.map (·.object.id)).Nodup ∧
      ∀ b, b ∈ found ↔ ∃ a ∈ starts, v.FollowsName name a b := by
  have hparts : ∃ parts, starts.mapM (v.linked · name) = .ok parts ∧
      ∀ b, b ∈ parts.flatten ↔ ∃ a ∈ starts, v.FollowsName name a b := by
    induction starts with
    | nil => exact ⟨[], rfl, by simp⟩
    | cons first others ih =>
      obtain ⟨hfirst, hothers⟩ := List.forall_mem_cons.mp hstarts
      obtain ⟨part, hpart, hmem⟩ := mem_linked_of_linksOf (a := first) hstore
        (linksOf_followed (hfirst ▸ hname))
      obtain ⟨parts, hrest, hmems⟩ := ih hothers
      refine ⟨part :: parts, by rw [List.mapM_cons, hpart, hrest]; rfl, fun b => ?_⟩
      rw [List.flatten_cons, List.mem_append, hmem, hmems]
      simp [FollowsName]
  obtain ⟨parts, hrun, hmem⟩ := hparts
  have hsame : ∀ x ∈ parts.flatten, ∀ y ∈ parts.flatten, x.object.id = y.object.id → x = y := by
    intro x hx y hy hid
    obtain ⟨a, ha, hx⟩ := (hmem x).mp hx
    obtain ⟨a', ha', hy⟩ := (hmem y).mp hy
    have htable := hx.table_eq hshare hy (hstarts a ha) (hstarts a' ha')
    obtain ⟨_, _, hx⟩ := hx
    obtain ⟨_, _, hy⟩ := hy
    exact (hx.stores hstore).ext (hy.stores hstore) htable hid
  refine ⟨_, by rw [linkedFromAll, hrun]; rfl, ?_, fun b => ?_⟩
  · refine List.pairwise_map.mpr ?_
    refine (pairwise_eraseDupsBy Located.same parts.flatten).imp_of_mem fun {x y} hx hy hother hid => ?_
    obtain rfl := hsame x (mem_of_mem_eraseDupsBy hx) y (mem_of_mem_eraseDupsBy hy) hid
    simp [Located.same] at hother
  · rw [mem_eraseDupsBy, hmem]
    intro x hx y hy hid
    simp only [Located.same, Bool.and_eq_true, beq_iff_eq] at hid
    exact hsame x hx y hy hid.2

theorem pathValues_nil (names : List String) : v.pathValues [] names = .ok [] := by
  cases names <;> rfl

section Last

variable {first : Located} {others : List Located}
  (hstarts : ∀ a ∈ first :: others, a.table = table)
include hstarts

/-- Under a name that leads on stand the identities of the objects behind it. -/
theorem pathValues_identities (hshare : v.schema.GroupsShareTargets) (hstore : v.store.Keyed)
    (hname : v.schema.Leads table name) :
    ∃ values, v.pathValues (first :: others) [name] = .ok values ∧ Literal.Distinct values ∧
      ∀ d, d ∈ Literal.data values ↔ ∃ a ∈ first :: others, v.EndsAt [name] a d := by
  obtain ⟨found, hfound, hnodup, hmem⟩ := linkedFromAll_follows hshare hstore hname hstarts
  rw [pathValues, if_pos ((isStep_iff (hstarts _ (.head _))).mpr hname), hfound]
  refine ⟨_, rfl, ?_, fun d => ?_⟩
  · simpa [Function.comp_def] using Literal.distinct_texts hnodup
  · simp only [Literal.mem_data, List.mem_map, exists_exists_and_eq_and, hmem]
    constructor
    · rintro ⟨b, ⟨a, ha, hb⟩, rfl⟩
      exact ⟨a, ha, .identity hb⟩
    · rintro ⟨a, ha, hend⟩
      obtain ⟨b, hb, rfl⟩ := (endsAt_of_leads (hstarts a ha ▸ hname)).mp hend
      exact ⟨b, ⟨a, ha, hb⟩, rfl⟩

/-- Under another name stand the values that are stored for it. -/
theorem pathValues_stored (hname : ¬v.schema.Leads table name) :
    ∃ values, v.pathValues (first :: others) [name] = .ok values ∧ Literal.Distinct values ∧
      ∀ d, d ∈ Literal.data values ↔ ∃ a ∈ first :: others, v.EndsAt [name] a d := by
  rw [pathValues, if_neg (mt (isStep_iff (hstarts _ (.head _))).mp hname)]
  refine ⟨_, rfl, Literal.distinct_eraseDups _, fun d => ?_⟩
  rw [Literal.mem_data_eraseDups]
  simp only [Literal.mem_data, List.mem_flatMap]
  constructor
  · rintro ⟨value, ⟨a, ha, hvalue⟩, rfl⟩
    exact ⟨a, ha, .value (hstarts a ha ▸ hname) hvalue⟩
  · rintro ⟨a, ha, hend⟩
    obtain ⟨value, hvalue, rfl⟩ := (endsAt_of_value (hstarts a ha ▸ hname)).mp hend
    exact ⟨value, ⟨a, ha, hvalue⟩, rfl⟩

end Last

/-- The values at the end of a path from objects of a table stand for different data, those that the
chains of links from these objects lead to. -/
theorem pathValues_along (hshare : v.schema.GroupsShareTargets) (hstore : v.store.Keyed)
    {names : List String} {roles : List FieldRole} (halong : v.schema.Along table names roles)
    (hstarts : ∀ a ∈ starts, a.table = table) :
    ∃ values, v.pathValues starts names = .ok values ∧ Literal.Distinct values ∧
      ∀ d, d ∈ Literal.data values ↔ ∃ a ∈ starts, v.EndsAt names a d := by
  -- The step of the evaluator goes by the first object, so that there has to be one.
  induction halong generalizing starts with
  | @last table name role hrole =>
    cases starts with
    | nil => exact ⟨[], pathValues_nil _, List.nodup_nil, by simp [Literal.data]⟩
    | cons first others =>
      by_cases hname : v.schema.Leads table name
      · exact pathValues_identities hstarts hshare hstore hname
      · exact pathValues_stored hstarts hname
  | @step table name target role names roles hrole htarget hrest ih =>
    cases starts with
    | nil => exact ⟨[], pathValues_nil _, List.nodup_nil, by simp [Literal.data]⟩
    | cons first others =>
      have hname : v.schema.Leads table name := by
        rw [Schema.Leads, ← Schema.role_kind hrole]
        cases role <;> first | exact Or.inl rfl | exact Or.inr rfl | cases htarget
      obtain ⟨found, hfound, -, hmem⟩ := linkedFromAll_follows hshare hstore hname hstarts
      have htables : ∀ b ∈ found, b.table = target := by
        intro b hb
        obtain ⟨a, ha, link, hlink, hb, -⟩ := (hmem b).mp hb
        rw [hstarts a ha] at hlink hb
        exact hshare.followed (Schema.role_target hrole ▸ htarget) hlink hb
      obtain ⟨values, hvalues, hdistinct, hdata⟩ := ih htables
      obtain ⟨next, rest, rfl⟩ : ∃ next rest, names = next :: rest := by
        cases hrest <;> exact ⟨_, _, rfl⟩
      refine ⟨values, ?_, hdistinct, fun d => ?_⟩
      · rw [pathValues, if_pos ((isStep_iff (hstarts _ (.head _))).mpr hname), hfound]
        exact hvalues
      · rw [hdata]
        simp only [hmem, endsAt_step]
        constructor
        · rintro ⟨b, ⟨a, ha, hb⟩, hend⟩
          exact ⟨a, ha, b, hb, hend⟩
        · rintro ⟨a, ha, b, hb, hend⟩
          exact ⟨b, ⟨a, ha, hb⟩, hend⟩

/-- The values at the end of a path from an object are the data along the path, each once. -/
theorem pathValues_data (hshare : v.schema.GroupsShareTargets) (hstore : v.store.Keyed)
    {names : List String} (halong : ∃ roles, v.schema.Along a.table names roles) :
    ∃ values, v.pathValues [a] names = .ok values ∧ Literal.Distinct values ∧
      (Literal.data values : Set Datum) = v.dataAlong names a := by
  obtain ⟨roles, halong⟩ := halong
  have hstarts : ∀ start ∈ [a], start.table = a.table := by simp
  obtain ⟨values, hvalues, hdistinct, hdata⟩ := pathValues_along hshare hstore halong hstarts
  refine ⟨values, hvalues, hdistinct, Set.ext fun d => ?_⟩
  rw [Finset.mem_coe, hdata]
  simp [dataAlong]

/-- Finitely many data are at the ends of a path. -/
theorem dataAlong_finite (hshare : v.schema.GroupsShareTargets) (hstore : v.store.Keyed)
    {names : List String} (halong : ∃ roles, v.schema.Along a.table names roles) :
    (v.dataAlong names a).Finite := by
  obtain ⟨values, -, -, hdata⟩ := pathValues_data hshare hstore halong
  rw [← hdata]
  exact Finset.finite_toSet _

/-- A path operator compares the sets of data along two paths. -/
theorem pathComparison_holds (hshare : v.schema.GroupsShareTargets) (hstore : v.store.Keyed)
    {op : PathOp} {left right : List String}
    (hleft : ∃ roles, v.schema.Along a.table left roles)
    (hright : ∃ roles, v.schema.Along a.table right roles) :
    ∃ b, v.holds (.pathComparison op left right) a = .ok b ∧
      (b = true ↔ op.Compares (v.dataAlong left a) (v.dataAlong right a)) := by
  obtain ⟨first, hfirst, hdistinct, hdata⟩ := pathValues_data hshare hstore hleft
  obtain ⟨second, hsecond, hdistinct', hdata'⟩ := pathValues_data hshare hstore hright
  refine ⟨op.holds first second, by rw [holds, hfirst, hsecond]; rfl, ?_⟩
  rw [PathOp.holds_iff hdistinct hdistinct', hdata, hdata']

/-- A distinct count asks for the size of the set of data along a path. -/
theorem pathCountRange_holds (hshare : v.schema.GroupsShareTargets) (hstore : v.store.Keyed)
    {path : List String} {range : Interval Nat}
    (hpath : ∃ roles, v.schema.Along a.table path roles) :
    ∃ b, v.holds (.pathCountRange path range) a = .ok b ∧
      (b = true ↔ range.hasCount (v.dataAlong path a).ncard = true) := by
  obtain ⟨values, hvalues, hdistinct, hdata⟩ := pathValues_data hshare hstore hpath
  refine ⟨range.hasCount values.length, by rw [holds, hvalues]; rfl, ?_⟩
  rw [← hdata, Set.ncard_coe_finset, hdistinct.card_data]

end Paths

end View

/-! ## Tests of paths -/

/-- A call that tests the data along paths. -/
inductive PathTest where
  | compare (op : PathOp) (left right : Path)
  | count (path : Path) (op : CompareOp) (value : Value)

namespace PathTest

/-- The sets of data from an object on are as the test asks for. -/
def HoldsOf (v : View) (o : Located) : PathTest → Prop
  | .compare op left right => op.Compares (v.dataAlong left.names o) (v.dataAlong right.names o)
  | .count path op value => Filter.AsksForCount op (v.dataAlong path.names o).ncard value

/-- The tree of the test against a table. -/
def query (schema : Schema) (table : String) : PathTest → Except QueryError Query
  | .compare op left right => Filter.pathComparison schema table op left right
  | .count path op value => do
    Filter.distinctCount schema table path (← Filter.CountTest.ofValue op value)

/-- Reads a call of a path operator, or a distinct count, and nothing behind it. -/
def ofElements? (clock : Clock) : List Element → Option PathTest
  | .token word :: .token opening :: .path first :: .token mark :: behind =>
    if word.kind = .keyword && opening.isSymbol "(" then
      match behind with
      | [.path second, .token closing] =>
        if mark.isSymbol "," && closing.isSymbol ")" then
          (PathOp.ofKeyword? word.value).map (.compare · first second)
        else none
      | .token sign :: behind =>
        if word.value = "DCOUNT" && mark.isSymbol ")" then
          match CompareOp.ofSymbol? sign.value, Value.read clock behind with
          | some op, .ok (value, []) => some (.count first op value)
          | _, _ => none
        else none
      | _ => none
    else none
  | _ => none

end PathTest

namespace Filter

variable {scope : Scope} {nested : Nested} {table : String} {word opening closing comma : Token}
  {left right : Path} {op : PathOp}

theorem keyword_of_ofKeyword {word : String} (h : PathOp.ofKeyword? word = some op) :
    word = op.keyword := by
  unfold PathOp.ofKeyword? at h
  have hword : (op.keyword == word) = true := by simpa using List.find?_some h
  exact (eq_of_beq hword).symm

theorem call_compares (hword : PathOp.ofKeyword? word.value = some op)
    (hopening : opening.isSymbol "(" = true) (hcomma : comma.isSymbol "," = true)
    (hclosing : closing.isSymbol ")" = true) :
    call scope nested table word.value [.token opening, .path left, .token comma, .path right,
        .token closing] =
      (pathComparison scope.schema table op left right).map fun q => (q, []) := by
  -- The keyword of a path operator is that of no count.
  have hcount : (word.value == "COUNT") = false ∧ (word.value == "DCOUNT") = false := by
    rw [keyword_of_ofKeyword hword]
    cases op <;> exact ⟨rfl, rfl⟩
  simp only [call, hcount, hword, Bool.false_eq_true, if_false]
  show (ElementReader.symbol "(" _ >>= _) = _
  rw [symbol_taken hopening]
  show (ElementReader.symbol "," _ >>= _) = _
  rw [symbol_taken hcomma]
  show (ElementReader.symbol ")" _ >>= _) = _
  rw [symbol_taken hclosing]
  rfl

theorem call_counts {sign : Token} {path : Path} {op : CompareOp} {value : Value}
    {behind : List Element} (hopening : opening.isSymbol "(" = true)
    (hclosing : closing.isSymbol ")" = true) (hsign : CompareOp.ofSymbol? sign.value = some op)
    (hvalue : Value.read scope.clock behind = .ok (value, [])) :
    call scope nested table "DCOUNT" (.token opening :: .path path :: .token closing ::
        .token sign :: behind) =
      ((PathTest.count path op value).query scope.schema table).map fun q => (q, []) := by
  show (countedPath _ >>= _) = _
  rw [countedPath_taken hopening hclosing]
  show (CountTest.read scope.clock _ >>= _) = _
  rw [countTest_taken hsign hvalue, PathTest.query]
  cases CountTest.ofValue op value <;> rfl

/-- The interval of a test holds the counts that the test admits. -/
theorem hasCount_range {test : CountTest} {n : Nat} :
    test.range.hasCount n = true ↔ test.Admits n := by
  cases test with
  | exactly count =>
    rw [hasCount_iff]
    simp only [CountTest.range, Option.some.injEq, forall_eq', if_true, CountTest.Admits]
    omega
  | within range => exact Iff.rfl

/-- The log of a single test of paths builds its tree. -/
theorem buildWith_pathTest {tokens : List Token} {elements : List Element} {test : PathTest}
    (helements : Element.ofTokens .filter tokens = .ok elements)
    (htest : PathTest.ofElements? scope.clock elements = some test) :
    buildWith scope nested table tokens = test.query scope.schema table := by
  unfold PathTest.ofElements? at htest
  split at htest
  case h_2 => cases htest
  rename_i word opening first mark behind
  split at htest
  case isFalse => cases htest
  rename_i hwords
  rw [Bool.and_eq_true, decide_eq_true_eq] at hwords
  obtain ⟨kind, text, position⟩ := word
  obtain ⟨rfl, hopening⟩ : kind = .keyword ∧ opening.isSymbol "(" = true := hwords
  split at htest
  · rename_i second closing
    split at htest
    case isFalse => cases htest
    rename_i hmarks
    rw [Bool.and_eq_true] at hmarks
    obtain ⟨op, hword, rfl⟩ := Option.map_eq_some_iff.mp htest
    obtain rfl : text = op.keyword := keyword_of_ofKeyword hword
    exact buildWith_single helements (by cases op <;> rfl)
      (call_compares hword hopening hmarks.1 hmarks.2)
  · rename_i sign behind
    split at htest
    case isFalse => cases htest
    rename_i hmarks
    rw [Bool.and_eq_true, decide_eq_true_eq] at hmarks
    obtain ⟨rfl, hclosing⟩ : text = "DCOUNT" ∧ mark.isSymbol ")" = true := hmarks
    split at htest
    · rename_i op value hsign hvalue
      obtain rfl := Option.some.inj htest
      have hcall := @call_counts scope nested table _ _ _ first _ _ _ hopening hclosing hsign hvalue
      exact buildWith_single helements rfl hcall
    · cases htest
  · cases htest

/-- The tree of a test of paths, which promotion leaves as it is, holds as the test says. -/
theorem pathTest_means {v : View} {test : PathTest} {raw q : Query} {o : Located}
    (hshare : v.schema.GroupsShareTargets) (hstore : v.store.Keyed)
    (hraw : test.query v.schema o.table = .ok raw)
    (hpromote : raw.promote v.schema o.table = .ok q) :
    ∃ b, v.holds q o = .ok b ∧ (b = true ↔ test.HoldsOf v o) := by
  cases test with
  | compare op left right =>
    obtain ⟨names, hnames, hraw⟩ := bind_eq_ok hraw
    obtain ⟨names', hnames', hraw⟩ := bind_eq_ok hraw
    obtain rfl := Except.ok.inj hraw
    obtain ⟨-, resolved, hresolved, rfl⟩ := comparedPath_eq_ok_iff.mp hnames
    obtain ⟨-, resolved', hresolved', rfl⟩ := comparedPath_eq_ok_iff.mp hnames'
    obtain ⟨hleft, halong⟩ := Schema.along_of_resolve hresolved
    obtain ⟨hright, halong'⟩ := Schema.along_of_resolve hresolved'
    obtain rfl := Except.ok.inj hpromote
    rw [hleft, hright]
    exact View.pathComparison_holds hshare hstore halong halong'
  | count path op value =>
    obtain ⟨test, htest, hraw⟩ := bind_eq_ok hraw
    obtain ⟨-, resolved, hresolved, -, rfl⟩ := distinctCount_eq_ok_iff.mp hraw
    obtain ⟨hnames, halong⟩ := Schema.along_of_resolve hresolved
    obtain rfl := Except.ok.inj hpromote
    rw [hnames]
    obtain ⟨b, hb, htrue⟩ := View.pathCountRange_holds hshare hstore halong
    exact ⟨b, hb, htrue.trans (hasCount_range.trans (ofValue_admits htest))⟩

end Filter

namespace Compiler

open Filter

/-- The test of paths that an expression is, if it is one and nothing more. -/
def pathTest? (c : Compiler) (scope : Scope) (input : String) : Option PathTest :=
  match c.log .filter input with
  | .error _ => none
  | .ok tokens =>
    match Element.ofTokens .filter tokens with
    | .error _ => none
    | .ok elements => PathTest.ofElements? scope.clock elements

variable {c : Compiler} {scope : Scope} {table input : String} {q : Query} {store : Store}

/-- The compiled filter of a single test of paths holds as the test says. -/
theorem path_test_holds {test : PathTest} {o : Located} (hshare : c.schema.GroupsShareTargets)
    (hstore : store.Keyed) (hcompile : c.filter table input = .ok (some q))
    (hscope : c.scope = .ok scope) (htest : c.pathTest? scope input = some test)
    (ho : o.table = table) :
    ∃ b, View.holds ⟨c.schema, store⟩ q o = .ok b ∧
      (b = true ↔ test.HoldsOf ⟨c.schema, store⟩ o) := by
  subst ho
  have hschema : scope.schema = c.schema := c.scope_yields.of_ok hscope
  obtain ⟨tokens, scope', raw, hlog, -, hscope', hraw, hsettled⟩ := filter_eq_ok hcompile
  obtain rfl : scope = scope' := Except.ok.inj (hscope.symm.trans hscope')
  rw [pathTest?, hlog] at htest
  dsimp only at htest
  split at htest
  · cases htest
  · rename_i elements helements
    rw [buildIn, buildWith_pathTest helements htest, hschema] at hraw
    exact pathTest_means (v := ⟨c.schema, store⟩) hshare hstore hraw
      (Query.settle_eq_ok_iff.mp hsettled).1

/--
In compiled filters the path operators are the operators on sets that they are named after, and a
distinct count is the size of a set: the set of the identities or values at the ends of all chains
of links along the names of a path. This is so of a filter that is a single test of paths, and of
every such node that is read in a compiled filter.
-/
theorem path_operators_compare_sets (hshare : c.schema.GroupsShareTargets) (hstore : store.Keyed)
    (hcompile : c.filter table input = .ok (some q)) :
    (∀ scope test, c.scope = .ok scope → c.pathTest? scope input = some test →
      ∀ o : Located, o.table = table → ∃ b, View.holds ⟨c.schema, store⟩ q o = .ok b ∧
        (b = true ↔ test.HoldsOf ⟨c.schema, store⟩ o)) ∧
    (∀ place op left right, q.Reads c.schema table place (.pathComparison op left right) →
      ∀ o : Located, o.table = place →
        ∃ b, View.holds ⟨c.schema, store⟩ (.pathComparison op left right) o = .ok b ∧
          (b = true ↔ op.Compares (View.dataAlong ⟨c.schema, store⟩ left o)
            (View.dataAlong ⟨c.schema, store⟩ right o))) ∧
    ∀ place path range, q.Reads c.schema table place (.pathCountRange path range) →
      ∀ o : Located, o.table = place →
        ∃ b, View.holds ⟨c.schema, store⟩ (.pathCountRange path range) o = .ok b ∧
          (b = true ↔
            range.hasCount (View.dataAlong ⟨c.schema, store⟩ path o).ncard = true) := by
  have hwell := filter_wellFormed (fun scope _ => scope.clock.shows_any) hcompile
  refine ⟨fun scope test hscope htest o ho =>
    path_test_holds hshare hstore hcompile hscope htest ho, ?_, ?_⟩
  · rintro place op left right hread o rfl
    obtain ⟨hleft, hright⟩ := hwell.sound hread
    exact View.pathComparison_holds (v := ⟨c.schema, store⟩) hshare hstore hleft hright
  · rintro place path range hread o rfl
    exact View.pathCountRange_holds (v := ⟨c.schema, store⟩) hshare hstore (hwell.sound hread)

/-- The owner of the task is among its people. -/
theorem path_operators_compare_sets_people : ∃ q scope left right,
    crew.filter "Task" "CONTAINS(People, Owner)" = .ok (some q) ∧ crew.scope = .ok scope ∧
    crew.pathTest? scope "CONTAINS(People, Owner)" = some (.compare .contains left right) ∧
    left.names = ["People"] ∧ right.names = ["Owner"] ∧
    View.dataAlong ⟨crew.schema, crewStore⟩ ["Owner"] ⟨"Task", chore⟩ ⊆
      View.dataAlong ⟨crew.schema, crewStore⟩ ["People"] ⟨"Task", chore⟩ := by
  have hread : (crew.scope.toOption.bind fun scope =>
      (crew.pathTest? scope "CONTAINS(People, Owner)").map fun test => match test with
        | .compare op left right => some (op, left.names, right.names)
        | .count _ _ _ => none) = some (some (.contains, ["People"], ["Owner"])) := by
    decide +kernel
  have hrun : (crew.filter "Task" "CONTAINS(People, Owner)").toOption.bind
      (·.bind fun q => (View.holds ⟨crew.schema, crewStore⟩ q ⟨"Task", chore⟩).toOption) =
      some true := by decide +kernel
  obtain ⟨scope, hscope, hread⟩ := Option.bind_eq_some_iff.mp hread
  obtain ⟨test, htest, hread⟩ := Option.map_eq_some_iff.mp hread
  obtain ⟨found, hcompile, hrun⟩ := Option.bind_eq_some_iff.mp hrun
  obtain ⟨q, rfl, hholds⟩ := Option.bind_eq_some_iff.mp hrun
  have hscope := toOption_eq_some hscope
  have hcompile := toOption_eq_some hcompile
  cases test with
  | count path op value => cases hread
  | compare op left right =>
    obtain ⟨rfl, hleft, hright⟩ : op = .contains ∧ left.names = ["People"] ∧
        right.names = ["Owner"] := by simpa using hread
    obtain ⟨b, hb, htrue⟩ := (path_operators_compare_sets crew_sharesTargets crewStore_keyed
      hcompile).1 scope _ hscope htest ⟨"Task", chore⟩ rfl
    obtain rfl : b = true := Except.ok.inj (hb.symm.trans (toOption_eq_some hholds))
    have hsubset := htrue.mp rfl
    rw [PathTest.HoldsOf, hleft, hright] at hsubset
    exact ⟨q, scope, left, right, hcompile, hscope, htest, hleft, hright, hsubset⟩

end Compiler

end LinkQuery
