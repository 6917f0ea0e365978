import LinkQuery.Proofs.GroupMeaning
/-!
# Missing values behind a repeated link

`NONE` around a link that is followed repeatedly denies the whole traversal. What stands behind the
link is built with the tail as it is, so that a missing value is asked of the last segment: the
traversal looks for an object that leads on to a place where nothing is. Where each object leads on
to one place, this denies that the path behind the link is missing.

Main statements:
- `Filter.chainQuery_missing`: a chain of segments whose last one has to find something missing.
- `Compiler.missing_behind_none`: the texts of such terms, and what stands behind the link.
-/
namespace LinkQuery

namespace Filter

variable {scope : Scope} {store : Store} {nested : Nested} {table : String} {segment : Segment}
  {raw : Query}

/-! ## Segments at which something is missing -/

theorem present_asksForOne : Tail.present.AsksForOne :=
  ⟨by simp, rfl⟩

/-- The tree of a field that is missing is the opposite of the tree of the field that is there. -/
theorem fieldQuery_missing {role : FieldRole} (hplain : segment.isQuantified = false) :
    fieldQuery nested role segment none .missing =
      (fieldQuery nested role segment none .present).map Query.not := by
  obtain ⟨hquantifier, hasks⟩ := asksForExistence_of_plain hplain
  have hlink : ∀ target, anyLinkQuery nested segment target none .missing =
      (anyLinkQuery nested segment target none .present).map Query.not := by
    intro target
    unfold anyLinkQuery linkQuery repeatedLinkQuery repeatedCondition
    simp only [hquantifier, hasks.unconditioned]
    cases allFilters nested target segment.filters <;> cases segment.transitive <;> rfl
  have hleaf : ∀ type several, leafQuery type several segment .missing =
      (leafQuery type several segment .present).map Query.not := by
    intro type several
    unfold leafQuery
    cases segment.isRestricted <;> rfl
  cases role with
  | scalar type => exact hleaf _ _
  | multiValued type => exact hleaf _ _
  | system => exact hleaf _ _
  | link target => exact hlink target
  | crossLink target => exact hlink target
  | group target => rfl

/-- A segment that names no group stands in its own place. -/
theorem segmentQuery_self {onward : Option Onward} {tail : Tail}
    (hgroup : scope.schema.fieldKind table segment.name ≠ .group) :
    segmentQuery scope nested table segment onward tail =
      memberQuery scope nested table segment onward tail segment.name := by
  unfold segmentQuery memberQuery
  show _ = (scope.schema.resolveSegment table segment onward.isSome >>= fun role =>
    fieldQuery nested role segment onward tail)
  cases hrole : scope.schema.resolveSegment table segment onward.isSome with
  | error why => rfl
  | ok role =>
    have hkind := Schema.role_kind (Schema.resolveSegment_yields.of_ok hrole).named
    cases role with
    | group target => exact absurd hkind.symm hgroup
    | scalar type => rfl
    | multiValued type => rfl
    | link target => rfl
    | crossLink target => rfl
    | system => rfl

variable (hstore : store.Keyed) (hnested : nested.Agrees scope)

include hstore hnested

/-- A field that has to be missing has no witness of being there. -/
theorem memberQuery_missing {member : String} (hplain : segment.isQuantified = false)
    (h : memberQuery scope nested table segment none .missing member = .ok raw) :
    TreeMeans scope store table raw fun o =>
      ¬FieldWitness scope store segment .present member o := by
  obtain ⟨hquantifier, hasks⟩ := asksForExistence_of_plain hplain
  obtain ⟨role, hrole, h⟩ := bind_eq_ok h
  have hopposite := @fieldQuery_missing nested { segment with name := member } role hplain
  obtain ⟨present, hfield, rfl⟩ := map_eq_ok (hopposite.symm.trans h)
  have hpresent : memberQuery scope nested table segment none .present member = .ok present :=
    (congrArg (· >>= fun role => fieldQuery nested role { segment with name := member } none
      .present) hrole).trans hfield
  have hmeans := memberQuery_witness hstore hnested hasks present_asksForOne
    (fun hnone => by simp [hquantifier] at hnone) hpresent
  rw [hquantifier] at hmeans
  exact hmeans.not

/-- The last segment of a path has to find a field that is missing: its own, or that of a member of
the group that it names. -/
theorem segmentQuery_missing (hplain : segment.isQuantified = false)
    (h : segmentQuery scope nested table segment none .missing = .ok raw) :
    TreeMeans scope store table raw fun o => ∃ field ∈ endFields scope.schema o.table segment,
      ¬FieldWitness scope store segment .present field o := by
  intro q hq hknown o ho htable
  subst htable
  unfold endFields
  by_cases hgroup : scope.schema.fieldKind o.table segment.name = .group
  · simp only [if_pos hgroup]
    exact groupQuery_means hplain
      (fun member _ raw h => memberQuery_missing hstore hnested hplain h)
      (segmentQuery_group hgroup h).2 q hq hknown o ho rfl
  · simp only [if_neg hgroup, List.mem_singleton, exists_eq_left]
    rw [segmentQuery_self hgroup] at h
    exact memberQuery_missing hstore hnested hplain h q hq hknown o ho rfl

/-- A chain of segments has to lead to an object at which its last segment finds a field that is
missing. -/
theorem chainQuery_missing {rest : List Segment}
    (hplain : ∀ s ∈ segment :: rest, s.isQuantified = false)
    (h : chainQuery scope nested table segment rest .missing = .ok raw) :
    TreeMeans scope store table raw fun o => ∃ b, LeadsAlong scope store segment rest o b ∧
      ∃ field ∈ endFields scope.schema b.table (Path.mk segment rest).last,
        ¬FieldWitness scope store (Path.mk segment rest).last .present field b :=
  chainQuery_ends hstore hnested hplain
    (fun _ _ _ hlast h => segmentQuery_missing hstore hnested hlast h) h

omit hnested in
/-- A term that has to be missing denies that there is a chain of objects to something. -/
theorem missingTerm_means {rest : List Segment}
    (hplain : ∀ s ∈ segment :: rest, s.isQuantified = false)
    (h : termQuery scope (buildIn scope) table ⟨segment, rest⟩ .missing = .ok raw) :
    TreeMeans scope store table raw fun o =>
      ¬ChainWitness scope store .present segment rest o := by
  have hexistential : (Path.mk segment rest).segments.any Segment.isUniversal = false := by
    rw [List.any_eq_false]
    intro s hs
    rw [Segment.isUniversal, (asksForExistence_of_plain (hplain s hs)).1]
    simp
  rw [termQuery, if_pos (by simp [hexistential])] at h
  obtain ⟨present, hpresent, rfl⟩ := map_eq_ok h
  exact (chainQuery_means hstore buildIn_agrees_self hplain present_asksForOne hpresent).not

/-! ## Behind a link that is followed repeatedly -/

/-- The segments lead from an object to a field of the object at their end. -/
def LeadsToField (scope : Scope) (store : Store) (segment : Segment) (rest : List Segment)
    (a b : Located) (field : String) : Prop :=
  LeadsAlong scope store segment rest a b ∧
    field ∈ endFields scope.schema b.table (Path.mk segment rest).last

/-- The segments lead from an object to one field of one object. -/
def LeadsToOne (scope : Scope) (store : Store) (segment : Segment) (rest : List Segment)
    (a : Located) : Prop :=
  ∃ b field, LeadsToField scope store segment rest a b field ∧
    ∀ b' field', LeadsToField scope store segment rest a b' field' → b' = b ∧ field' = field

/-- The segments lead from an object to a field that is missing. -/
def LeadsToMissing (scope : Scope) (store : Store) (segment : Segment) (rest : List Segment)
    (a : Located) : Prop :=
  ∃ b field, LeadsToField scope store segment rest a b field ∧
    ¬FieldWitness scope store (Path.mk segment rest).last .present field b

omit hstore hnested in
theorem segmentWitness_iff {tail : Tail} {a : Located} :
    SegmentWitness scope store segment tail a ↔
      ∃ field ∈ endFields scope.schema a.table segment,
        FieldWitness scope store segment tail field a := by
  unfold SegmentWitness endFields
  split
  · exact Iff.rfl
  · simp

omit hstore hnested in
/-- Where the segments lead to one field, it is missing exactly if there is no chain of objects to
something. -/
theorem LeadsToOne.missing_iff {rest : List Segment} {a : Located}
    (hone : LeadsToOne scope store segment rest a) :
    LeadsToMissing scope store segment rest a ↔
      ¬ChainWitness scope store .present segment rest a := by
  obtain ⟨b, field, hleads, honly⟩ := hone
  rw [chainWitness_iff]
  constructor
  · intro hmissing hwitness
    obtain ⟨b₁, field₁, hleads₁, hnone⟩ := hmissing
    obtain ⟨b₂, halong, hsome⟩ := hwitness
    obtain ⟨field₂, hfield, hsome⟩ := segmentWitness_iff.mp hsome
    obtain ⟨rfl, rfl⟩ := honly b₁ field₁ hleads₁
    obtain ⟨rfl, rfl⟩ := honly b₂ field₂ ⟨halong, hfield⟩
    exact hnone hsome
  · intro hnone
    refine ⟨b, field, hleads, fun hsome => hnone ?_⟩
    exact ⟨b, hleads.1, segmentWitness_iff.mpr ⟨field, hleads.2, hsome⟩⟩

omit hnested in
/-- `NONE` around a link that is followed repeatedly denies that the link reaches an object from
which the segments behind it lead to a field that is missing. -/
theorem repeatedTerm_missing {next : Segment} {rest : List Segment}
    (hrepeated : segment.transitive = true) (hquantifier : segment.quantifier = some .none)
    (hplain : ∀ s ∈ next :: rest, s.isQuantified = false)
    (h : termQuery scope (buildIn scope) table ⟨segment, next :: rest⟩ .missing = .ok raw) :
    scope.schema.LeadsTo table segment.name table ∧
      TreeMeans scope store table raw fun o =>
        ¬∃ r, Reaches scope store segment o r ∧ LeadsToMissing scope store next rest r := by
  rw [termQuery, if_neg (by simp [Path.segments, Segment.isUniversal, hquantifier,
    Quantifier.isUniversal]), chainQuery] at h
  obtain ⟨role, hrole, h⟩ := bind_eq_ok h
  have hresolves := Schema.resolveSegment_yields.of_ok hrole
  have hloops := hresolves.loops hrepeated
  have hbehind : BehindMeans scope store .missing (LeadsToMissing scope store next rest)
      (some ⟨fun target tail => chainQuery scope (buildIn scope) target next rest tail,
        (next :: rest).any Segment.isUniversal⟩) := by
    intro target raw h q hq hknown o ho htable c hc
    rw [chainQuery_missing hstore buildIn_agrees_self hplain h q hq hknown o ho htable c hc]
    simp only [LeadsToMissing, LeadsToField, ← exists_and_left, and_assoc]
  have hlink : scope.schema.LeadsTo table segment.name table →
      anyLinkQuery (buildIn scope) segment table _ .missing = .ok raw → _ := fun hlead h => by
    rw [anyLinkQuery, if_pos hrepeated] at h
    have hmeans := repeatedLinkQuery_follows hstore buildIn_agrees_self hlead hbehind h
    rw [hquantifier] at hmeans
    exact And.intro hlead hmeans
  cases role with
  | link target =>
    obtain rfl := Option.some.inj hloops
    exact hlink hresolves.means h
  | crossLink target =>
    obtain rfl := Option.some.inj hloops
    exact hlink hresolves.means h
  | scalar type => cases hloops
  | multiValued type => cases hloops
  | group target => cases hloops
  | system => cases hloops

omit hnested in
/-- What a link reaches is stored in the table of the link. -/
theorem Reaches.stores {a b : Located} (hlead : scope.schema.LeadsTo a.table segment.name a.table)
    (h : Reaches scope store segment a b) :
    (scope.view store).Stores b ∧ b.table = a.table := by
  obtain ⟨⟨k, hk, -, hdistance⟩, -⟩ := h
  exact View.walk_stores hstore hlead.2 hk hdistance.1

end Filter

namespace Compiler

open Filter

variable {c : Compiler} {scope : Scope} {table input inner : String} {segment next : Segment}
  {rest : List Segment} {store : Store}

/-- The text is a link followed repeatedly inside `NONE`, with the path of `inner` behind it, and
both texts ask for the path to be missing. -/
structure NoneAroundRepeated (c : Compiler) (scope : Scope) (segment next : Segment)
    (rest : List Segment) (input inner : String) : Prop where
  around : segment.quantifier = some .none
  repeated : segment.transitive = true
  plain : ∀ s ∈ next :: rest, s.isQuantified = false
  read : c.term? scope input = some (⟨segment, next :: rest⟩, .missing)
  same : ∃ path, c.term? scope inner = some (path, .missing) ∧
    path.unplaced = (⟨next, rest⟩ : Path).unplaced

/--
`NONE` around a link that is followed repeatedly, with a path behind it that has to be missing,
holds exactly if the path leads from no object that the link reaches to a field that is missing.
Where the path leads from each of these objects to one field, this says that none of them satisfies
the filter that the path is missing.
-/
theorem missing_behind_none {q : Query} {o : StoredObject} {b : Bool}
    (hscope : c.scope = .ok scope) (hread : c.NoneAroundRepeated scope segment next rest input inner)
    (hcompile : c.filter table input = .ok (some q)) (hstore : store.Keyed)
    (ho : store.find? table o.id = some o)
    (hholds : View.holds ⟨c.schema, store⟩ q ⟨table, o⟩ = .ok b) :
    (b = true ↔ ¬∃ r, Reaches scope store segment ⟨table, o⟩ r ∧
      LeadsToMissing scope store next rest r) ∧
    ∀ p, c.filter table inner = .ok (some p) →
      (∀ r, Reaches scope store segment ⟨table, o⟩ r → LeadsToOne scope store next rest r ∧
        ∃ found, View.holds ⟨c.schema, store⟩ p r = .ok found) →
      (b = true ↔ ∀ r, Reaches scope store segment ⟨table, o⟩ r →
        View.holds ⟨c.schema, store⟩ p r = .ok false) := by
  obtain ⟨hquantifier, hrepeated, hplain, hterm, path, hpath, hsame⟩ := hread
  have hmissing := term_means hscope hterm
    (fun raw h => (repeatedTerm_missing hstore hrepeated hquantifier hplain h).2) hcompile ho hholds
  refine ⟨hmissing, fun p hinner hone => ?_⟩
  rw [hmissing]
  obtain ⟨tokens, behind, hlog, helements, htail⟩ := term?_eq_some hterm
  obtain ⟨found, scope', raw, hfound, -, hscope', hraw, -⟩ := filter_eq_ok hcompile
  obtain rfl : tokens = found := Except.ok.inj (hlog.symm.trans hfound)
  obtain rfl : scope = scope' := Except.ok.inj (hscope.symm.trans hscope')
  rw [buildIn_term helements htail] at hraw
  have hlead := (repeatedTerm_missing hstore hrepeated hquantifier hplain hraw).1
  simp only [not_exists, not_and]
  refine forall₂_congr fun r hr => ?_
  obtain ⟨hstores, htable⟩ := hr.stores hstore hlead
  obtain ⟨hplace, found, hfound⟩ := hone r hr
  obtain ⟨_, reached⟩ := r
  obtain rfl := htable
  have hinner := term_means hscope hpath
    (fun raw h => missingTerm_means hstore hplain (termQuery_of_unplaced hsame h)) hinner hstores
    hfound
  rw [hplace.missing_iff, ← hinner, hfound]
  cases found <;> simp

/-- The bosses of a person, in `NONE`. -/
def noBosses : Segment :=
  { Segment.named "Boss" 5 with quantifier := some .none, transitive := true }

/-- The tree asks for there to be no name. -/
def asksForNoName (q : Query) : Bool :=
  match q with
  | .negated (.fieldCountRange "Name" _) => true
  | _ => false

theorem holds_of_asksForNoName {q : Query} (h : asksForNoName q = true) (v : View) (o : Located) :
    ∃ found, v.holds q o = .ok found := by
  unfold asksForNoName at h
  split at h
  · exact ⟨_, by rw [View.holds, View.holds]; rfl⟩
  · cases h

/-- All persons above bob have names. -/
theorem missing_behind_none_names : ∃ scope p, staff.scope = .ok scope ∧
    staff.NoneAroundRepeated scope noBosses (.named "Name" 12) [] "NONE(Boss^).Name IS NULL"
      "Name IS NULL" ∧
    staff.filter "Person" "Name IS NULL" = .ok (some p) ∧
    (∀ r, Reaches scope staffStore noBosses ⟨"Person", bob⟩ r →
      LeadsToOne scope staffStore (.named "Name" 12) [] r) ∧
    ∀ r, Reaches scope staffStore noBosses ⟨"Person", bob⟩ r →
      View.holds ⟨staff.schema, staffStore⟩ p r = .ok false := by
  have hread : (staff.scope.toOption.map fun scope => decide
      (staff.term? scope "NONE(Boss^).Name IS NULL" =
        some (⟨noBosses, [.named "Name" 12]⟩, .missing) ∧
      staff.term? scope "Name IS NULL" = some (⟨.named "Name" 0, []⟩, .missing))) =
      some true := by decide +kernel
  have hrun : (staff.filter "Person" "NONE(Boss^).Name IS NULL").toOption.bind (·.bind fun q =>
      (View.holds ⟨staff.schema, staffStore⟩ q ⟨"Person", bob⟩).toOption) = some true := by
    decide +kernel
  have hinner : (staff.filter "Person" "Name IS NULL").toOption.bind (·.map asksForNoName) =
      some true := by decide +kernel
  obtain ⟨scope, hscope, hread⟩ := Option.map_eq_some_iff.mp hread
  obtain ⟨hterm, hpath⟩ := of_decide_eq_true hread
  obtain ⟨found, hcompile, hrun⟩ := Option.bind_eq_some_iff.mp hrun
  obtain ⟨q, rfl, hholds⟩ := Option.bind_eq_some_iff.mp hrun
  obtain ⟨found, hcompileInner, hinner⟩ := Option.bind_eq_some_iff.mp hinner
  obtain ⟨p, rfl, hshape⟩ := Option.map_eq_some_iff.mp hinner
  have hscope := toOption_eq_some hscope
  have hschema : scope.schema = staff.schema := staff.scope_yields.of_ok hscope
  have hcompileInner := toOption_eq_some hcompileInner
  have hnone : staff.NoneAroundRepeated scope noBosses (.named "Name" 12) []
      "NONE(Boss^).Name IS NULL" "Name IS NULL" :=
    ⟨rfl, rfl, by simp [Segment.isQuantified, Segment.named], hterm, _, hpath, by decide⟩
  have hkeyed : staffStore.Keyed := (Store.keyed_empty.insert _ _).insert _ _
  have hstored : staffStore.find? "Person" bob.id = some bob := Store.find?_insert_self _ _ bob
  have hone : ∀ r, Reaches scope staffStore noBosses ⟨"Person", bob⟩ r →
      LeadsToOne scope staffStore (.named "Name" 12) [] r := by
    intro r hr
    have hlead : scope.schema.LeadsTo "Person" "Boss" "Person" := by
      rw [hschema]
      exact ⟨by decide +kernel, by decide +kernel⟩
    have htable : r.table = "Person" := (hr.stores hkeyed hlead).2
    have hfields : endFields scope.schema r.table (.named "Name" 12) = ["Name"] := by
      rw [hschema, htable]
      decide +kernel
    refine ⟨r, "Name", ⟨rfl, by simp [Path.last, hfields]⟩, ?_⟩
    rintro b field ⟨rfl, hfield⟩
    exact ⟨rfl, by simpa [Path.last, hfields] using hfield⟩
  exact ⟨scope, p, hscope, hnone, hcompileInner, hone,
    ((missing_behind_none hscope hnone (toOption_eq_some hcompile) hkeyed hstored
      (toOption_eq_some hholds)).2 p hcompileInner fun r hr =>
        ⟨hone r hr, holds_of_asksForNoName hshape _ r⟩).mp rfl⟩

/-- A person whose boss has no boss has a boss whose boss has no name, and yet no such boss is
found. -/
theorem none_misses_missing_boss : ∃ q p ann,
    staff.filter "Person" "NONE(Boss^).Boss.Name IS NULL" = .ok (some q) ∧
    View.holds ⟨staff.schema, staffStore⟩ q ⟨"Person", bob⟩ = .ok true ∧
    (⟨staff.schema, staffStore⟩ : View).Follows "Boss" ⟨"Person", bob⟩ ann ∧
    staff.filter ann.table "Boss.Name IS NULL" = .ok (some p) ∧
    View.holds ⟨staff.schema, staffStore⟩ p ann = .ok true := by
  have hrun : (staff.filter "Person" "NONE(Boss^).Boss.Name IS NULL").toOption.bind (·.bind fun q =>
      (View.holds ⟨staff.schema, staffStore⟩ q ⟨"Person", bob⟩).toOption) = some true := by
    decide +kernel
  have hinner : (staff.filter "Person" "Boss.Name IS NULL").toOption.bind (·.bind fun p =>
      (View.holds ⟨staff.schema, staffStore⟩ p
        ⟨"Person", ⟨"a", .ofList [("Name", [.text "Ann"])], .empty⟩⟩).toOption) = some true := by
    decide +kernel
  obtain ⟨found, hcompile, hrun⟩ := Option.bind_eq_some_iff.mp hrun
  obtain ⟨q, rfl, hholds⟩ := Option.bind_eq_some_iff.mp hrun
  obtain ⟨found, hcompileInner, hinner⟩ := Option.bind_eq_some_iff.mp hinner
  obtain ⟨p, rfl, hmissing⟩ := Option.bind_eq_some_iff.mp hinner
  exact ⟨q, p, ⟨"Person", ⟨"a", .ofList [("Name", [.text "Ann"])], .empty⟩⟩,
    toOption_eq_some hcompile, toOption_eq_some hholds,
    ⟨by decide +kernel, "a", by decide +kernel, by rfl⟩,
    toOption_eq_some hcompileInner, toOption_eq_some hmissing⟩

end Compiler

end LinkQuery
