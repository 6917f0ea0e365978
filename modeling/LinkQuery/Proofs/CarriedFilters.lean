import LinkQuery.Metric.Build
import LinkQuery.Proofs.PathOperators
/-!
# Filters carried back along a path

The filters along the path of a call are made filters of the table that the path starts in. Each of
them asks on its own for a chain of links to an object that satisfies it. An object with one chain
that satisfies all of them has all these chains. Chains to different objects may be different, so
that the opposite is only true of a path with filters at a single segment.

Main statements:
- `Filter.PassesAlong.each`, `Filter.passesEach_single`: one chain for all filters, and one for
  each.
- `Metric.carriedFilters_mean`, `Metric.callPath_means`: what the filters along a path ask of an
  object.
-/
namespace LinkQuery

/-! ## Groups that lead to a table -/

namespace Schema

variable {s : Schema} {table name : String}

/-- Each group expands to a link that leads to a table, at least. -/
def GroupsLead (s : Schema) : Prop :=
  ∀ table group, s.fieldKind table group = .group →
    ∃ link ∈ s.groupMembers table group, ∃ target, s.LeadsTo table link target

theorem GroupsLead.firstLink (h : s.GroupsLead) {group : String}
    (hgroup : s.fieldKind table group = .group) : (s.firstLink? table group).isSome = true := by
  obtain ⟨link, hlink, target, hlead⟩ := h table group hgroup
  have hfollowable : s.followable? table link = some (link, target) := by
    rw [followable?, if_pos hlead.1, hlead.2]
    rfl
  rw [firstLink?, List.findSome?_isSome_iff]
  exact ⟨link, List.mem_eraseDups.mp hlink, by simp [hfollowable]⟩

/-- Only tables and groups that the schema declares have to be looked at. -/
theorem groupsLead_of_firstLink (h : ∀ table ∈ s.tables.names, ∀ group ∈ s.groupNames table,
    (s.firstLink? table group).isSome = true) : s.GroupsLead := by
  intro table group hgroup
  have hmem := mem_groupNames hgroup
  have hdeclared : table ∈ s.tables.names := by
    cases htable : s.tables.find? table with
    | none => simp [groupNames, htable] at hmem
    | some fields => exact (NameMap.mem_of_find? htable).1
  obtain ⟨found, hfound⟩ := Option.isSome_iff_exists.mp (h table hdeclared group hmem)
  exact ⟨found.1, firstLink_mem hfound, found.2, firstLink_leadsTo hfound⟩

/-- The names that lead to other objects are those whose role has a target. -/
theorem GroupsLead.leads_iff (h : s.GroupsLead) {role : FieldRole}
    (hrole : s.role table name = .ok role) : s.Leads table name ↔ role.target?.isSome = true := by
  have hkind := role_kind hrole
  have htarget := role_target hrole
  unfold Leads
  rw [← hkind]
  cases role with
  | scalar type | multiValued type | system =>
    simp [FieldRole.kind, FieldKind.isLink, FieldRole.target?]
  | link target | crossLink target => simp [FieldRole.kind, FieldKind.isLink, FieldRole.target?]
  | group target =>
    have hfirst := h.firstLink hkind.symm
    rw [Query.traversalTarget?, ← hkind] at htarget
    simp only [FieldRole.kind] at htarget
    simp [htarget, hfirst, FieldRole.kind]

/-- A name that promotion follows leads to other objects. -/
theorem leads_of_target {target : String}
    (h : Query.traversalTarget? s table name = some target) : s.Leads table name := by
  unfold Query.traversalTarget? at h
  unfold Leads
  split at h <;> simp_all [FieldKind.isLink]

end Schema

/-! ## Chains of objects -/

namespace View

variable {v : View} {name target : String} {a b : Located}

theorem FollowsName.stores (hstore : v.store.Keyed) (h : v.FollowsName name a b) : v.Stores b := by
  obtain ⟨link, -, h⟩ := h
  exact h.stores hstore

/-- A name leads to objects of the table that promotion follows it to. -/
theorem FollowsName.table_of_target (hshare : v.schema.GroupsShareTargets)
    (htarget : Query.traversalTarget? v.schema a.table name = some target)
    (h : v.FollowsName name a b) : b.table = target := by
  obtain ⟨link, hlink, h⟩ := h
  exact hshare.followed htarget hlink h.1

/-- A chain of links along the names leads from one object to another. -/
def FollowsAll (v : View) : List String → Located → Located → Prop
  | [], a, b => a = b
  | name :: rest, a, b => ∃ t, v.FollowsName name a t ∧ v.FollowsAll rest t b

theorem followsAll_append {front back : List String} :
    v.FollowsAll (front ++ back) a b ↔ ∃ t, v.FollowsAll front a t ∧ v.FollowsAll back t b := by
  induction front generalizing a with
  | nil => simp [FollowsAll]
  | cons name front ih =>
    simp only [List.cons_append, FollowsAll, ih]
    constructor
    · rintro ⟨t, hfollows, u, hfront, hback⟩
      exact ⟨u, ⟨t, hfollows, hfront⟩, hback⟩
    · rintro ⟨u, ⟨t, hfollows, hfront⟩, hback⟩
      exact ⟨t, hfollows, u, hfront, hback⟩

end View

namespace Filter

/-- A chain of stored objects from an object on along the segments satisfies their filters: those of
a link or a group on the object that it leads to, and those of a last segment that leads nowhere on
the object that holds it. -/
inductive PassesAlong (scope : Scope) (store : Store) : List Segment → Located → Prop
  | nil {a : Located} : PassesAlong scope store [] a
  | step {s : Segment} {rest : List Segment} {a b : Located}
    (h : (scope.view store).FollowsName s.name a b) (hb : SatisfiesAll scope store s.filters b)
    (hrest : PassesAlong scope store rest b) : PassesAlong scope store (s :: rest) a
  | leaf {s : Segment} {a : Located} (hname : ¬scope.schema.Leads a.table s.name)
    (ha : SatisfiesAll scope store s.filters a) : PassesAlong scope store [s] a

/-- For each of the segments with filters, a chain of links along the names and the segments in
front of it leads to an object that passes its filters. -/
def PassesEach (scope : Scope) (store : Store) (names : List String) :
    List Segment → Located → Prop
  | [], _ => True
  | s :: rest, o =>
    (s.filters ≠ [] →
      ∃ a, (scope.view store).FollowsAll names o a ∧ PassesAlong scope store [s] a) ∧
      PassesEach scope store (names ++ [s.name]) rest o

section Chains

variable {scope : Scope} {store : Store} {names : List String} {segments front back : List Segment}
  {s : Segment} {o a : Located}

theorem passesAlong_of_leads (hname : scope.schema.Leads a.table s.name) :
    PassesAlong scope store [s] a ↔
      ∃ b, (scope.view store).FollowsName s.name a b ∧ SatisfiesAll scope store s.filters b := by
  constructor
  · intro h
    cases h with
    | step h hb _ => exact ⟨_, h, hb⟩
    | leaf hother _ => exact absurd hname hother
  · rintro ⟨b, h, hb⟩
    exact .step h hb .nil

theorem passesAlong_of_holder (hname : ¬scope.schema.Leads a.table s.name) :
    PassesAlong scope store [s] a ↔ SatisfiesAll scope store s.filters a := by
  constructor
  · intro h
    cases h with
    | step h _ _ => exact absurd h.leads hname
    | leaf _ ha => exact ha
  · exact .leaf hname

/-- A chain that passes all filters is one for each of them. -/
theorem PassesAlong.each (h : PassesAlong scope store segments a)
    (ho : (scope.view store).FollowsAll names o a) : PassesEach scope store names segments o := by
  induction h generalizing names with
  | nil => trivial
  | @step s rest a b hfollows hb _ ih =>
    refine ⟨fun _ => ⟨a, ho, .step hfollows hb .nil⟩, ih ?_⟩
    exact View.followsAll_append.mpr ⟨a, ho, b, hfollows, rfl⟩
  | @leaf s a hname ha => exact ⟨fun _ => ⟨a, ho, .leaf hname ha⟩, trivial⟩

/-- Segments without filters ask for nothing. -/
theorem passesEach_free (h : ∀ t ∈ front, t.filters = []) :
    PassesEach scope store names (front ++ back) o ↔
      PassesEach scope store (names ++ front.map (·.name)) back o := by
  induction front generalizing names with
  | nil => simp
  | cons t front ih =>
    obtain ⟨ht, hfront⟩ := List.forall_mem_cons.mp h
    simp [PassesEach, ht, ih hfront]

/-- Segments without filters in front of another only have to lead to it. -/
theorem passesAlong_free (h : ∀ t ∈ front, t.filters = []) :
    PassesAlong scope store (front ++ [s]) o ↔
      ∃ a, (scope.view store).FollowsAll (front.map (·.name)) o a ∧
        PassesAlong scope store [s] a := by
  induction front generalizing o with
  | nil => simp [View.FollowsAll]
  | cons t front ih =>
    obtain ⟨ht, hfront⟩ := List.forall_mem_cons.mp h
    constructor
    · intro hpasses
      cases hrest : front ++ [s] with
      | nil => simp at hrest
      | cons next rest =>
        rw [List.cons_append, hrest] at hpasses
        cases hpasses with
        | step hfollows _ hpasses =>
          obtain ⟨a, halong, ha⟩ := (ih hfront).mp (hrest ▸ hpasses)
          exact ⟨a, ⟨_, hfollows, halong⟩, ha⟩
    · rintro ⟨a, ⟨b, hfollows, halong⟩, ha⟩
      have hb : SatisfiesAll scope store t.filters b := by simp [SatisfiesAll, ht]
      exact .step hfollows hb ((ih hfront).mpr ⟨a, halong, ha⟩)

/-- With filters at a single segment, what is asked for is a chain up to it that passes them. -/
theorem passesEach_single (hs : s.filters ≠ []) (hothers : ∀ t ∈ front ++ back, t.filters = []) :
    PassesEach scope store [] (front ++ s :: back) o ↔
      PassesAlong scope store (front ++ [s]) o := by
  obtain ⟨hfront, hback⟩ := List.forall_mem_append.mp hothers
  have hbehind : ∀ names, PassesEach scope store names back o := fun names => by
    simpa [PassesEach] using @passesEach_free scope store names back [] o hback
  rw [passesEach_free hfront, passesAlong_free hfront]
  simp [PassesEach, hs, hbehind]

end Chains

/-! ## Trees that may be missing -/

open Query (Known namesIfAny)

/-- The promoted tree, if there is one, tells of each object of the table whether a property
holds. -/
def TreeMeansIfAny (scope : Scope) (store : Store) (table : String) (raw : Option Query)
    (P : Located → Prop) : Prop :=
  ∀ q, Query.promoteIfAny scope.schema table raw = .ok q → Known (namesIfAny q) →
    ∀ o, (scope.view store).Stores o → o.table = table → (scope.view store).Tells q o (P o)

/-- The promoted trees together tell of each object of the table whether a property holds. -/
def TreesMean (scope : Scope) (store : Store) (table : String) (raws : List (Option Query))
    (P : Located → Prop) : Prop :=
  ∀ qs, Query.promoteAll scope.schema table (raws.filterMap id) = .ok qs →
    Known (qs.flatMap Query.names) → ∀ o, (scope.view store).Stores o → o.table = table →
      ∀ c, (scope.view store).holdsAll qs o = .ok c → (c = true ↔ P o)

section Trees

variable {scope : Scope} {store : Store} {table : String} {raw : Option Query}
  {raws others : List (Option Query)} {P Q : Located → Prop}

theorem TreeMeansIfAny.congr (h : TreeMeansIfAny scope store table raw P)
    (hPQ : ∀ o, o.table = table → (P o ↔ Q o)) : TreeMeansIfAny scope store table raw Q :=
  fun q hq hknown o ho htable c hc => (h q hq hknown o ho htable c hc).trans (hPQ o htable)

theorem treesMean_nil (hP : ∀ o, P o) : TreesMean scope store table [] P := by
  intro qs hqs _ o _ _ c hc
  obtain rfl : [] = qs := Except.ok.inj hqs
  rw [View.holdsAll] at hc
  simp [hP o, ← Except.ok.inj hc]

theorem TreeMeansIfAny.single (h : TreeMeansIfAny scope store table raw P) :
    TreesMean scope store table [raw] P := by
  intro qs hqs hknown o ho htable c hc
  have hlist : [raw].filterMap id = raw.toList := by
    cases raw <;> rfl
  rw [hlist] at hqs
  obtain ⟨q, hq, rfl⟩ := Query.promoteAll_toList hqs
  rw [Query.holdsAll_toList] at hc
  exact h q hq hknown o ho htable c hc

/-- All of the trees tell what the first and the others tell. -/
theorem TreesMean.append (h : TreesMean scope store table raws P)
    (hothers : TreesMean scope store table others Q) :
    TreesMean scope store table (raws ++ others) fun o => P o ∧ Q o := by
  intro qs hqs hknown o ho htable c hc
  rw [List.filterMap_append] at hqs
  obtain ⟨first, second, hfirst, hsecond, rfl⟩ := Query.promoteAll_append hqs
  rw [List.flatMap_append] at hknown
  have hP := h first hfirst (fun name hname => hknown name (List.mem_append_left _ hname)) o ho
    htable
  have hQ := hothers second hsecond (fun name hname => hknown name (List.mem_append_right _ hname))
    o ho htable
  rw [View.holdsAll_append] at hc
  obtain ⟨passes, hpasses, hc⟩ := bind_eq_ok hc
  have hP := hP passes hpasses
  cases passes with
  | false =>
    obtain rfl : false = c := Except.ok.inj hc
    simp [← hP]
  | true => simp [← hP, hQ c hc]

/-- The conjunction of the trees tells what all of them tell. -/
theorem TreesMean.andAll (h : TreesMean scope store table raws P) :
    TreeMeansIfAny scope store table (Query.andAll raws) P := by
  intro q hq hknown o ho htable c hc
  obtain ⟨qs, hqs, hnames, hholds⟩ := Query.promote_andAll hq
  rw [hholds] at hc
  exact h qs hqs (hnames ▸ hknown) o ho htable c hc

/-- The filters of a segment tell whether an object satisfies all of them. -/
theorem buildAll_means {filters : List (List Token)} (h : buildAll scope table filters = .ok raw) :
    TreeMeansIfAny scope store table raw (SatisfiesAll scope store filters) :=
  fun _ hq hknown _ _ ho => allFilters_tells buildIn_agrees_self h hq hknown ho

/-! ## Trees behind links -/

variable (hstore : store.Keyed) (hshare : scope.schema.GroupsShareTargets)

include hstore hshare

/-- The node of a link or a group asks for an object behind it that satisfies its condition. -/
theorem ofLink_means {name target : String}
    (htarget : Query.traversalTarget? scope.schema table name = some target)
    (h : TreeMeansIfAny scope store target raw P) :
    TreeMeansIfAny scope store table (some (Query.ofLink .any name raw)) fun o =>
      ∃ b, (scope.view store).FollowsName name o b ∧ P b := by
  intro q hq hknown o _ htable
  subst htable
  obtain ⟨p, hp, rfl⟩ := map_eq_ok hq
  have hp : Query.promote scope.schema o.table (.link .any name none raw) = .ok p := hp
  rw [Query.promote, Query.traversalTarget, htarget] at hp
  obtain ⟨_, hfound, hp⟩ := bind_eq_ok hp
  obtain rfl := Except.ok.inj hfound
  obtain ⟨_, hnone, hp⟩ := bind_eq_ok hp
  obtain rfl := Except.ok.inj hnone
  obtain ⟨inner, hinner, hp⟩ := bind_eq_ok hp
  obtain rfl : .link .any name none inner = p := Except.ok.inj hp
  have hinside : Known (namesIfAny inner) := by
    simp only [Known, namesIfAny, Option.toList_some, List.flatMap_singleton,
      Query.names_link] at hknown ⊢
    exact fun name hname => hknown name (.tail _ (List.mem_append_right _ hname))
  have htells := @View.node_tells (scope.view store) o .any name none inner
    ((scope.view store).FollowsName name o) (fun _ => True) P
    (View.mem_linked_of_linksOf hstore (View.linksOf_followed (Schema.leads_of_target htarget)))
    (fun t _ c hc => by simpa [View.holdsIfAny] using (Except.ok.inj hc).symm)
    (fun t ht => h inner hinner hinside t (ht.stores hstore) (ht.table_of_target hshare htarget))
  have hexistence : (if inner.isSome then Quantifier.any else Quantifier.any.existence) = .any :=
    ite_self _
  simpa only [hexistence, Quantifier.Ranges, and_true] using htells

end Trees

end Filter

/-! ## Calls -/

namespace Metric

open Filter

/-- A chain of links leads from objects of one table to objects of another, and a tree that is
carried back through it asks for such a chain to an object that satisfies the tree. -/
structure Carries (scope : Scope) (store : Store) (base : String) (links : List String)
    (table : String) : Prop where
  ends : ∀ {o a : Located}, o.table = base → (scope.view store).FollowsAll links o a →
    a.table = table
  means : ∀ {inner : Option Query} {P : Located → Prop},
    TreeMeansIfAny scope store table inner P →
      TreeMeansIfAny scope store base (Query.throughLinks links inner) fun o =>
        ∃ a, (scope.view store).FollowsAll links o a ∧ P a

section Carrying

variable {scope : Scope} {store : Store} {base table target name : String} {links : List String}

theorem carries_nil : Carries scope store base [] base where
  ends ho h := h ▸ ho
  means h := h.congr fun o _ => by simp [View.FollowsAll]

variable (hstore : store.Keyed) (hshare : scope.schema.GroupsShareTargets)

include hstore hshare

theorem Carries.step (h : Carries scope store base links table)
    (htarget : Query.traversalTarget? scope.schema table name = some target) :
    Carries scope store base (links ++ [name]) target where
  ends ho halong := by
    obtain ⟨a, hfront, b, hfollows, rfl⟩ := View.followsAll_append.mp halong
    exact hfollows.table_of_target hshare (h.ends ho hfront ▸ htarget)
  means {inner P} hinner := by
    have hthrough : Query.throughLinks (links ++ [name]) inner =
        Query.throughLinks links (some (Query.ofLink .any name inner)) := by
      simp [Query.throughLinks]
    rw [hthrough]
    refine (h.means (ofLink_means hstore hshare htarget hinner)).congr fun o _ => ?_
    simp only [View.followsAll_append, View.FollowsAll, exists_eq_right]
    constructor
    · rintro ⟨a, hfront, b, hfollows, hb⟩
      exact ⟨b, ⟨a, hfront, hfollows⟩, hb⟩
    · rintro ⟨b, ⟨a, hfront, hfollows⟩, hb⟩
      exact ⟨a, hfront, b, hfollows, hb⟩

/-- The filters of a link or a group, built for the table that it leads to and carried back through
it. -/
theorem linkFilter_means {segment : Segment} {filter : Option Query}
    (hcarries : Carries scope store base links table)
    (htarget : Query.traversalTarget? scope.schema table segment.name = some target)
    (hbuild : buildAll scope target segment.filters = .ok filter) :
    TreeMeansIfAny scope store base (Query.throughLinks (links ++ [segment.name]) filter) fun o =>
      ∃ a, (scope.view store).FollowsAll links o a ∧ PassesAlong scope store [segment] a := by
  have hmeans := (hcarries.step hstore hshare htarget).means (buildAll_means hbuild)
  refine hmeans.congr fun o ho => ?_
  simp only [View.followsAll_append, View.FollowsAll, exists_eq_right]
  constructor
  · rintro ⟨b, ⟨a, halong, hfollows⟩, hb⟩
    exact ⟨a, halong, .step hfollows hb .nil⟩
  · rintro ⟨a, halong, ha⟩
    have hname : scope.schema.Leads a.table segment.name :=
      hcarries.ends ho halong ▸ Schema.leads_of_target htarget
    obtain ⟨b, hfollows, hb⟩ := (passesAlong_of_leads hname).mp ha
    exact ⟨b, ⟨a, halong, hfollows⟩, hb⟩

omit hstore hshare in
/-- The filters of a segment that leads nowhere, built for the table that holds it. -/
theorem holderFilter_means {segment : Segment} {filter : Option Query}
    (hcarries : Carries scope store base links table)
    (hname : ¬scope.schema.Leads table segment.name)
    (hbuild : buildAll scope table segment.filters = .ok filter) :
    TreeMeansIfAny scope store base (Query.throughLinks links filter) fun o =>
      ∃ a, (scope.view store).FollowsAll links o a ∧ PassesAlong scope store [segment] a := by
  refine (hcarries.means (buildAll_means hbuild)).congr fun o ho => ?_
  refine exists_congr fun a => and_congr_right fun halong => ?_
  exact (passesAlong_of_holder (hcarries.ends ho halong ▸ hname)).symm

variable (hgroups : scope.schema.GroupsLead)

include hgroups

/-- The filters of the first segment, carried back from the table that they are about, and those of
the segments behind it. -/
theorem carriedFilters_cons {segment : Segment} {role : FieldRole} {rest : List ResolvedSegment}
    {parts : List (Option Query)} (hcarries : Carries scope store base links table)
    (hrole : scope.schema.role table segment.name = .ok role)
    (h : carriedFilters scope links (⟨segment, table, role⟩ :: rest) = .ok parts) :
    ∃ here others, parts = here ++ others ∧
      carriedFilters scope (links ++ [segment.name]) rest = .ok others ∧
      TreesMean scope store base here fun o => segment.filters ≠ [] →
        ∃ a, (scope.view store).FollowsAll links o a ∧ PassesAlong scope store [segment] a := by
  have hbehind : ∀ {here}, (do
      let others ← carriedFilters scope (links ++ [segment.name]) rest
      return here ++ others) = Except.ok parts → ∃ others, parts = here ++ others ∧
        carriedFilters scope (links ++ [segment.name]) rest = .ok others := by
    intro here h
    obtain ⟨others, hothers, h⟩ := bind_eq_ok h
    exact ⟨others, (Except.ok.inj h).symm, hothers⟩
  unfold carriedFilters at h
  split at h
  · rename_i hempty
    obtain ⟨others, hparts, hothers⟩ := hbehind h
    refine ⟨[], others, hparts, hothers, treesMean_nil fun o hne => ?_⟩
    exact absurd (List.isEmpty_iff.mp hempty) hne
  rename_i hfiltered
  have hne : segment.filters ≠ [] := by simpa using hfiltered
  simp only [hne, ne_eq, not_false_eq_true, forall_const]
  split at h
  · rename_i target htarget
    obtain ⟨filter, hbuild, h⟩ := bind_eq_ok h
    obtain ⟨others, hparts, hothers⟩ := hbehind h
    have htarget := Schema.role_target hrole ▸ htarget
    exact ⟨_, others, hparts, hothers,
      (linkFilter_means hstore hshare hcarries htarget hbuild).single⟩
  · rename_i htarget
    obtain ⟨filter, hbuild, h⟩ := bind_eq_ok h
    obtain ⟨others, hparts, hothers⟩ := hbehind h
    have hname : ¬scope.schema.Leads table segment.name := by
      simp [hgroups.leads_iff hrole, htarget]
    exact ⟨_, others, hparts, hothers, (holderFilter_means hcarries hname hbuild).single⟩

/-- The filters along segments ask for a chain of links to an object that passes the filters, for
each segment that has any. -/
theorem carriedFilters_mean {segment : Segment} {rest : List Segment} {resolved : ResolvedPath}
    {parts : List (Option Query)} (hcarries : Carries scope store base links table)
    (hresolved : scope.schema.resolveFrom table segment rest = .ok resolved)
    (h : carriedFilters scope links resolved.segments = .ok parts) :
    TreesMean scope store base parts (PassesEach scope store links (segment :: rest)) := by
  induction rest generalizing table segment links resolved parts with
  | nil =>
    obtain ⟨role, hrole, hresolved⟩ := bind_eq_ok hresolved
    obtain rfl := Except.ok.inj hresolved
    obtain ⟨here, others, rfl, hothers, hhere⟩ := carriedFilters_cons hstore hshare hgroups hcarries
      (Schema.resolveSegment_yields.of_ok hrole).named h
    obtain rfl := Except.ok.inj hothers
    exact hhere.append (treesMean_nil fun _ => trivial)
  | cons next rest ih =>
    obtain ⟨role, hrole, hresolved⟩ := bind_eq_ok hresolved
    obtain ⟨behind, hbehind, hresolved⟩ := bind_eq_ok hresolved
    obtain rfl := Except.ok.inj hresolved
    have hresolves := Schema.resolveSegment_yields.of_ok hrole
    obtain ⟨target, htarget⟩ := Option.isSome_iff_exists.mp (hresolves.leads rfl)
    rw [htarget, Option.getD_some] at hbehind
    obtain ⟨here, others, rfl, hothers, hhere⟩ := carriedFilters_cons hstore hshare hgroups hcarries
      hresolves.named h
    have hstep := hcarries.step hstore hshare (Schema.role_target hresolves.named ▸ htarget)
    exact hhere.append (ih hstep hbehind hothers)

/-- The filter of a call asks for a chain of links to an object that passes the filters, for each
segment of the path that has any. -/
theorem callPath_means {function : MetricFunction} {keyword : String} {path : Path}
    {names : List String} {filter : Option Query}
    (h : callPath scope table function keyword path = .ok (names, filter)) :
    names = path.names ∧
      TreeMeansIfAny scope store table filter (PassesEach scope store [] path.segments) := by
  obtain ⟨_, -, h⟩ := bind_eq_ok h
  obtain ⟨resolved, hresolved, h⟩ := bind_eq_ok h
  split at h
  · cases h
  obtain ⟨parts, hparts, h⟩ := bind_eq_ok h
  obtain ⟨rfl, rfl⟩ := Prod.ext_iff.mp (Except.ok.inj h)
  exact ⟨(Schema.along_of_resolve hresolved).1,
    (carriedFilters_mean hstore hshare hgroups carries_nil hresolved hparts).andAll⟩

end Carrying

end Metric

end LinkQuery
