import LinkQuery.Proofs.Compiling
import LinkQuery.Proofs.LinkMeaning
import LinkQuery.Proofs.Settling
import LinkQuery.Proofs.Terms
/-!
# What a path means

A path without quantifiers leads from an object through stored objects. Each segment but the last
leads from one object to the next, which has to satisfy the filters of the segment, and the last
one has to find a witness for the tail. The tree of a term holds exactly where there is such a
chain.

Main statements:
- `Filter.chainQuery_means`: the tree of a chain of segments.
- `Compiler.path_term_means`: the compiled filter of a term.
-/
namespace LinkQuery

/-- The last segment of a path. -/
def Path.last (p : Path) : Segment :=
  p.rest.getLastD p.first

theorem Path.last_cons {segment next : Segment} {rest : List Segment} :
    (Path.mk segment (next :: rest)).last = (Path.mk next rest).last :=
  List.getLastD_cons

namespace Filter

/-! ## Chains of objects -/

/-- The value is one that the tail of a term asks for. -/
def Tail.AcceptsValue (type : Option ScalarType) (field : String) (value : Literal) :
    Tail → Prop
  | .bare => True
  | .present => True
  | .compare op (.raw raw) =>
    ∃ expected, literalOf type field raw = .ok expected ∧ op.holds value expected = true
  | .compare .eq (.interval range) =>
    ∃ bounds, range.mapM (literalOf type field) = .ok bounds ∧
      bounds.contains Literal.order value = true
  | _ => False

/-- The object is one that the tail of a term asks for. -/
def Tail.AcceptsObject (o : StoredObject) : Tail → Prop
  | .bare => True
  | .present => True
  | .compare .eq (.raw raw) => o.id = raw.asText
  | _ => False

/-- The compiled filter of a log. -/
def compileIn (scope : Scope) (table : String) (tokens : List Token) : Except QueryError Query := do
  (← buildIn scope table tokens).settle scope.schema table

variable (scope : Scope) (store : Store)

/-- The store seen with the schema of a scope. -/
abbrev Scope.view (scope : Scope) (store : Store) : View := ⟨scope.schema, store⟩

/-- The object satisfies each of the filters, compiled in its table. -/
def SatisfiesAll (filters : List (List Token)) (o : Located) : Prop :=
  ∀ tokens ∈ filters, ∃ q, compileIn scope o.table tokens = .ok q ∧
    (scope.view store).holds q o = .ok true

/-- The link of a segment leads from one object to another. -/
def FollowsLink (segment : Segment) (link : String) (a b : Located) : Prop :=
  if segment.transitive then
    ∃ k, 1 ≤ k ∧ View.Allows segment.depth k ∧ (scope.view store).AtDistance link k a b
  else (scope.view store).Follows link a b

/-- The segment leads from one object to another. -/
def FollowsSegment (segment : Segment) (a b : Located) : Prop :=
  match scope.schema.fieldKind a.table segment.name with
  | .link => FollowsLink scope store segment segment.name a b
  | .crossLink => FollowsLink scope store segment segment.name a b
  | .group => ∃ link ∈ scope.schema.groupLinks a.table segment.name,
      (scope.view store).Follows link a b
  | _ => False

/-- The field of an object has a witness for the tail: a value, or an object behind a link. -/
def FieldWitness (segment : Segment) (tail : Tail) (field : String) (a : Located) : Prop :=
  match scope.schema.fieldKind a.table field with
  | .scalar type => ∃ value ∈ a.object.valuesOf field, tail.AcceptsValue (some type) field value
  | .multiValued type => ∃ value ∈ a.object.valuesOf field, tail.AcceptsValue (some type) field value
  | .system => ∃ value ∈ a.object.valuesOf field, tail.AcceptsValue none field value
  | .link => ∃ b, FollowsLink scope store segment field a b ∧
      SatisfiesAll scope store segment.filters b ∧ tail.AcceptsObject b.object
  | .crossLink => ∃ b, FollowsLink scope store segment field a b ∧
      SatisfiesAll scope store segment.filters b ∧ tail.AcceptsObject b.object
  | _ => False

/-- The segment has a witness for the tail; a group has one at any of its members. -/
def SegmentWitness (segment : Segment) (tail : Tail) (a : Located) : Prop :=
  if scope.schema.fieldKind a.table segment.name = .group then
    ∃ member ∈ scope.schema.groupMembers a.table segment.name,
      FieldWitness scope store segment tail member a
  else FieldWitness scope store segment tail segment.name a

/-- The segments lead from an object through stored objects to a witness for the tail. -/
def ChainWitness (tail : Tail) : Segment → List Segment → Located → Prop
  | segment, [], a => SegmentWitness scope store segment tail a
  | segment, next :: rest, a => ∃ b, FollowsSegment scope store segment a b ∧
      SatisfiesAll scope store segment.filters b ∧ ChainWitness tail next rest b

/-- The segments lead from an object through stored objects to the one that the last segment is
asked of. -/
def LeadsAlong : Segment → List Segment → Located → Located → Prop
  | _, [], a, b => a = b
  | segment, next :: rest, a, b => ∃ t, FollowsSegment scope store segment a t ∧
      SatisfiesAll scope store segment.filters t ∧ LeadsAlong next rest t b

/-- A chain of objects to a witness is one to an object that has it at the last segment. -/
theorem chainWitness_iff {tail : Tail} {segment : Segment} {rest : List Segment} {a : Located} :
    ChainWitness scope store tail segment rest a ↔
      ∃ b, LeadsAlong scope store segment rest a b ∧
        SegmentWitness scope store (Path.mk segment rest).last tail b := by
  induction rest generalizing segment a with
  | nil => simp [ChainWitness, LeadsAlong, Path.last]
  | cons next rest ih =>
    simp only [ChainWitness, LeadsAlong, Path.last_cons, ih]
    constructor
    · rintro ⟨t, hfollows, hfilters, b, halong, hb⟩
      exact ⟨b, ⟨t, hfollows, hfilters, halong⟩, hb⟩
    · rintro ⟨b, ⟨t, hfollows, hfilters, halong⟩, hb⟩
      exact ⟨t, hfollows, hfilters, b, halong, hb⟩

/-! ## Parts of a tree -/

open Query (Known namesIfAny)

variable {scope : Scope} {store : Store} {nested : Nested} {table : String}

/-- What is built inside a filter is what the log builds on its own. -/
def Nested.Agrees (scope : Scope) (nested : Nested) : Prop :=
  ∀ table tokens q, nested table tokens = .ok q → buildIn scope table tokens = .ok q

/-- The promoted filters of a segment tell whether an object satisfies each of them. -/
theorem allFilters_tells (hnested : nested.Agrees scope) {filters : List (List Token)}
    {filter promoted : Option Query} (hfilter : allFilters nested table filters = .ok filter)
    (hpromote : Query.promoteIfAny scope.schema table filter = .ok promoted)
    (hknown : Known (namesIfAny promoted)) {o : Located} (ho : o.table = table) :
    (scope.view store).Tells promoted o (SatisfiesAll scope store filters o) := by
  subst ho
  obtain ⟨parts, hparts, hfilter⟩ := bind_eq_ok hfilter
  obtain rfl : Query.andAll (parts.map some) = filter := Except.ok.inj hfilter
  obtain ⟨qs, hqs, hnames, hholds⟩ := Query.promote_andAll hpromote
  have hsome : (parts.map some).filterMap id = parts := by simp [List.filterMap_map]
  rw [hsome, Query.promoteAll_eq_mapM] at hqs
  obtain ⟨hbuilt, hfrom⟩ := mem_mapM hparts
  obtain ⟨hpromoted, hback⟩ := mem_mapM hqs
  -- Compiling a filter on its own gives the part that it is in the tree.
  have hcompile : ∀ tokens part q, nested o.table tokens = .ok part → q ∈ qs →
      Query.promote scope.schema o.table part = .ok q →
      compileIn scope o.table tokens = .ok q := by
    intro tokens part q hpart hq hpromote
    have hknown : Known q.names := fun name hname =>
      hknown name (hnames ▸ List.mem_flatMap.mpr ⟨q, hq, hname⟩)
    rw [compileIn, hnested _ _ _ hpart]
    exact Query.settle_eq_ok_iff.mpr ⟨hpromote, hknown⟩
  intro c hc
  rw [hholds] at hc
  have htrue : c = true ↔ (scope.view store).holdsAll qs o = .ok true := by simp [hc]
  rw [htrue, View.holdsAll_iff]
  constructor
  · intro hall tokens htokens
    obtain ⟨part, hmem, hpart⟩ := hbuilt tokens htokens
    obtain ⟨q, hq, hpromote⟩ := hpromoted part hmem
    exact ⟨q, hcompile _ _ _ hpart hq hpromote, hall q hq⟩
  · intro hall q hq
    obtain ⟨part, hmem, hpromote⟩ := hback q hq
    obtain ⟨tokens, htokens, hpart⟩ := hfrom part hmem
    obtain ⟨found, hfound, hholds⟩ := hall tokens htokens
    rw [hcompile _ _ _ hpart hq hpromote] at hfound
    exact Except.ok.inj hfound ▸ hholds

/-- The tree of a filter and a condition tells what both tell. -/
theorem both_tells {filter condition q : Option Query}
    (h : Query.promoteIfAny scope.schema table (Query.andAll [filter, none, condition]) = .ok q)
    (hknown : Known (namesIfAny q)) :
    ∃ first second, Query.promoteIfAny scope.schema table filter = .ok first ∧
      Query.promoteIfAny scope.schema table condition = .ok second ∧
      Known (namesIfAny first) ∧ Known (namesIfAny second) ∧
      ∀ (v : View) (o : Located) (F P : Prop), v.Tells first o F → v.Tells second o P →
        v.Tells q o (F ∧ P) := by
  obtain ⟨qs, hqs, hnames, hholds⟩ := Query.promote_andAll h
  have hlist : [filter, none, condition].filterMap id = filter.toList ++ condition.toList := by
    cases filter <;> cases condition <;> rfl
  rw [hlist] at hqs
  obtain ⟨front, back, hfront, hback, rfl⟩ := Query.promoteAll_append hqs
  obtain ⟨first, hfirst, rfl⟩ := Query.promoteAll_toList hfront
  obtain ⟨second, hsecond, rfl⟩ := Query.promoteAll_toList hback
  rw [List.flatMap_append] at hnames
  refine ⟨first, second, hfirst, hsecond, fun name hname => ?_, fun name hname => ?_, ?_⟩
  · exact hknown name (hnames ▸ List.mem_append_left _ hname)
  · exact hknown name (hnames ▸ List.mem_append_right _ hname)
  · intro v o F P hF hP c hc
    rw [hholds, View.holdsAll_append, Query.holdsAll_toList, Query.holdsAll_toList] at hc
    cases hfilter : v.holdsIfAny first o with
    | error why =>
      rw [hfilter] at hc
      cases hc
    | ok passes =>
      rw [hfilter] at hc
      have hF := hF passes hfilter
      cases passes with
      | false =>
        obtain rfl : false = c := Except.ok.inj hc
        simp [← hF]
      | true => simp [← hF, hP c hc]

/-! ## Links -/

/-- The promoted tree tells of each object of the table whether a property holds. -/
def TreeMeans (scope : Scope) (store : Store) (table : String) (raw : Query)
    (P : Located → Prop) : Prop :=
  ∀ q, Query.promote scope.schema table raw = .ok q → Known q.names →
    ∀ o, (scope.view store).Stores o → o.table = table → (scope.view store).Tells (some q) o (P o)

theorem TreeMeans.not {raw : Query} {P : Located → Prop} (h : TreeMeans scope store table raw P) :
    TreeMeans scope store table (Query.not raw) fun o => ¬P o := by
  intro q hq hknown o ho htable c hc
  obtain ⟨p, hp, hnames, hholds⟩ := Query.promote_not hq
  have htells := h p hp (hnames ▸ hknown) o ho htable (!c)
  rw [View.holdsIfAny] at hc htells
  have hopposite : (!c) = true ↔ P o := htells (by rw [hholds, hc]; rfl)
  show c = true ↔ ¬P o
  rw [← hopposite]
  cases c <;> simp

/-- The property is what stands behind a segment asks of the objects that the segment leads to. -/
def BehindMeans (scope : Scope) (store : Store) (tail : Tail) (P : Located → Prop) :
    Option Onward → Prop
  | none => ∀ o, P o ↔ tail.AcceptsObject o.object
  | some onward => ∀ table raw, onward.build table tail = .ok raw → TreeMeans scope store table raw P

/-- The tail asks for something to be there, and not for how many. -/
structure Tail.AsksForOne (tail : Tail) : Prop where
  notMissing : tail ≠ .missing
  notCount : tail.isCount = false

/-- The segment asks whether something is there: it has no condition and is not inside `ALL`. -/
structure AsksForExistence (segment : Segment) : Prop where
  unconditioned : segment.condition = none
  notAll : segment.quantifier ≠ some .all

theorem asksForExistence_of_plain {segment : Segment} (hplain : segment.isQuantified = false) :
    segment.quantifier = none ∧ AsksForExistence segment := by
  obtain ⟨hquantifier, hcondition⟩ : segment.quantifier = none ∧ segment.condition = none := by
    simpa [Segment.isQuantified] using hplain
  exact ⟨hquantifier, hcondition, by simp [hquantifier]⟩

theorem AsksForExistence.existence {segment : Segment} (h : AsksForExistence segment) :
    (traversalQuantifier segment.quantifier).existence = traversalQuantifier segment.quantifier := by
  have hall := h.notAll
  cases hquantifier : segment.quantifier with
  | none => rfl
  | some quantifier =>
    rw [hquantifier] at hall
    cases quantifier with
    | all => exact absurd rfl hall
    | any | none | count => rfl

/-- A segment that is not inside `NONE` asks for something to be there. -/
theorem AsksForExistence.eq_any {segment : Segment} (h : AsksForExistence segment)
    (hnone : segment.quantifier ≠ some .none) : traversalQuantifier segment.quantifier = .any := by
  have hall := h.notAll
  cases hquantifier : segment.quantifier with
  | none => rfl
  | some quantifier =>
    rw [hquantifier] at hall hnone
    cases quantifier with
    | all => exact absurd rfl hall
    | none => exact absurd rfl hnone
    | any | count => rfl

theorem follows_table {v : View} {name target : String} {a b : Located}
    (hlink : v.schema.linkTarget? a.table name = some target) (h : v.Follows name a b) :
    b.table = target :=
  Option.some.inj (h.1.symm.trans hlink)

section Links

variable (hstore : store.Keyed) (hnested : nested.Agrees scope) {segment : Segment}
  {target : String} {tail : Tail} {raw : Query} {P : Located → Prop}

include hstore

/-- The node of a link asks its condition of the objects behind it that satisfy its filter. -/
theorem quantifiedLink_means {quantifier : Quantifier} {name : String} {filter inner : Option Query}
    {F P : Located → Prop} (hlead : scope.schema.LeadsTo table name target)
    (hfilter : ∀ f, Query.promoteIfAny scope.schema target filter = .ok f → Known (namesIfAny f) →
      ∀ o, (scope.view store).Stores o → o.table = target → (scope.view store).Tells f o (F o))
    (hinner : ∀ i, Query.promoteIfAny scope.schema target inner = .ok i → Known (namesIfAny i) →
      ∀ o, (scope.view store).Stores o → o.table = target → (scope.view store).Tells i o (P o)) :
    TreeMeans scope store table (.link quantifier name filter inner) fun o =>
      (if inner.isSome then quantifier else quantifier.existence).Ranges
        (fun b => (scope.view store).Follows name o b ∧ F b) P := by
  intro q hq hknown o ho htable
  subst htable
  rw [Query.promote, Query.traversalTarget_of_leadsTo hlead] at hq
  obtain ⟨_, hfound, hq⟩ := bind_eq_ok hq
  obtain rfl := Except.ok.inj hfound
  obtain ⟨f, hf, hq⟩ := bind_eq_ok hq
  obtain ⟨i, hi, hq⟩ := bind_eq_ok hq
  obtain rfl : .link quantifier name f i = q := Except.ok.inj hq
  have hnames : Query.names (.link quantifier name f i) =
      name :: (namesIfAny f ++ namesIfAny i) := by
    cases f <;> cases i <;>
      simp [Query.names, Query.nodes, Query.nodesIfAny, Query.ownNames, namesIfAny]
  rw [hnames] at hknown
  have hsome : i.isSome = inner.isSome := by
    cases inner with
    | none =>
      obtain rfl := Except.ok.inj hi
      rfl
    | some inner =>
      obtain ⟨_, _, rfl⟩ := map_eq_ok hi
      rfl
  rw [← hsome]
  refine View.quantifiedLink_tells hstore hlead.1 (fun t ht => ?_) (fun t ht => ?_)
  · exact hfilter f hf (fun name hname => hknown name (.tail _ (List.mem_append_left _ hname)))
      t (ht.stores hstore) (follows_table hlead.2 ht)
  · exact hinner i hi (fun name hname => hknown name (.tail _ (List.mem_append_right _ hname)))
      t (ht.stores hstore) (follows_table hlead.2 ht)

/-- The node of a link asks for an object behind it that satisfies its filter and its condition,
or for there to be none. -/
theorem link_means {quantifier : Quantifier} {name : String} {filter inner : Option Query}
    {F P : Located → Prop} (hexistence : quantifier.existence = quantifier)
    (hlead : scope.schema.LeadsTo table name target)
    (hfilter : ∀ f, Query.promoteIfAny scope.schema target filter = .ok f → Known (namesIfAny f) →
      ∀ o, (scope.view store).Stores o → o.table = target → (scope.view store).Tells f o (F o))
    (hinner : ∀ i, Query.promoteIfAny scope.schema target inner = .ok i → Known (namesIfAny i) →
      ∀ o, (scope.view store).Stores o → o.table = target → (scope.view store).Tells i o (P o)) :
    TreeMeans scope store table (.link quantifier name filter inner) fun o =>
      quantifier.Asks (∃ b, (scope.view store).Follows name o b ∧ F b ∧ P b) := by
  have hmeans := @quantifiedLink_means _ _ _ hstore _ quantifier _ _ _ _ _ hlead hfilter hinner
  simpa only [hexistence, ite_self, Quantifier.ranges_iff_asks hexistence, and_assoc] using hmeans

/-- The node of a link and an identity asks for the object with the identity behind the link. -/
theorem linkId_means {quantifier : Quantifier} {name id : String}
    (hexistence : quantifier.existence = quantifier)
    (hlead : scope.schema.LeadsTo table name target) :
    TreeMeans scope store table (.linkId quantifier name id) fun o =>
      quantifier.Asks (∃ b, (scope.view store).Follows name o b ∧ b.object.id = id) := by
  intro q hq _ o _ htable c hc
  subst htable
  rw [Query.promote, Query.traversalTarget_of_leadsTo hlead] at hq
  obtain rfl : .linkId quantifier name id = q := Except.ok.inj hq
  obtain ⟨found, hfound, hmem⟩ := View.mem_linked (v := scope.view store) hstore hlead.1
  rw [View.holdsIfAny, View.holds, hfound] at hc
  have hc : quantifier.holds (found.countP (·.object.id == id)) found.length = c :=
    Except.ok.inj hc
  rw [← hc, Quantifier.holds_countP hexistence]
  simp only [hmem, beq_iff_eq]

omit hstore in
theorem nothing_means {i : Option Query} {o : Located}
    (h : Query.promoteIfAny scope.schema target none = .ok i) :
    (scope.view store).Tells i o True := by
  rw [Query.promoteIfAny] at h
  obtain rfl := Except.ok.inj h
  intro c hc
  rw [View.holdsIfAny] at hc
  simpa using (Except.ok.inj hc).symm

omit hstore in
theorem objectId_means {i : Option Query} {o : Located} {id : String}
    (h : Query.promoteIfAny scope.schema target (some (.objectId id)) = .ok i) :
    (scope.view store).Tells i o (o.object.id = id) := by
  simp only [Query.promoteIfAny, Query.promote] at h
  obtain rfl : some (.objectId id) = i := Except.ok.inj h
  intro c hc
  rw [View.holdsIfAny, View.holds] at hc
  rw [← Except.ok.inj hc, beq_iff_eq]

include hnested

/-- The tree of a link that ends its path. -/
theorem linkEnd_means {quantifier : Quantifier} (hexistence : quantifier.existence = quantifier)
    (hlead : scope.schema.LeadsTo table segment.name target) (htail : tail.AsksForOne)
    {filter : Option Query} (hfilter : allFilters nested target segment.filters = .ok filter)
    (h : linkEnd quantifier segment.name filter tail = .ok raw) :
    TreeMeans scope store table raw fun o =>
      quantifier.Asks (∃ b, (scope.view store).Follows segment.name o b ∧
        SatisfiesAll scope store segment.filters b ∧ tail.AcceptsObject b.object) := by
  have hfiltered : ∀ f, Query.promoteIfAny scope.schema target filter = .ok f →
      Known (namesIfAny f) → ∀ o, (scope.view store).Stores o → o.table = target →
      (scope.view store).Tells f o (SatisfiesAll scope store segment.filters o) :=
    fun f hf hknown o _ ho => allFilters_tells hnested hfilter hf hknown ho
  cases tail with
  | missing => exact absurd rfl htail.notMissing
  | count test => cases htail.notCount
  | bare =>
    obtain rfl := Except.ok.inj h
    have hmeans := link_means hstore hexistence hlead (F := fun _ => True)
      (fun f hf _ o _ _ => nothing_means hf) hfiltered
    simpa [Tail.AcceptsObject] using hmeans
  | present =>
    obtain rfl := Except.ok.inj h
    exact link_means hstore hexistence hlead hfiltered fun i hi _ o _ _ => nothing_means hi
  | compare op value =>
    obtain ⟨raw, rfl, rfl⟩ : ∃ raw, op = .eq ∧ value = .raw raw := by
      cases op <;> cases value <;> first | exact ⟨_, rfl, rfl⟩ | cases h
    cases filter with
    | some filter =>
      obtain rfl := Except.ok.inj h
      exact link_means hstore hexistence hlead hfiltered fun i hi _ o _ _ => objectId_means hi
    | none =>
      obtain rfl := Except.ok.inj h
      have hall : ∀ o, (scope.view store).Stores o → o.table = target →
          SatisfiesAll scope store segment.filters o := fun o ho htable =>
        (hfiltered none rfl (by simp [Known, namesIfAny]) o ho htable true
          (by rw [View.holdsIfAny])).mp rfl
      intro q hq hknown o ho htable c hc
      rw [linkId_means hstore hexistence hlead q hq hknown o ho htable c hc]
      refine Quantifier.asks_congr (exists_congr fun b => and_congr_right fun hfollows => ?_)
      have hb := hall b (hfollows.stores hstore) (follows_table (htable ▸ hlead.2) hfollows)
      exact ⟨fun hid => ⟨hb, hid⟩, fun h => h.2⟩

/-- The tree of a link at the end of its path asks for an object behind it that the tail accepts. -/
theorem linkQuery_ends (hlead : scope.schema.LeadsTo table segment.name target)
    (hasks : AsksForExistence segment) (htail : tail.AsksForOne)
    (h : linkQuery nested segment target none tail = .ok raw) :
    TreeMeans scope store table raw fun o => (traversalQuantifier segment.quantifier).Asks
      (∃ b, (scope.view store).Follows segment.name o b ∧
        SatisfiesAll scope store segment.filters b ∧ tail.AcceptsObject b.object) := by
  obtain ⟨filter, hfilter, h⟩ := bind_eq_ok h
  simp only [hasks.unconditioned] at h
  exact linkEnd_means hstore hnested hasks.existence hlead htail hfilter h

/-- The tree of a link asks for an object behind it to go on from. -/
theorem linkQuery_follows (hlead : scope.schema.LeadsTo table segment.name target)
    (hplain : segment.isQuantified = false) {onward : Onward}
    (hbehind : BehindMeans scope store tail P (some onward))
    (h : linkQuery nested segment target (some onward) tail = .ok raw) :
    TreeMeans scope store table raw fun o => ∃ b, (scope.view store).Follows segment.name o b ∧
      SatisfiesAll scope store segment.filters b ∧ P b := by
  obtain ⟨hquantifier, hasks⟩ := asksForExistence_of_plain hplain
  obtain ⟨filter, hfilter, h⟩ := bind_eq_ok h
  simp only [hquantifier, hasks.unconditioned] at h
  obtain ⟨inner, hinner, h⟩ := bind_eq_ok h
  obtain rfl := Except.ok.inj h
  rw [behindLink, if_neg (by simp [Segment.isUniversal, hquantifier])] at hinner
  refine @link_means _ _ _ hstore _ Quantifier.any _ _ _ _ _ rfl hlead
    (fun f hf hknown o _ ho => allFilters_tells hnested hfilter hf hknown ho)
    fun i hi hknown o ho htable => ?_
  obtain ⟨q, hq, rfl⟩ := map_eq_ok hi
  exact hbehind target inner hinner q hq (by simpa [namesIfAny] using hknown) o ho htable

/-- The object is reached by following the link of a segment repeatedly, and satisfies the filters
of the segment. -/
def Reaches (scope : Scope) (store : Store) (segment : Segment) (a b : Located) : Prop :=
  (∃ k, 1 ≤ k ∧ View.Allows segment.depth k ∧
    (scope.view store).AtDistance segment.name k a b) ∧ SatisfiesAll scope store segment.filters b

/-- The node of a link that is followed repeatedly asks for an object that it reaches. -/
theorem traversal_means (hlead : scope.schema.LeadsTo table segment.name table)
    {filter continuation : Option Query}
    (hfilter : allFilters nested table segment.filters = .ok filter)
    (hcontinue : ∀ i, Query.promoteIfAny scope.schema table continuation = .ok i →
      Known (namesIfAny i) → ∀ o, (scope.view store).Stores o → o.table = table →
      (scope.view store).Tells i o (P o)) :
    TreeMeans scope store table (.transitiveLink segment.name segment.depth
      (Query.andAll [filter, none, continuation])) fun o =>
      ∃ b, Reaches scope store segment o b ∧ P b := by
  intro q hq hknown o ho htable
  subst htable
  rw [Query.promote, Query.traversalTarget_of_leadsTo hlead] at hq
  obtain ⟨_, hfound, hq⟩ := bind_eq_ok hq
  obtain rfl := Except.ok.inj hfound
  obtain ⟨inner, hinner, hq⟩ := bind_eq_ok hq
  obtain rfl : .transitiveLink segment.name segment.depth inner = q := Except.ok.inj hq
  have hnames : Query.names (.transitiveLink segment.name segment.depth inner) =
      segment.name :: namesIfAny inner := by
    cases inner <;> simp [Query.names, Query.nodes, Query.nodesIfAny, Query.ownNames, namesIfAny]
  rw [hnames] at hknown
  obtain ⟨first, second, hfirst, hsecond, hknownfirst, hknownsecond, hboth⟩ :=
    both_tells hinner fun name hname => hknown name (.tail _ hname)
  simp only [Reaches, and_assoc]
  exact View.transitiveLink_tells hstore hlead ho fun t ht htable => hboth _ t _ _
    (allFilters_tells hnested hfilter hfirst hknownfirst htable)
    (hcontinue second hsecond hknownsecond t ht htable)

omit hstore hnested in
/-- A quantifier around a traversal asks for it to succeed or to fail. -/
theorem quantifiedRepeat_means {quantifier : Option Quantifier} {traversal : Query} {link : String}
    (htraversal : TreeMeans scope store table traversal P)
    (h : quantifiedRepeat link quantifier traversal = .ok raw) :
    TreeMeans scope store table raw fun o => (traversalQuantifier quantifier).Asks (P o) := by
  cases quantifier with
  | none =>
    obtain rfl := Except.ok.inj h
    exact htraversal
  | some quantifier =>
    cases quantifier with
    | any =>
      obtain rfl := Except.ok.inj h
      exact htraversal
    | none =>
      obtain rfl := Except.ok.inj h
      exact htraversal.not
    | all => cases h
    | count => cases h

/-- The tree of a link that is followed repeatedly and ends its path. -/
theorem repeatedLinkQuery_ends (hlead : scope.schema.LeadsTo table segment.name table)
    (hasks : AsksForExistence segment) (htail : tail.AsksForOne)
    (h : repeatedLinkQuery nested segment table none tail = .ok raw) :
    TreeMeans scope store table raw fun o => (traversalQuantifier segment.quantifier).Asks
      (∃ b, Reaches scope store segment o b ∧ tail.AcceptsObject b.object) := by
  obtain ⟨filter, hfilter, h⟩ := bind_eq_ok h
  obtain ⟨condition, hnone, h⟩ := bind_eq_ok h
  rw [repeatedCondition, hasks.unconditioned] at hnone
  obtain rfl := Except.ok.inj hnone
  obtain ⟨continuation, hcontinuation, h⟩ := bind_eq_ok h
  dsimp only at h
  rw [if_neg (by simp [htail.notMissing])] at h
  refine quantifiedRepeat_means (traversal_means hstore hnested hlead hfilter ?_) h
  intro i hi _ o _ _
  cases tail with
  | missing => exact absurd rfl htail.notMissing
  | count test => cases htail.notCount
  | bare | present =>
    obtain rfl := Except.ok.inj hcontinuation
    exact nothing_means hi
  | compare op value =>
    obtain ⟨raw, rfl, rfl⟩ : ∃ raw, op = .eq ∧ value = .raw raw := by
      cases op <;> cases value <;> first | exact ⟨_, rfl, rfl⟩ | cases hcontinuation
    obtain rfl := Except.ok.inj hcontinuation
    exact objectId_means hi

omit hstore hnested in
/-- Nothing comes behind a quantified condition. -/
theorem repeatedCondition_follows {condition : Option Query}
    (h : repeatedCondition nested segment target false tail = .ok condition) :
    condition = none := by
  unfold repeatedCondition at h
  split at h
  · exact (Except.ok.inj h).symm
  · rename_i found _
    by_cases hany : found.quantifier ≠ .any
    · simp only [if_pos hany] at h
      cases h
    · simp only [if_neg hany] at h
      cases h

/-- The tree of a link that is followed repeatedly with further segments behind it. -/
theorem repeatedLinkQuery_follows (hlead : scope.schema.LeadsTo table segment.name table)
    {onward : Onward}
    (hbehind : BehindMeans scope store tail P (some onward))
    (h : repeatedLinkQuery nested segment table (some onward) tail = .ok raw) :
    TreeMeans scope store table raw fun o => (traversalQuantifier segment.quantifier).Asks
      (∃ b, Reaches scope store segment o b ∧ P b) := by
  obtain ⟨filter, hfilter, h⟩ := bind_eq_ok h
  obtain ⟨condition, hnone, h⟩ := bind_eq_ok h
  obtain rfl := repeatedCondition_follows hnone
  obtain ⟨continuation, hcontinuation, h⟩ := bind_eq_ok h
  obtain ⟨inner, hinner, rfl⟩ := map_eq_ok hcontinuation
  refine quantifiedRepeat_means (traversal_means hstore hnested hlead hfilter ?_) h
  intro i hi hknown o ho htable
  obtain ⟨q, hq, rfl⟩ := map_eq_ok hi
  exact hbehind table inner hinner q hq (by simpa [namesIfAny] using hknown) o ho htable

end Links

/-! ## Values -/

section Values

variable {field : String} {several : Bool}

theorem Literal.beq_text (a b : String) : (Literal.text a == Literal.text b) = (a == b) := rfl

/-- A comparison asks for a value that compares; equality with an identity is one as well. -/
theorem comparison_means {type : Option ScalarType} {op : CompareOp} {expected : Literal}
    (hvalue : scope.schema.valueType? table field = some (type, several))
    (htext : type = none → ∃ text, expected = .text text) :
    TreeMeans scope store table (.comparison field op expected) fun o =>
      ∃ value ∈ o.object.valuesOf field, op.holds value expected = true := by
  intro q hq _ o _ _ c hc
  have hkept : q = .comparison field op expected → (c = true ↔
      ∃ value ∈ o.object.valuesOf field, op.holds value expected = true) := by
    rintro rfl
    rw [View.holdsIfAny, View.holds] at hc
    rw [← Except.ok.inj hc, View.hasValue, List.any_eq_true]
  cases type with
  | some type =>
    rw [Query.promote_comparison hvalue] at hq
    exact hkept (Except.ok.inj hq).symm
  | none =>
    obtain ⟨text, rfl⟩ := htext rfl
    simp only [Query.promote, Query.promoteComparison] at hq
    split at hq
    · rename_i hsystem
      cases op with
      | eq =>
        obtain rfl : .objectId text = q := Except.ok.inj hq
        rw [View.holdsIfAny, View.holds] at hc
        have hvalues : o.object.valuesOf field = [.text o.object.id] := if_pos hsystem
        simp [← Except.ok.inj hc, hvalues, CompareOp.holds, Literal.beq_text]
      | contains => cases hq
      | lt => exact hkept (Except.ok.inj hq).symm
      | le => exact hkept (Except.ok.inj hq).symm
      | gt => exact hkept (Except.ok.inj hq).symm
      | ge => exact hkept (Except.ok.inj hq).symm
    · unfold Schema.valueType? at hvalue
      cases hkind : scope.schema.fieldKind table field <;> rw [hkind] at hvalue hq <;>
        cases hvalue
      exact hkept (Except.ok.inj hq).symm

theorem interval_means {range : Interval Literal} :
    TreeMeans scope store table (.interval field range) fun o =>
      ∃ value ∈ o.object.valuesOf field, range.contains Literal.order value = true := by
  intro q hq _ o _ _ c hc
  simp only [Query.promote] at hq
  obtain rfl := Except.ok.inj hq
  rw [View.holdsIfAny, View.holds] at hc
  rw [← Except.ok.inj hc, View.hasValue, List.any_eq_true]

/-- A value of a field with several has to pass the test, or none may. -/
theorem multiValue_means {quantifier : Quantifier} {test : Query} {passes : Literal → Bool}
    (hexistence : quantifier.existence = quantifier)
    (htest : ∀ q, Query.promote scope.schema table test = .ok q →
      ∀ found, View.valueTest? q = some found → found = (field, passes)) :
    TreeMeans scope store table (.multiValue quantifier test) fun o =>
      quantifier.Asks (∃ value ∈ o.object.valuesOf field, passes value = true) := by
  intro q hq _ o _ _ c hc
  rw [Query.promote] at hq
  obtain ⟨inner, hinner, hq⟩ := bind_eq_ok hq
  obtain rfl : .multiValue quantifier inner = q := Except.ok.inj hq
  rw [View.holdsIfAny, View.holds, View.quantified] at hc
  cases hfound : View.valueTest? inner with
  | none =>
    rw [hfound] at hc
    cases hc
  | some found =>
    obtain rfl := htest inner hinner found hfound
    rw [hfound] at hc
    have hc : quantifier.holds ((o.object.valuesOf field).countP passes)
        (o.object.valuesOf field).length = c := Except.ok.inj hc
    rw [← hc, Quantifier.holds_countP hexistence]

theorem hasValue_means {type : Option ScalarType}
    (hvalue : scope.schema.valueType? table field = some (type, several)) :
    TreeMeans scope store table (hasValue type field) fun o =>
      ∃ value ∈ o.object.valuesOf field, True := by
  intro q hq _ o _ _ c hc
  simp only [and_true, ← List.length_pos_iff_exists_mem]
  cases type with
  | some type =>
    simp only [hasValue, Option.isSome_some, if_true, Query.promote] at hq
    obtain rfl := Except.ok.inj hq
    rw [View.holdsIfAny, View.holds] at hc
    rw [← Except.ok.inj hc]
    simp [Interval.hasCount, Interval.contains, Interval.reachesMin, Interval.withinMax,
      Interval.atLeastOne, Nat.compare_eq_gt]
  | none =>
    simp only [hasValue, Option.isSome_none, Bool.false_eq_true, if_false, Query.promote] at hq
    obtain rfl := Except.ok.inj hq
    rw [View.holdsIfAny, View.holds] at hc
    have hsystem : Schema.isSystemField field = true := by
      refine Schema.isSystemField_of_kind (?_ : scope.schema.fieldKind table field = .system)
      unfold Schema.valueType? at hvalue
      cases hkind : scope.schema.fieldKind table field <;> rw [hkind] at hvalue <;> cases hvalue
    have hvalues : o.object.valuesOf field = [.text o.object.id] := if_pos hsystem
    simp [← Except.ok.inj hc, hvalues]

theorem literalOf_none {value : RawValue} {literal : Literal}
    (h : literalOf none field value = .ok literal) : ∃ text, literal = .text text :=
  ⟨value.asText, (Except.ok.inj h).symm⟩

/-- The tests of a field that are written as a comparison. -/
theorem valueTest_of_comparison {type : Option ScalarType} {op : CompareOp} {expected : Literal}
    (hvalue : scope.schema.valueType? table field = some (type, several)) :
    ∀ q, Query.promote scope.schema table (.comparison field op expected) = .ok q →
      ∀ found, View.valueTest? q = some found → found = (field, (op.holds · expected)) := by
  intro q hq found hfound
  rcases (Query.promote_comparison_cases hvalue).of_ok hq with rfl | rfl
  · exact (Option.some.inj hfound).symm
  · cases hfound

/-- The tree of a field asks for a value that its tail accepts, or for there to be none. Only a
comparison heeds a quantifier. -/
theorem leafQuery_means {type : Option ScalarType} {segment : Segment} {tail : Tail} {raw : Query}
    (hvalue : scope.schema.valueType? table segment.name = some (type, several))
    (hasks : AsksForExistence segment) (htail : tail.AsksForOne)
    (hheeds : segment.quantifier = some .none → tail.isComparison = true)
    (h : leafQuery type several segment tail = .ok raw) :
    TreeMeans scope store table raw fun o => (traversalQuantifier segment.quantifier).Asks
      (∃ value ∈ o.object.valuesOf segment.name, tail.AcceptsValue type segment.name value) := by
  have hrestricted : ¬segment.isRestricted = true := by
    intro hrestricted
    rw [leafQuery, if_pos hrestricted] at h
    cases h
  rw [leafQuery, if_neg hrestricted] at h
  obtain ⟨test, htest, h⟩ := bind_eq_ok h
  cases tail with
  | missing => exact absurd rfl htail.notMissing
  | count test => cases htail.notCount
  | bare | present =>
    obtain rfl := Except.ok.inj htest
    obtain rfl := Except.ok.inj h
    rw [hasks.eq_any fun hnone => Bool.false_ne_true (hheeds hnone)]
    exact hasValue_means hvalue
  | compare op value =>
    -- The test of a value is wrapped exactly where there is a quantifier or several values.
    have hwrapped : (segment.quantifier = none ∧ raw = test) ∨
        raw = .multiValue (traversalQuantifier segment.quantifier) test := by
      cases hquantifier : segment.quantifier with
      | none =>
        cases several with
        | true =>
          simp only [Tail.isComparison, hquantifier, quantifiedTest, Bool.true_or, Bool.true_and,
            if_true] at h
          exact Or.inr (Except.ok.inj h).symm
        | false =>
          simp only [Tail.isComparison, hquantifier, Option.isSome_none, Bool.or_self,
            Bool.and_false, Bool.false_eq_true, if_false] at h
          exact Or.inl ⟨rfl, (Except.ok.inj h).symm⟩
      | some quantifier =>
        simp only [Tail.isComparison, hquantifier, Option.isSome_some, Bool.or_true, Bool.true_and,
          if_true] at h
        cases quantifier with
        | count => cases h
        | any | all | none => exact Or.inr (Except.ok.inj h).symm
    cases value with
    | raw written =>
      obtain ⟨expected, hexpected, htest⟩ := bind_eq_ok htest
      obtain rfl := Except.ok.inj htest
      have haccepts : ∀ value, (Tail.compare op (.raw written)).AcceptsValue type segment.name
          value ↔ op.holds value expected = true := by
        intro value
        simp only [Tail.AcceptsValue, hexpected, Except.ok.injEq, exists_eq_left']
      simp only [haccepts]
      rcases hwrapped with ⟨hquantifier, rfl⟩ | rfl
      · rw [hquantifier]
        exact comparison_means hvalue fun hnone => literalOf_none (hnone ▸ hexpected)
      · exact multiValue_means hasks.existence (valueTest_of_comparison hvalue)
    | interval range =>
      obtain rfl : op = .eq := by
        cases op <;> first | rfl | cases htest
      obtain ⟨bounds, hbounds, htest⟩ := bind_eq_ok htest
      obtain rfl := Except.ok.inj htest
      have haccepts : ∀ value, (Tail.compare .eq (.interval range)).AcceptsValue type segment.name
          value ↔ bounds.contains Literal.order value = true := by
        intro value
        simp only [Tail.AcceptsValue, hbounds, Except.ok.injEq, exists_eq_left']
      simp only [haccepts]
      rcases hwrapped with ⟨hquantifier, rfl⟩ | rfl
      · rw [hquantifier]
        exact interval_means
      · refine multiValue_means hasks.existence fun q hq found hfound => ?_
        simp only [Query.promote] at hq
        obtain rfl := Except.ok.inj hq
        exact (Option.some.inj hfound).symm

end Values

/-! ## Segments -/

section Segments

variable (hstore : store.Keyed) (hnested : nested.Agrees scope) {segment : Segment} {tail : Tail}
  {raw : Query} {P : Located → Prop} {role : FieldRole}

include hstore hnested

/-- The tree of a link at the end of its path, followed once or repeatedly. -/
theorem anyLinkQuery_ends {target : String}
    (hlead : scope.schema.LeadsTo table segment.name target)
    (hloops : segment.transitive = true → target = table) (hasks : AsksForExistence segment)
    (htail : tail.AsksForOne) (h : anyLinkQuery nested segment target none tail = .ok raw) :
    TreeMeans scope store table raw fun o => (traversalQuantifier segment.quantifier).Asks
      (∃ b, FollowsLink scope store segment segment.name o b ∧
        SatisfiesAll scope store segment.filters b ∧ tail.AcceptsObject b.object) := by
  unfold anyLinkQuery at h
  unfold FollowsLink
  split at h
  · rename_i htransitive
    obtain rfl := hloops htransitive
    simpa only [htransitive, if_true, Reaches, and_assoc] using
      repeatedLinkQuery_ends hstore hnested hlead hasks htail h
  · rename_i htransitive
    simp only [htransitive, Bool.false_eq_true, if_false]
    exact linkQuery_ends hstore hnested hlead hasks htail h

/-- The tree of a link with further segments behind it, followed once or repeatedly. -/
theorem anyLinkQuery_follows {target : String}
    (hlead : scope.schema.LeadsTo table segment.name target)
    (hloops : segment.transitive = true → target = table) (hplain : segment.isQuantified = false)
    {onward : Onward} (hbehind : BehindMeans scope store tail P (some onward))
    (h : anyLinkQuery nested segment target (some onward) tail = .ok raw) :
    TreeMeans scope store table raw fun o => ∃ b, FollowsLink scope store segment segment.name o b ∧
      SatisfiesAll scope store segment.filters b ∧ P b := by
  unfold anyLinkQuery at h
  unfold FollowsLink
  split at h
  · rename_i htransitive
    obtain rfl := hloops htransitive
    obtain ⟨hquantifier, -⟩ := asksForExistence_of_plain hplain
    have hmeans := repeatedLinkQuery_follows hstore hnested hlead hbehind h
    simpa only [htransitive, if_true, hquantifier, traversalQuantifier, Quantifier.Asks, Reaches,
      and_assoc] using hmeans
  · rename_i htransitive
    simp only [htransitive, Bool.false_eq_true, if_false]
    exact linkQuery_follows hstore hnested hlead hplain hbehind h

/-- The tree of a field that ends its path asks for a witness, or for there to be none. -/
theorem fieldQuery_witness (hrole : scope.schema.Resolves table segment false role)
    (hasks : AsksForExistence segment) (htail : tail.AsksForOne)
    (hheeds : segment.quantifier = some .none →
      role.kind.isLink = true ∨ tail.isComparison = true)
    (h : fieldQuery nested role segment none tail = .ok raw) :
    TreeMeans scope store table raw fun o => (traversalQuantifier segment.quantifier).Asks
      (FieldWitness scope store segment tail segment.name o) := by
  have hkind := Schema.role_kind hrole.named
  have hvalue : role.kind.isLink = false →
      segment.quantifier = some .none → tail.isComparison = true := fun hlink hnone =>
    (hheeds hnone).resolve_left (by simp [hlink])
  have hlink : ∀ {target : String}, role.linkTarget? = some target →
      scope.schema.LeadsTo table segment.name target →
      anyLinkQuery nested segment target none tail = .ok raw →
      TreeMeans scope store table raw fun o => (traversalQuantifier segment.quantifier).Asks
        (∃ b, FollowsLink scope store segment segment.name o b ∧
          SatisfiesAll scope store segment.filters b ∧ tail.AcceptsObject b.object) :=
    fun htarget hlead h => anyLinkQuery_ends hstore hnested hlead
      (fun htransitive => Option.some.inj (htarget.symm.trans (hrole.loops htransitive))) hasks
      htail h
  intro q hq hknown o ho htable
  subst htable
  show (scope.view store).Tells (some q) o ((traversalQuantifier segment.quantifier).Asks
    (FieldWitness scope store segment tail segment.name o))
  unfold FieldWitness
  rw [← hkind]
  cases role with
  | scalar type => exact leafQuery_means hrole.means hasks htail (hvalue rfl) h q hq hknown o ho rfl
  | multiValued type =>
    exact leafQuery_means hrole.means hasks htail (hvalue rfl) h q hq hknown o ho rfl
  | system => exact leafQuery_means hrole.means hasks htail (hvalue rfl) h q hq hknown o ho rfl
  | link target => exact hlink rfl hrole.means h q hq hknown o ho rfl
  | crossLink target => exact hlink rfl hrole.means h q hq hknown o ho rfl
  | group target => cases h

/-- The tree of a link with further segments behind it asks for an object to go on from. -/
theorem fieldQuery_follows (hrole : scope.schema.Resolves table segment true role)
    (hplain : segment.isQuantified = false) {onward : Onward}
    (hbehind : BehindMeans scope store tail P (some onward))
    (h : fieldQuery nested role segment (some onward) tail = .ok raw) :
    TreeMeans scope store table raw fun o => ∃ b, FollowsLink scope store segment segment.name o b ∧
      SatisfiesAll scope store segment.filters b ∧ P b := by
  have hleads := hrole.leads rfl
  have hlink : ∀ {target : String}, role.linkTarget? = some target →
      scope.schema.LeadsTo table segment.name target →
      anyLinkQuery nested segment target (some onward) tail = .ok raw →
      TreeMeans scope store table raw fun o =>
        ∃ b, FollowsLink scope store segment segment.name o b ∧
          SatisfiesAll scope store segment.filters b ∧ P b :=
    fun htarget hlead h => anyLinkQuery_follows hstore hnested hlead
      (fun htransitive => Option.some.inj (htarget.symm.trans (hrole.loops htransitive))) hplain
      hbehind h
  cases role with
  | scalar type => cases hleads
  | multiValued type => cases hleads
  | system => cases hleads
  | link target => exact hlink rfl hrole.means h
  | crossLink target => exact hlink rfl hrole.means h
  | group target => cases h

omit hstore hnested in
/-- The promoted branches of a group tell what their members mean. -/
theorem branches_tell {members : List String} {build : String → Except QueryError Query}
    {branches parts : List Query} {W : String → Located → Prop} {o : Located}
    (hbranches : members.mapM build = .ok branches)
    (hparts : Query.promoteAll scope.schema table branches = .ok parts)
    (hmember : ∀ member ∈ members, ∀ raw, build member = .ok raw →
      TreeMeans scope store table raw (W member))
    (hknown : ∀ p ∈ parts, Known p.names) (ho : (scope.view store).Stores o)
    (htable : o.table = table) :
    (∀ member ∈ members, ∃ p ∈ parts, (scope.view store).Tells (some p) o (W member o)) ∧
      ∀ p ∈ parts, ∃ member ∈ members, (scope.view store).Tells (some p) o (W member o) := by
  rw [Query.promoteAll_eq_mapM] at hparts
  obtain ⟨hbuilt, hfrom⟩ := mem_mapM hbranches
  obtain ⟨hpromoted, hback⟩ := mem_mapM hparts
  constructor
  · intro member hmem
    obtain ⟨branch, hbranch, hbuild⟩ := hbuilt member hmem
    obtain ⟨p, hpart, hpromote⟩ := hpromoted branch hbranch
    exact ⟨p, hpart, hmember member hmem branch hbuild p hpromote (hknown p hpart) o ho htable⟩
  · intro p hpart
    obtain ⟨branch, hbranch, hpromote⟩ := hback p hpart
    obtain ⟨member, hmem, hbuild⟩ := hfrom branch hbranch
    exact ⟨member, hmem, hmember member hmem branch hbuild p hpromote (hknown p hpart) o ho htable⟩

omit hstore hnested in
/-- The tree of a group asks for all of the fields that stand for it inside `ALL` or `NONE`, and
else for one of them. -/
theorem groupQuery_joins {onward : Option Onward} {W : String → Located → Prop}
    (hmember : ∀ member ∈ standIns scope.schema table segment.name onward.isNone, ∀ raw,
      memberQuery scope nested table segment onward tail member = .ok raw →
      TreeMeans scope store table raw (W member))
    (h : groupQuery scope nested table segment onward tail = .ok raw) :
    TreeMeans scope store table raw fun o =>
      if segment.isUniversal then
        ∀ member ∈ standIns scope.schema table segment.name onward.isNone, W member o
      else ∃ member ∈ standIns scope.schema table segment.name onward.isNone, W member o := by
  have hcount : ¬(onward.isNone && tail.isCount) = true := by
    intro hcount
    rw [groupQuery, if_pos hcount] at h
    cases h
  rw [groupQuery, if_neg hcount] at h
  have hempty : ¬(standIns scope.schema table segment.name onward.isNone).isEmpty = true := by
    intro hempty
    simp only [if_pos hempty] at h
    cases h
  simp only [if_neg hempty] at h
  obtain ⟨branches, hbranches, h⟩ := bind_eq_ok h
  intro q hq hknown o ho htable c hc
  split at h
  · rename_i huniversal
    obtain rfl := Except.ok.inj h
    obtain ⟨parts, hparts, hnames, hholds⟩ := Query.promote_and hq
    have hparts := branches_tell hbranches hparts hmember
      (fun p hp name hname => hknown name (hnames ▸ List.mem_flatMap.mpr ⟨p, hp, hname⟩)) ho htable
    simp only [if_pos huniversal]
    rw [View.holdsIfAny, hholds] at hc
    cases c with
    | true =>
      refine ⟨fun _ member hmem => ?_, fun _ => rfl⟩
      obtain ⟨p, hp, htells⟩ := hparts.1 member hmem
      exact (htells true ((View.holdsAll_iff _ _).mp hc p hp)).mp rfl
    | false =>
      refine ⟨fun h => absurd h Bool.false_ne_true, fun hall => ?_⟩
      obtain ⟨p, hp, hfalse⟩ := View.holdsAll_false _ _ hc
      obtain ⟨member, hmem, htells⟩ := hparts.2 p hp
      exact (htells false hfalse).mpr (hall member hmem)
  · rename_i hexistential
    obtain rfl := Except.ok.inj h
    obtain ⟨parts, hparts, hnames, hholds⟩ := Query.promote_or hq
    have hparts := branches_tell hbranches hparts hmember
      (fun p hp name hname => hknown name (hnames ▸ List.mem_flatMap.mpr ⟨p, hp, hname⟩)) ho htable
    simp only [if_neg hexistential]
    rw [View.holdsIfAny, hholds] at hc
    cases c with
    | true =>
      refine ⟨fun _ => ?_, fun _ => rfl⟩
      obtain ⟨p, hp, htrue⟩ := View.holdsAny_true _ _ hc
      obtain ⟨member, hmem, htells⟩ := hparts.2 p hp
      exact ⟨member, hmem, (htells true htrue).mp rfl⟩
    | false =>
      refine ⟨fun h => absurd h Bool.false_ne_true, ?_⟩
      rintro ⟨member, hmem, hW⟩
      obtain ⟨p, hp, htells⟩ := hparts.1 member hmem
      exact (htells false (View.holdsAny_false _ _ hc p hp)).mpr hW

omit hstore hnested in
/-- The tree of a group asks for one of the fields that stand for it. -/
theorem groupQuery_means {onward : Option Onward} {W : String → Located → Prop}
    (hplain : segment.isQuantified = false)
    (hmember : ∀ member ∈ standIns scope.schema table segment.name onward.isNone, ∀ raw,
      memberQuery scope nested table segment onward tail member = .ok raw →
      TreeMeans scope store table raw (W member))
    (h : groupQuery scope nested table segment onward tail = .ok raw) :
    TreeMeans scope store table raw fun o =>
      ∃ member ∈ standIns scope.schema table segment.name onward.isNone, W member o := by
  have huniversal : segment.isUniversal = false := by
    have hquantifier : segment.quantifier = none := by
      simpa [Segment.isQuantified] using (Bool.or_eq_false_iff.mp hplain).1
    rw [Segment.isUniversal, hquantifier]
    rfl
  simpa only [huniversal, Bool.false_eq_true, if_false] using groupQuery_joins hmember h

/-- A member of a group that ends its path asks for a witness like the field that it is. -/
theorem memberQuery_witness {member : String} (hasks : AsksForExistence segment)
    (htail : tail.AsksForOne)
    (hheeds : segment.quantifier = some .none →
      (scope.schema.fieldKind table member).isLink = true ∨ tail.isComparison = true)
    (h : memberQuery scope nested table segment none tail member = .ok raw) :
    TreeMeans scope store table raw fun o => (traversalQuantifier segment.quantifier).Asks
      (FieldWitness scope store segment tail member o) := by
  obtain ⟨role, hrole, h⟩ := bind_eq_ok h
  have hresolves := Schema.resolveSegment_yields.of_ok hrole
  have hmeans := @fieldQuery_witness _ _ _ _ hstore hnested { segment with name := member } _ _ _
    hresolves ⟨hasks.unconditioned, hasks.notAll⟩ htail
    (Schema.role_kind hresolves.named ▸ hheeds) h
  exact hmeans

/-- A link of a group with further segments behind it asks for an object to go on from. -/
theorem memberQuery_follows {link : String} (hplain : segment.isQuantified = false)
    (hloops : segment.transitive = false) {onward : Onward}
    (hbehind : BehindMeans scope store tail P (some onward))
    (h : memberQuery scope nested table segment (some onward) tail link = .ok raw) :
    TreeMeans scope store table raw fun o => ∃ b, (scope.view store).Follows link o b ∧
      SatisfiesAll scope store segment.filters b ∧ P b := by
  obtain ⟨role, hrole, h⟩ := bind_eq_ok h
  have hresolves := Schema.resolveSegment_yields.of_ok hrole
  have hmeans := fieldQuery_follows hstore hnested hresolves hplain hbehind h
  simpa only [FollowsLink, hloops, Bool.false_eq_true, if_false] using hmeans

omit hstore hnested in
/-- A group is not followed repeatedly. -/
theorem not_transitive_of_group {target : Option String} {followed : Bool}
    (h : scope.schema.Resolves table segment followed (.group target)) :
    segment.transitive = false := by
  cases htransitive : segment.transitive with
  | false => rfl
  | true => cases h.loops htransitive

/-- The fields that a segment at the end of a path names: the members of a group, or itself. -/
def endFields (schema : Schema) (table : String) (segment : Segment) : List String :=
  if schema.fieldKind table segment.name = .group then schema.groupMembers table segment.name
  else [segment.name]

omit hstore hnested in
/-- Branches joined by `AND` inside `NONE` and by `OR` elsewhere ask for one witness, or for there
to be none at any of them. -/
theorem AsksForExistence.joins (hasks : AsksForExistence segment) (members : List String)
    (W : String → Prop) :
    (if segment.isUniversal then
        ∀ member ∈ members, (traversalQuantifier segment.quantifier).Asks (W member)
      else ∃ member ∈ members, (traversalQuantifier segment.quantifier).Asks (W member)) ↔
      (traversalQuantifier segment.quantifier).Asks (∃ member ∈ members, W member) := by
  have hall := hasks.notAll
  unfold Segment.isUniversal
  cases hquantifier : segment.quantifier with
  | none => exact Iff.rfl
  | some quantifier =>
    rw [hquantifier] at hall
    cases quantifier with
    | all => exact absurd rfl hall
    | any | count => exact Iff.rfl
    | none => simp [traversalQuantifier, Quantifier.Asks, Quantifier.isUniversal]

/-- The tree of the last segment of a path asks for a witness, or for there to be none. -/
theorem segmentQuery_witness (hasks : AsksForExistence segment) (htail : tail.AsksForOne)
    (hheeds : segment.quantifier = some .none →
      ∀ field ∈ endFields scope.schema table segment,
        (scope.schema.fieldKind table field).isLink = true ∨ tail.isComparison = true)
    (h : segmentQuery scope nested table segment none tail = .ok raw) :
    TreeMeans scope store table raw fun o => (traversalQuantifier segment.quantifier).Asks
      (SegmentWitness scope store segment tail o) := by
  obtain ⟨role, hrole, h⟩ := bind_eq_ok h
  have hresolves := Schema.resolveSegment_yields.of_ok hrole
  have hkind := Schema.role_kind hresolves.named
  have hfield : fieldQuery nested role segment none tail = .ok raw → role.kind ≠ .group →
      TreeMeans scope store table raw fun o => (traversalQuantifier segment.quantifier).Asks
        (SegmentWitness scope store segment tail o) := by
    intro hfield hgroup q hq hknown o ho htable
    subst htable
    simp only [SegmentWitness, if_neg (hkind ▸ hgroup)]
    refine fieldQuery_witness hstore hnested hresolves hasks htail (fun hnone => ?_) hfield q hq
      hknown o ho rfl
    rw [hkind]
    exact hheeds hnone segment.name (by simp [endFields, if_neg (hkind ▸ hgroup)])
  cases role with
  | group target =>
    have hgroup : scope.schema.fieldKind table segment.name = .group := hkind.symm
    have hmeans := groupQuery_joins (fun member hmember raw h =>
      memberQuery_witness hstore hnested hasks htail
        (fun hnone => hheeds hnone member (by rwa [endFields, if_pos hgroup])) h) h
    intro q hq hknown o ho htable
    subst htable
    simp only [SegmentWitness, if_pos hgroup, ← hasks.joins]
    exact hmeans q hq hknown o ho rfl
  | scalar type => exact hfield h (by simp [FieldRole.kind])
  | multiValued type => exact hfield h (by simp [FieldRole.kind])
  | link target => exact hfield h (by simp [FieldRole.kind])
  | crossLink target => exact hfield h (by simp [FieldRole.kind])
  | system => exact hfield h (by simp [FieldRole.kind])

/-- The tree of a segment with further ones behind it asks for an object to go on from. -/
theorem segmentQuery_follows (hplain : segment.isQuantified = false) {onward : Onward}
    (hbehind : BehindMeans scope store tail P (some onward))
    (h : segmentQuery scope nested table segment (some onward) tail = .ok raw) :
    TreeMeans scope store table raw fun o => ∃ b, FollowsSegment scope store segment o b ∧
      SatisfiesAll scope store segment.filters b ∧ P b := by
  obtain ⟨role, hrole, h⟩ := bind_eq_ok h
  have hresolves := Schema.resolveSegment_yields.of_ok hrole
  have hkind := Schema.role_kind hresolves.named
  intro q hq hknown o ho htable
  subst htable
  simp only [FollowsSegment, ← hkind]
  cases role with
  | group target =>
    have hmeans : TreeMeans scope store o.table raw fun o' =>
        ∃ link ∈ scope.schema.groupLinks o.table segment.name,
          ∃ b, (scope.view store).Follows link o' b ∧
            SatisfiesAll scope store segment.filters b ∧ P b :=
      groupQuery_means hplain
        (fun link _ raw h => memberQuery_follows hstore hnested hplain
          (not_transitive_of_group hresolves) hbehind h) h
    intro c hc
    rw [hmeans q hq hknown o ho rfl c hc]
    constructor
    · rintro ⟨link, hlink, b, hfollows, hb⟩
      exact ⟨b, ⟨link, hlink, hfollows⟩, hb⟩
    · rintro ⟨b, ⟨link, hlink, hfollows⟩, hb⟩
      exact ⟨link, hlink, b, hfollows, hb⟩
  | link target =>
    exact fieldQuery_follows hstore hnested hresolves hplain hbehind h q hq hknown o ho rfl
  | crossLink target =>
    exact fieldQuery_follows hstore hnested hresolves hplain hbehind h q hq hknown o ho rfl
  | scalar type => cases hresolves.leads rfl
  | multiValued type => cases hresolves.leads rfl
  | system => cases hresolves.leads rfl

/-- The tree of a chain of segments asks for a chain of objects to one that the last segment
accepts. -/
theorem chainQuery_ends {rest : List Segment} {E : Segment → Located → Prop}
    (hplain : ∀ s ∈ segment :: rest, s.isQuantified = false)
    (hend : ∀ table last raw, last.isQuantified = false →
      segmentQuery scope nested table last none tail = .ok raw →
      TreeMeans scope store table raw (E last))
    (h : chainQuery scope nested table segment rest tail = .ok raw) :
    TreeMeans scope store table raw fun o =>
      ∃ b, LeadsAlong scope store segment rest o b ∧ E (Path.mk segment rest).last b := by
  induction rest generalizing table segment raw with
  | nil =>
    simp only [LeadsAlong, exists_eq_left']
    exact hend table segment raw (hplain segment (.head _)) h
  | cons next rest ih =>
    have hmeans := segmentQuery_follows hstore hnested (hplain segment (.head _))
      (fun target raw h => ih (fun s hs => hplain s (.tail _ hs)) h) h
    intro q hq hknown o ho htable c hc
    rw [hmeans q hq hknown o ho htable c hc, Path.last_cons]
    constructor
    · rintro ⟨t, hfollows, hfilters, b, halong, hb⟩
      exact ⟨b, ⟨t, hfollows, hfilters, halong⟩, hb⟩
    · rintro ⟨b, ⟨t, hfollows, hfilters, halong⟩, hb⟩
      exact ⟨t, hfollows, hfilters, b, halong, hb⟩

/-- The tree of a chain of segments asks for a chain of objects with a witness at its end. -/
theorem chainQuery_means {rest : List Segment}
    (hplain : ∀ s ∈ segment :: rest, s.isQuantified = false) (htail : tail.AsksForOne)
    (h : chainQuery scope nested table segment rest tail = .ok raw) :
    TreeMeans scope store table raw (ChainWitness scope store tail segment rest) := by
  have hend : ∀ table last raw, last.isQuantified = false →
      segmentQuery scope nested table last none tail = .ok raw →
      TreeMeans scope store table raw (SegmentWitness scope store last tail) := by
    intro table last raw hlast h
    obtain ⟨hquantifier, hasks⟩ := asksForExistence_of_plain hlast
    have hwitness := segmentQuery_witness hstore hnested hasks htail
      (fun hnone => by simp [hquantifier] at hnone) h
    rwa [hquantifier] at hwitness
  have hmeans := chainQuery_ends hstore hnested hplain hend h
  simpa only [TreeMeans, ← chainWitness_iff] using hmeans

end Segments

/-! ## Terms -/

/-- The log of a single term builds the tree that is read behind its first element. -/
theorem buildWith_single {tokens : List Token} {first : Element} {behind : List Element}
    {built : Except QueryError Query}
    (helements : Element.ofTokens .filter tokens = .ok (first :: behind))
    (hglue : Glue.ofElement? first = none)
    (hterm : Filter.term scope nested table first behind = built.map fun q => (q, [])) :
    buildWith scope nested table tokens = built := by
  have hstep : step scope nested table .empty (first :: behind) =
      (Filter.term scope nested table first behind >>= fun found =>
        (Stacks.operand .empty found.1).map fun t => (t, found.2)) := by
    rw [step_cons, hglue]
    rfl
  have hbuild : buildWith scope nested table tokens =
      (ElementReader.untilEnd (step scope nested table) .empty (first :: behind) >>=
        fun found => Stacks.tree found.1) := by
    simp only [buildWith, ElementReader.run, helements]
    show (ElementReader.untilEnd (step scope nested table) .empty (first :: behind) >>=
      fun found => pure found.1) >>= Stacks.tree = _
    cases ElementReader.untilEnd (step scope nested table) .empty (first :: behind) <;> rfl
  rw [hbuild]
  rw [hterm] at hstep
  cases hquery : built with
  | error why =>
    rw [hquery] at hstep
    rw [ElementReader.untilEnd_error hstep (by simp)]
    rfl
  | ok q =>
    rw [hquery] at hstep
    have hround : step scope nested table .empty ((first :: behind) ++ []) =
        .ok (⟨[q], [], []⟩, []) := by
      rw [List.append_nil, hstep]
      rfl
    have hread := ElementReader.untilEnd_more hround (by simp)
    rw [List.append_nil, ElementReader.untilEnd_nil] at hread
    rw [hread]
    rfl

/-- The log of a path with a tail builds their tree. -/
theorem buildWith_term {tokens : List Token} {path : Path} {behind : List Element} {tail : Tail}
    (helements : Element.ofTokens .filter tokens = .ok (.path path :: behind))
    (htail : Tail.read scope.clock behind = .ok (tail, [])) :
    buildWith scope nested table tokens = termQuery scope nested table path tail := by
  refine buildWith_single helements rfl ?_
  show (Tail.read scope.clock behind >>= _) = _
  rw [htail]
  rfl

/-- Inner filters are built like filters of their own. -/
theorem shorter_agrees (scope : Scope) (limit : Nat) :
    Nested.Agrees scope fun target inner =>
      if inner.length < limit then buildIn scope target inner else internal .noProgress := by
  intro target inner q h
  dsimp only at h
  split at h
  · exact h
  · cases h

end Filter

namespace Compiler

open Filter

/-- The path and the tail of an expression that is a single term of a filter. -/
def term? (c : Compiler) (scope : Scope) (input : String) : Option (Path × Tail) :=
  match c.log .filter input with
  | .error _ => none
  | .ok tokens =>
    match Element.ofTokens .filter tokens with
    | .ok (.path path :: behind) =>
      match Tail.read scope.clock behind with
      | .ok (tail, []) => some (path, tail)
      | _ => none
    | _ => none

theorem term?_eq_some {c : Compiler} {scope : Scope} {input : String} {path : Path} {tail : Tail}
    (h : c.term? scope input = some (path, tail)) :
    ∃ tokens behind, c.log .filter input = .ok tokens ∧
      Element.ofTokens .filter tokens = .ok (.path path :: behind) ∧
      Tail.read scope.clock behind = .ok (tail, []) := by
  unfold term? at h
  split at h
  · cases h
  rename_i tokens hlog
  split at h
  · rename_i read behind helements
    split at h
    · rename_i asked htail
      obtain ⟨rfl, rfl⟩ : read = path ∧ asked = tail := by simpa using h
      exact ⟨tokens, behind, hlog, helements, htail⟩
    · cases h
  · cases h

/--
The compiled filter of a term without quantifiers holds of a stored object, where its evaluation
comes to an end, exactly if the segments of the path lead from the object through stored objects
that satisfy their filters to a witness for the tail.
-/
theorem path_term_means {c : Compiler} {table input : String} {scope : Scope} {path : Path}
    {tail : Tail} {q : Query} {store : Store} {o : StoredObject} {b : Bool}
    (hscope : c.scope = .ok scope) (hterm : c.term? scope input = some (path, tail))
    (hplain : ∀ segment ∈ path.segments, segment.isQuantified = false) (htail : tail.AsksForOne)
    (hcompile : c.filter table input = .ok (some q)) (hstore : store.Keyed)
    (ho : store.find? table o.id = some o)
    (hholds : View.holds ⟨c.schema, store⟩ q ⟨table, o⟩ = .ok b) :
    b = true ↔ ChainWitness scope store tail path.first path.rest ⟨table, o⟩ := by
  obtain ⟨tokens, behind, hlog, helements, hread⟩ := term?_eq_some hterm
  have hschema : scope.schema = c.schema := c.scope_yields.of_ok hscope
  obtain ⟨found, scope', raw, hfound, -, hscope', hraw, hsettled⟩ := filter_eq_ok hcompile
  obtain rfl : tokens = found := Except.ok.inj (hlog.symm.trans hfound)
  obtain rfl : scope = scope' := Except.ok.inj (hscope.symm.trans hscope')
  obtain ⟨hpromote, hknown⟩ := Query.settle_eq_ok_iff.mp hsettled
  rw [buildIn, buildWith_term helements hread, termQuery,
    if_neg (by simp [htail.notMissing])] at hraw
  have hmeans := chainQuery_means hstore (shorter_agrees scope tokens.length)
    (by simpa [Path.segments] using hplain) htail hraw
  refine hmeans q (hschema ▸ hpromote) hknown ⟨table, o⟩ ho rfl b ?_
  rw [View.holdsIfAny, Scope.view, hschema]
  exact hholds

theorem toOption_eq_some {ε α : Type} {r : Except ε α} {a : α} (h : r.toOption = some a) :
    r = .ok a := by
  cases r with
  | error why => cases h
  | ok found => exact congrArg Except.ok (Option.some.inj h)

/-- A table of persons with names and bosses. -/
def staff : Compiler :=
  ⟨⟨.ofList [("Person", ⟨.ofList [("Boss", .link "Person"), ("Name", .scalar .text)]⟩)]⟩,
    .standard ⟨0, 0, 0⟩⟩

/-- A person whose boss is stored. -/
def bob : StoredObject :=
  ⟨"b", .ofList [("Name", [.text "Bob"])], .ofList [("Boss", ["a"])]⟩

/-- Two persons, one of them the boss of the other. -/
def staffStore : Store :=
  (Store.empty.insert "Person" ⟨"a", .ofList [("Name", [.text "Ann"])], .empty⟩).insert "Person" bob

/-- The boss of bob, who has no boss, is named Ann. -/
theorem path_term_means_boss : ∃ scope path tail, staff.scope = .ok scope ∧
    staff.term? scope "Boss^.WHERE(Boss IS NULL).Name = 'Ann'" = some (path, tail) ∧
    ChainWitness scope staffStore tail path.first path.rest ⟨"Person", bob⟩ := by
  have hread : (staff.scope.toOption.bind fun scope =>
      (staff.term? scope "Boss^.WHERE(Boss IS NULL).Name = 'Ann'").map fun term =>
        term.1.segments.all (!·.isQuantified) && term.2 ≠ .missing && !term.2.isCount) =
      some true := by decide +kernel
  have hrun : (staff.filter "Person" "Boss^.WHERE(Boss IS NULL).Name = 'Ann'").toOption.bind
      (·.bind fun q => (View.holds ⟨staff.schema, staffStore⟩ q ⟨"Person", bob⟩).toOption) =
      some true := by decide +kernel
  obtain ⟨scope, hscope, hread⟩ := Option.bind_eq_some_iff.mp hread
  obtain ⟨⟨path, tail⟩, hterm, hplain⟩ := Option.map_eq_some_iff.mp hread
  obtain ⟨found, hcompile, hrun⟩ := Option.bind_eq_some_iff.mp hrun
  obtain ⟨q, rfl, hholds⟩ := Option.bind_eq_some_iff.mp hrun
  simp only [Bool.and_eq_true, List.all_eq_true, Bool.not_eq_true', decide_eq_true_eq] at hplain
  have hscope := toOption_eq_some hscope
  have hkeyed : staffStore.Keyed := (Store.keyed_empty.insert _ _).insert _ _
  have hstored : staffStore.find? "Person" bob.id = some bob := Store.find?_insert_self _ _ bob
  exact ⟨scope, path, tail, hscope, hterm,
    (path_term_means hscope hterm hplain.1.1 ⟨hplain.1.2, hplain.2⟩ (toOption_eq_some hcompile)
      hkeyed hstored (toOption_eq_some hholds)).mp rfl⟩

end Compiler

end LinkQuery
