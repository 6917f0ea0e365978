import LinkQuery.Proofs.GroupMeaning
import LinkQuery.Proofs.GroupingLogs
import LinkQuery.Proofs.InOrder
import LinkQuery.Proofs.PromotedMeaning
/-!
# Filters of groupings

A level is for the objects that can reach one of its buckets: those from which stored objects lead
along the links and groups of its path, each past the filter of its step, and which satisfy the base
filter. The filter of the level holds for just these.

Main statements:
- `Grouping.steps_of_ofPath`: what the steps of a path are in the tables it leads through.
- `View.chainFilter_tells`, `View.groupingFilter_tells`: the filter before it is settled.
- `Compiler.grouping_filters_exact`: the filters of compiled groupings.
-/
namespace LinkQuery

open Filter (Scope)
open Query (traversalTarget? EveryVisited)
open Time (Timestamp)

/-! ## Chains of objects -/

namespace GroupItem

/-- The links that a step is followed along, none where it holds values. -/
def links (item : GroupItem) : List String :=
  match item.kind with
  | .group => item.nestedLinks
  | .link => [item.name]
  | .crossLink => [item.name]
  | _ => []

/-- The step is a link or a group. -/
def isTraversal (item : GroupItem) : Bool :=
  item.kind.isLink || item.kind == .group

end GroupItem

/--
Stored objects lead from an object along all steps up to the last link or group among them. Each is
behind a link of its step and passes the filter of this step.
-/
def View.LeadsAlong (v : View) : List GroupItem → Located → Prop
  | [], _ => True
  | item :: rest, o => (item :: rest).any GroupItem.isTraversal = true →
      ∃ t, (∃ link ∈ item.links, v.Follows link o t) ∧ v.holdsIfAny item.filter t = .ok true ∧
        v.LeadsAlong rest t

/-! ## Steps in their tables -/

/-- The step is one of the table, and its filter is one of the table that it leads to. -/
structure GroupItem.ReadsIn (schema : Schema) (good : Timestamp → Prop) (table : String)
    (item : GroupItem) : Prop where
  kind : item.kind = schema.fieldKind table item.name
  links : item.links = schema.followed table item.name
  filter : ∀ q ∈ item.filter, ∃ target, traversalTarget? schema table item.name = some target ∧
    q.WellFormed schema good target

/-- Each of the steps is one of the table that the steps in front of it lead to. -/
def StepsAlong (schema : Schema) (good : Timestamp → Prop) : String → List GroupItem → Prop
  | _, [] => True
  | table, item :: rest => item.ReadsIn schema good table ∧
      (rest = [] ∨ ∃ target, traversalTarget? schema table item.name = some target ∧
        StepsAlong schema good target rest)

namespace Schema

variable {s : Schema} {table name : String}

theorem followed_isLink {link : String} (h : link ∈ s.followed table name) :
    (s.fieldKind table link).isLink = true := by
  unfold followed at h
  split at h
  · rename_i hkind
    rw [List.mem_singleton.mp h, hkind]
    rfl
  · rename_i hkind
    rw [List.mem_singleton.mp h, hkind]
    rfl
  · exact groupLinks_isLink h
  · cases h

theorem traversalTarget?_of_isLink (h : (s.fieldKind table name).isLink = true) :
    traversalTarget? s table name = s.linkTarget? table name := by
  unfold traversalTarget?
  cases hkind : s.fieldKind table name <;> rw [hkind] at h <;> first | rfl | cases h

end Schema

/-- A step that is no link and no group leads to no table. -/
theorem GroupItem.ReadsIn.target_none {schema : Schema} {good : Timestamp → Prop} {table : String}
    {item : GroupItem} (h : item.ReadsIn schema good table) (hkind : item.isTraversal = false) :
    traversalTarget? schema table item.name = none := by
  rw [GroupItem.isTraversal, h.kind] at hkind
  unfold traversalTarget?
  cases hfield : schema.fieldKind table item.name <;> rw [hfield] at hkind <;>
    first | rfl | cases hkind

/-- The filter of a step asks for an object behind any of its links. -/
theorem chainFilter_cons (item : GroupItem) (rest : List GroupItem) :
    chainFilter (item :: rest) =
      if item.isTraversal then
        some (Query.or (item.links.map (item.traversal (chainFilter rest))))
      else chainFilter rest := by
  rw [chainFilter, GroupItem.isTraversal, GroupItem.links]
  cases item.kind <;> rfl

namespace Grouping

variable {scope : Scope} {base : Option Query} {table : String} {good : Timestamp → Prop}

theorem itemOf_reads (hclock : scope.clock.Shows good) {s : ResolvedSegment} {item : GroupItem}
    (hrole : scope.schema.role s.table s.name = .ok s.role)
    (hfilters : ∀ filter ∈ s.segment.filters, Path.FilterLog filter)
    (h : itemOf scope s = .ok item) : item.ReadsIn scope.schema good s.table := by
  have hkind := Schema.role_kind hrole
  obtain ⟨filter, hfilter, h⟩ := bind_eq_ok h
  cases h
  refine ⟨hkind, ?_, fun q hq => ?_⟩
  · unfold GroupItem.links Schema.followed
    simp only
    rw [hkind]
    cases hrolekind : s.role <;> rw [hrolekind] at hkind <;> simp [← hkind, FieldRole.kind]
  · obtain rfl : filter = some q := hq
    unfold itemFilter at hfilter
    split at hfilter
    · cases hfilter
    · split at hfilter
      · rename_i target htarget
        rw [Schema.role_target hrole] at htarget
        exact ⟨target, htarget, (Filter.buildAll_yields hclock hfilters).of_ok hfilter⟩
      · cases hfilter

theorem steps_of_resolveFrom (hclock : scope.clock.Shows good) {rest : List Segment}
    {segment : Segment} {resolved : ResolvedPath} {through : List GroupItem} {leaf : GroupItem}
    (hfilters : ∀ s ∈ segment :: rest, ∀ filter ∈ s.filters, Path.FilterLog filter)
    (hresolved : scope.schema.resolveFrom table segment rest = .ok resolved)
    (hthrough : resolved.through.mapM (itemOf scope) = .ok through)
    (hleaf : itemOf scope resolved.leaf = .ok leaf) :
    StepsAlong scope.schema good table (through ++ [leaf]) := by
  induction rest generalizing table segment resolved through with
  | nil =>
    unfold Schema.resolveFrom at hresolved
    obtain ⟨role, hrole, hresolved⟩ := bind_eq_ok hresolved
    cases hresolved
    obtain rfl : [] = through := Except.ok.inj hthrough
    have hrole := Schema.resolveSegment_yields.of_ok hrole
    have hreads : leaf.ReadsIn scope.schema good table :=
      itemOf_reads (s := ⟨segment, table, role⟩) hclock hrole.named
        (hfilters segment List.mem_cons_self) hleaf
    rw [List.nil_append, StepsAlong]
    exact ⟨hreads, Or.inl rfl⟩
  | cons next rest ih =>
    unfold Schema.resolveFrom at hresolved
    obtain ⟨role, hrole, hresolved⟩ := bind_eq_ok hresolved
    obtain ⟨behind, hbehind, hresolved⟩ := bind_eq_ok hresolved
    cases hresolved
    have hrole := Schema.resolveSegment_yields.of_ok hrole
    obtain ⟨target, htarget⟩ := Option.isSome_iff_exists.mp (hrole.leads rfl)
    rw [htarget, Option.getD_some] at hbehind
    rw [List.mapM_cons] at hthrough
    obtain ⟨item, hitem, hthrough⟩ := bind_eq_ok hthrough
    obtain ⟨others, hothers, hthrough⟩ := bind_eq_ok hthrough
    cases hthrough
    obtain ⟨hsegment, hrest⟩ := List.forall_mem_cons.mp hfilters
    have hreads : item.ReadsIn scope.schema good table :=
      itemOf_reads (s := ⟨segment, table, role⟩) hclock hrole.named hsegment hitem
    rw [List.cons_append, StepsAlong]
    refine ⟨hreads, Or.inr ⟨target, ?_, ih hrest hbehind hothers hleaf⟩⟩
    have hname : item.name = segment.name := by
      obtain ⟨_, -, hitem⟩ := bind_eq_ok hitem
      cases hitem
      rfl
    rw [hname, ← Schema.role_target hrole.named, htarget]

/-- The steps of a level are those of a path, and its filter is that of the steps. -/
theorem steps_of_ofPath (hclock : scope.clock.Shows good) {g : Grouping}
    (h : IsOfPath scope base table g) :
    StepsAlong scope.schema good table g.items ∧ g.filter = groupingFilter base g.items := by
  obtain ⟨path, before, hpath, hbefore, hkeeps⟩ := h
  obtain ⟨_, -, hbefore⟩ := bind_eq_ok hbefore
  obtain ⟨resolved, hresolved, hbefore⟩ := bind_eq_ok hbefore
  obtain ⟨through, hthrough, hbefore⟩ := bind_eq_ok hbefore
  obtain ⟨leaf, hleaf, hbefore⟩ := bind_eq_ok hbefore
  cases hbefore
  have hitems : g.items = through ++ [leaf] := by
    rw [items, hkeeps.through, hkeeps.leaf, ofItems]
  rw [hitems, hkeeps.filter]
  exact ⟨steps_of_resolveFrom hclock (fun s hs => (hpath s hs).inside.filters) hresolved hthrough
    hleaf, rfl⟩

end Grouping

/-! ## The filter before it is settled -/

namespace View

variable {v : View} {o : Located} {table : String} {good : Timestamp → Prop} {P : Prop}

/-- A disjunction tells whether one of several properties holds, one for each of its trees. -/
theorem or_tells {α : Type} {as : List α} {tree : α → Query} {P : α → Prop}
    (h : ∀ a ∈ as, v.Tells (some (tree a)) o (P a)) :
    v.Tells (some (Query.or (as.map tree))) o (∃ a ∈ as, P a) := by
  intro c hc
  rw [holdsIfAny, holds_or] at hc
  cases c with
  | true =>
    obtain ⟨q, hq, hholds⟩ := v.holdsAny_true o hc
    obtain ⟨a, ha, rfl⟩ := List.mem_map.mp hq
    exact iff_of_true rfl ⟨a, ha, (h a ha true hholds).mp rfl⟩
  | false =>
    refine iff_of_false Bool.false_ne_true fun hsome => ?_
    obtain ⟨a, ha, hP⟩ := hsome
    have hholds := v.holdsAny_false o hc (tree a) (List.mem_map_of_mem ha)
    exact Bool.false_ne_true ((h a ha false hholds).mpr hP)

/-- The traversals along steps tell whether stored objects lead along them. -/
theorem chainFilter_tells (hstore : v.store.Keyed) (hshare : v.schema.GroupsShareTargets)
    {items : List GroupItem} (h : StepsAlong v.schema good table items) (ho : o.table = table) :
    v.Tells (chainFilter items) o (v.LeadsAlong items o) := by
  induction items generalizing table o with
  | nil =>
    intro c hc
    rw [chainFilter, holdsIfAny] at hc
    exact iff_of_true (Except.ok.inj hc).symm trivial
  | cons item rest ih =>
    obtain ⟨hitem, hrest⟩ := h
    subst ho
    -- Behind each link of the step, the other steps go on from the table it leads to.
    have hbehind : ∀ link ∈ item.links, ∀ t, v.Follows link o t →
        v.Tells (chainFilter rest) t (v.LeadsAlong rest t) := by
      intro link hlink t ht
      rcases hrest with rfl | ⟨target, htarget, hrest⟩
      · exact @ih t t.table trivial rfl
      · rw [hitem.links] at hlink
        exact ih hrest (hshare.followed htarget hlink ht.1)
    rw [chainFilter_cons]
    split
    · rename_i hkind
      have hsteps : v.LeadsAlong (item :: rest) o ↔ ∃ link ∈ item.links, ∃ t,
          v.Follows link o t ∧ v.holdsIfAny item.filter t = .ok true ∧ v.LeadsAlong rest t := by
        simp only [LeadsAlong, List.any_cons, hkind, Bool.true_or, forall_const]
        constructor
        · intro ⟨t, ⟨link, hlink, ht⟩, hpass⟩
          exact ⟨link, hlink, t, ht, hpass⟩
        · intro ⟨link, hlink, t, ht, hpass⟩
          exact ⟨t, ⟨link, hlink, ht⟩, hpass⟩
      rw [hsteps]
      refine or_tells fun link hlink => ?_
      have hkind := Schema.followed_isLink (hitem.links ▸ hlink)
      exact link_tells hstore hkind (fun t _ c hc => by rw [hc, Except.ok.injEq])
        (hbehind link hlink)
    · rename_i hkind
      have hkind : item.isTraversal = false := by simpa using hkind
      obtain rfl : rest = [] := hrest.resolve_right (by simp [hitem.target_none hkind])
      intro c hc
      refine iff_of_true (Except.ok.inj hc).symm fun hsome => ?_
      rw [List.any_cons, hkind] at hsome
      cases hsome

theorem holds_behind_base {base : Query} (h : v.holds base o = .ok true) (derived : Query) :
    v.holds (base.distributeAnd derived) o = v.holds derived o := by
  by_cases hnone : derived = .anyOf []
  · subst hnone
    rw [Query.distributeAnd, holds_or, holds]
    rfl
  · rw [v.holds_distributeAnd o base hnone, h]
    rfl

theorem base_of_distributeAnd {base derived : Query}
    (h : v.holds (base.distributeAnd derived) o = .ok true) : v.holds base o = .ok true := by
  have hpair : ∀ q, v.holds (Query.and [base, q]) o = .ok true → v.holds base o = .ok true := by
    intro q hq
    rw [holds_and, holdsAll_iff] at hq
    exact hq base List.mem_cons_self
  cases derived with
  | anyOf branches =>
    rw [Query.distributeAnd, holds_or] at h
    obtain ⟨q, hq, hholds⟩ := v.holdsAny_true o h
    obtain ⟨branch, -, rfl⟩ := List.mem_map.mp hq
    exact hpair branch hholds
  | _ => exact hpair _ h

/-- The filter of a grouping tells whether the base holds, and what the filter of the steps tells. -/
theorem groupingFilter_tells {base : Option Query} {items : List GroupItem}
    (h : v.Tells (chainFilter items) o P) :
    v.Tells (groupingFilter base items) o (v.holdsIfAny base o = .ok true ∧ P) := by
  intro c hc
  unfold groupingFilter at hc
  cases base with
  | none => simpa [holdsIfAny] using h c hc
  | some base =>
    cases hderived : chainFilter items with
    | none =>
      rw [hderived] at h hc
      have hP : P := (h true rfl).mp rfl
      simp [hP, holdsIfAny] at hc ⊢
      simp [hc]
    | some derived =>
      rw [hderived] at h hc
      simp only [holdsIfAny] at h hc ⊢
      constructor
      · rintro rfl
        have hbase := base_of_distributeAnd hc
        rw [holds_behind_base hbase] at hc
        exact ⟨hbase, (h true hc).mp rfl⟩
      · intro ⟨hbase, hP⟩
        rw [holds_behind_base hbase] at hc
        exact (h c hc).mpr hP

end View

/-! ## Settling -/

namespace Query

variable {schema : Schema} {good : Timestamp → Prop} {table place : String} {q node : Query}
  {P : String → Query → Prop}

/-- What stands in a tree of a filter is one again, or tests single values. -/
theorem WellFormed.visited (hvisit : q.Visits schema table place node)
    (h : q.WellFormed schema good table ∨ q.TestsValues schema good table) :
    node.WellFormed schema good place ∨ node.TestsValues schema good place := by
  have hany : ∀ {table : String} {inner : Option Query},
      WellFormedIfAny schema good table inner → ∀ child ∈ inner.toList,
        child.WellFormed schema good table := by
    intro table inner h child hchild
    rw [Option.mem_toList] at hchild
    rw [hchild] at h
    exact h
  induction hvisit with
  | here => exact h
  | @beside table place q child node hchild _ ih =>
    refine ih ?_
    rcases h with h | h
    · cases q with
      | allOf children => exact Or.inl (allWellFormed_iff.mp h.2.2 child hchild)
      | anyOf children => exact Or.inl (allWellFormed_iff.mp h.2.2 child hchild)
      | negated inner => exact Or.inl (List.mem_singleton.mp hchild ▸ h.2)
      | multiValue quantifier inner => exact Or.inr (List.mem_singleton.mp hchild ▸ h.2)
      | _ => cases hchild
    · cases q with
      | comparison | interval | objectId => cases hchild
      | _ => exact h.elim
  | @behind table target place name q child node children hbehind htarget hchild _ ih =>
    refine ih (Or.inl ?_)
    have hlead : ∀ {found : String}, schema.LeadsTo table name found → found = target := by
      intro found hlead
      have hfound := traversalTarget_eq_ok (traversalTarget_of_leadsTo hlead)
      exact Option.some.inj (hfound.symm.trans htarget)
    rcases h with h | h
    · cases q with
      | link quantifier link filter inner =>
        cases hbehind
        obtain ⟨-, found, hfound, hfilter, hinner⟩ := h
        obtain rfl := hlead hfound
        exact (List.mem_append.mp hchild).elim (hany hfilter child) (hany hinner child)
      | transitiveLink link depth inner =>
        cases hbehind
        obtain ⟨hfound, -, hinner⟩ := h
        obtain rfl := hlead hfound
        exact hany hinner child hchild
      | linkCount link filter op count =>
        cases hbehind
        obtain ⟨-, -, found, hfound, hfilter⟩ := h
        obtain rfl := hlead hfound
        exact hany hfilter child hchild
      | linkCountRange link filter range =>
        cases hbehind
        obtain ⟨-, found, hfound, hfilter⟩ := h
        obtain rfl := hlead hfound
        exact hany hfilter child hchild
      | _ => cases hbehind
    · cases q with
      | comparison | interval | objectId => cases hbehind
      | _ => exact h.elim

/-- A property that connectives have as such is one of a conjunction if it is one of its parts. -/
theorem EveryVisited.and (hroot : ∀ children, P table (.allOf children))
    (heverything : P table .everything) {children : List Query}
    (h : ∀ child ∈ children, child.EveryVisited schema P table) :
    (Query.and children).EveryVisited schema P table :=
  and_combines.of_parts (fun _ hparts _ hpart => hparts.beside hpart)
    (everyVisited_of_leaf rfl rfl heverything) (fun _ hone => hone)
    (fun _ hflat => everyVisited_iff.mpr ⟨hroot _, hflat, nofun⟩) h

/-- A property that connectives have as such is one of a disjunction if it is one of its parts. -/
theorem EveryVisited.or (hroot : ∀ children, P table (.anyOf children))
    (hnothing : P table .nothing) {children : List Query}
    (h : ∀ child ∈ children, child.EveryVisited schema P table) :
    (Query.or children).EveryVisited schema P table :=
  or_combines.of_parts (fun _ hparts _ hpart => hparts.beside hpart)
    (everyVisited_of_leaf rfl rfl hnothing) (fun _ hone => hone)
    (fun _ hflat => everyVisited_iff.mpr ⟨hroot _, hflat, nofun⟩) h

end Query

namespace View

open Query (promote promoteComparison)

variable {v : View} {good : Timestamp → Prop} {table : String}

/-- Where the promotion of a node is evaluated, the node is, and to the same result. -/
abbrev Settles (v : View) : String → Query → Prop :=
  v.CarriedOver comparesValues fun r r' => Below r' r

/-- A test of a single value is promoted to itself, or to an equal identity test. -/
theorem comparison_settles {field : String} {several : Bool} {type : Option ScalarType}
    {op : CompareOp} {value : Literal} {q : Query}
    (hvalue : v.schema.valueType? table field = some (type, several)) (hfits : value.Fits good type)
    (hq : promoteComparison v.schema table field op value = .ok q) :
    q = .comparison field op value ∨ (∃ id, q = .objectId id) ∧
      ∀ o, v.holds q o = comparesValues o field op value := by
  cases type with
  | some type =>
    have hkept : Query.promote v.schema table (.comparison field op value) =
        .ok (.comparison field op value) := Query.promote_comparison hvalue
    rw [promote, hq] at hkept
    exact Or.inl (Except.ok.inj hkept)
  | none =>
    obtain ⟨text, rfl⟩ := hfits
    have hsystem := Schema.isSystemField_of_valueType hvalue
    rw [promoteComparison, if_pos hsystem] at hq
    cases op with
    | eq =>
      obtain rfl : .objectId text = q := Except.ok.inj hq
      refine Or.inr ⟨⟨text, rfl⟩, fun o => ?_⟩
      have hvalues : o.object.valuesOf field = [.text o.object.id] := if_pos hsystem
      simp only [holds, comparesValues, hasValue, hvalues, List.any_cons, List.any_nil,
        Bool.or_false]
      rfl
    | contains => cases hq
    | _ => exact Or.inl (Except.ok.inj hq).symm

/-- Every node of a well-formed tree settles. -/
theorem wellFormed_settles {q : Query} (h : q.WellFormed v.schema good table) :
    q.EveryVisited v.schema v.Settles table := by
  intro place node hvisit
  have hnode := Query.WellFormed.visited hvisit (Or.inl h)
  cases node with
  | comparison field op value =>
    obtain ⟨type, several, hvalue, hfits⟩ : ∃ type several,
        v.schema.valueType? place field = some (type, several) ∧ value.Fits good type := by
      rcases hnode with ⟨type, hvalue⟩ | hvalue
      · exact ⟨type, false, hvalue⟩
      · exact hvalue
    intro q hq o _ b hb
    rcases comparison_settles hvalue hfits hq with rfl | ⟨-, hsame⟩
    · rwa [holds] at hb
    · rwa [hsame] at hb
  | multiValue quantifier inner =>
    have htests : inner.TestsValues v.schema good place := hnode.elim And.right False.elim
    intro q hq o _ b hb
    cases inner with
    | comparison field op value =>
      obtain ⟨type, several, hvalue, hfits⟩ := htests
      rw [promote] at hq
      rcases comparison_settles hvalue hfits hq with rfl | ⟨⟨id, rfl⟩, -⟩
      · exact hb
      · cases hb
    | interval field range =>
      simp only [promote] at hq
      exact Except.ok.inj hq ▸ hb
    | objectId id =>
      simp only [promote] at hq
      exact Except.ok.inj hq ▸ hb
    | _ => exact htests.elim
  | transitiveLink name depth inner =>
    have hlead := hnode.elim And.left False.elim
    exact Query.traversalTarget_eq_ok (Query.traversalTarget_of_leadsTo hlead)
  | _ => trivial

/-- The traversals along steps settle. -/
theorem chainFilter_settles (hshare : v.schema.GroupsShareTargets) {items : List GroupItem}
    (h : StepsAlong v.schema good table items) :
    ∀ q ∈ chainFilter items, q.EveryVisited v.schema v.Settles table := by
  induction items generalizing table with
  | nil => simp [chainFilter]
  | cons item rest ih =>
    obtain ⟨hitem, hrest⟩ := h
    have htraversal : ∀ link ∈ item.links,
        (item.traversal (chainFilter rest) link).EveryVisited v.schema v.Settles table := by
      intro link hlink
      refine Query.everyVisited_iff.mpr ⟨trivial, nofun, ?_⟩
      intro name children hbehind target htarget child hchild
      cases hbehind
      rw [hitem.links] at hlink
      rw [Schema.traversalTarget?_of_isLink (Schema.followed_isLink hlink)] at htarget
      rcases List.mem_append.mp hchild with hchild | hchild
      · obtain ⟨found, hfound, hwell⟩ := hitem.filter child (Option.mem_toList.mp hchild)
        obtain rfl := hshare.followed hfound hlink htarget
        exact wellFormed_settles hwell
      · rcases hrest with rfl | ⟨found, hfound, hrest⟩
        · cases hchild
        · obtain rfl := hshare.followed hfound hlink htarget
          exact ih hrest child (Option.mem_toList.mp hchild)
    have hplain : item.isTraversal = false → chainFilter rest = none := by
      intro hkind
      obtain rfl : rest = [] := hrest.resolve_right (by simp [hitem.target_none hkind])
      rfl
    rw [chainFilter_cons]
    split
    · rintro q ⟨⟩
      refine Query.EveryVisited.or (fun _ => trivial) trivial fun child hchild => ?_
      obtain ⟨link, hlink, rfl⟩ := List.mem_map.mp hchild
      exact htraversal link hlink
    · rename_i hkind
      simp [hplain (by simpa using hkind)]

/-- The filter of a grouping settles if the base does. -/
theorem groupingFilter_settles {base : Option Query} {items : List GroupItem}
    (hbase : ∀ q ∈ base, q.EveryVisited v.schema v.Settles table)
    (h : ∀ q ∈ chainFilter items, q.EveryVisited v.schema v.Settles table) :
    ∀ q ∈ groupingFilter base items, q.EveryVisited v.schema v.Settles table := by
  unfold groupingFilter
  split
  · rename_i base derived hderived
    rintro q ⟨⟩
    have hbase := hbase base rfl
    have hderived := h derived hderived
    have hpair : ∀ {branch : Query}, branch.EveryVisited v.schema v.Settles table →
        (Query.and [base, branch]).EveryVisited v.schema v.Settles table := fun hbranch =>
      .and (fun _ => trivial) trivial (by simp [hbase, hbranch])
    cases derived with
    | anyOf branches =>
      refine .or (fun _ => trivial) trivial fun child hchild => ?_
      obtain ⟨branch, hbranch, rfl⟩ := List.mem_map.mp hchild
      exact hpair (hderived.beside hbranch)
    | _ => exact hpair hderived
  · exact hbase
  · exact h

/-- A tree that settles holds where the settled one does. -/
theorem holds_of_settled (hshare : v.schema.GroupsShareTargets) {q settled : Query} {o : Located}
    (h : q.EveryVisited v.schema v.Settles table) (hsettle : q.settle v.schema table = .ok settled)
    (ho : o.table = table) {b : Bool} (hb : v.holds settled o = .ok b) : v.holds q o = .ok b := by
  obtain ⟨hpromote, -⟩ := Query.settle_eq_ok_iff.mp hsettle
  rw [← evaluate_values]
  exact promote_carries above_carries hshare h hpromote ho b hb

end View

/-! ## Compiled groupings -/

namespace Compiler

open Grouping (IsOfPath)

variable {c : Compiler} {base : Option Query} {table input : String} {sets : List GroupingSet}

/-- The grouping sets are those of a text, the base filter being that of another text if there is
one. -/
def GroupsUnder (c : Compiler) (base : Option Query) (table input : String)
    (sets : List GroupingSet) : Prop :=
  c.groupings table input = .ok sets ∧ base = none ∨
    ∃ text, c.filter table text = .ok base ∧ c.groupingsWithFilter table input text = .ok sets

theorem GroupsUnder.compiled (h : c.GroupsUnder base table input sets) :
    c.groupingsUnder base table input = .ok sets := by
  rcases h with ⟨hsets, rfl⟩ | ⟨text, hbase, hsets⟩
  · exact hsets
  · obtain ⟨found, hfound, hsets⟩ := bind_eq_ok hsets
    obtain rfl := Except.ok.inj (hbase.symm.trans hfound)
    exact hsets

theorem GroupsUnder.base_wellFormed (h : c.GroupsUnder base table input sets) :
    ∀ q ∈ base, q.WellFormed c.schema (fun _ => True) table := by
  intro q hq
  rcases h with ⟨-, rfl⟩ | ⟨text, hbase, -⟩
  · cases hq
  · obtain rfl : base = some q := hq
    exact filter_wellFormed (fun scope _ => scope.clock.shows_any) hbase

/-- A compiled level is that of a path, with its filter settled. -/
theorem groupingsUnder_level (h : c.groupingsUnder base table input = .ok sets) {set : GroupingSet}
    {level : Grouping} (hset : set ∈ sets) (hlevel : level ∈ set.levels) :
    ∃ scope before, scope.schema = c.schema ∧ IsOfPath scope base table before ∧
      level.items = before.items ∧ c.settleIfAny table before.filter = .ok level.filter := by
  obtain ⟨log, hlog, h⟩ := bind_eq_ok h
  obtain ⟨built, hbuilt, hsets⟩ := bind_eq_ok h
  obtain ⟨scope, hscope, hbuilt⟩ := bind_eq_ok hbuilt
  have hproduces := (c.log_answers .aggregationGroup input).of_ok hlog
  have hpaths := (Grouping.build_yields scope.clock.shows_any hproduces).of_ok hbuilt
  obtain ⟨first, hfirst, hset⟩ := (mem_mapM hsets).2 set hset
  obtain ⟨levels, hlevels, hset⟩ := bind_eq_ok hset
  cases hset
  obtain ⟨before, hbefore, hsettle⟩ := (mem_mapM hlevels).2 level hlevel
  obtain ⟨settled, hsettled, hlevel⟩ := bind_eq_ok hsettle
  cases hlevel
  exact ⟨scope, before, c.scope_yields.of_ok hscope, hpaths first hfirst before hbefore, rfl,
    hsettled⟩

/-- The filter of a level holds for the objects that satisfy the base filter and from which stored
objects lead along the path, each of them past the filter of its step. -/
theorem grouping_filters_exact (hshare : c.schema.GroupsShareTargets) {store : Store}
    (hstore : store.Keyed) (hsets : c.GroupsUnder base table input sets) {set : GroupingSet}
    (hset : set ∈ sets) {level : Grouping} (hlevel : level ∈ set.levels) {o : Located}
    (ho : o.table = table) {b : Bool}
    (hends : View.holdsIfAny ⟨c.schema, store⟩ level.filter o = .ok b) :
    b = true ↔ View.holdsIfAny ⟨c.schema, store⟩ base o = .ok true ∧
      View.LeadsAlong ⟨c.schema, store⟩ level.items o := by
  obtain ⟨scope, before, hschema, hpath, hitems, hsettle⟩ :=
    groupingsUnder_level hsets.compiled hset hlevel
  obtain ⟨hsteps, hfilter⟩ := Grouping.steps_of_ofPath scope.clock.shows_any hpath
  rw [hschema] at hsteps
  rw [hfilter] at hsettle
  have hsettles := View.groupingFilter_settles (v := ⟨c.schema, store⟩)
    (fun q hq => View.wellFormed_settles (hsets.base_wellFormed q hq))
    (View.chainFilter_settles hshare hsteps)
  have hraw : View.holdsIfAny ⟨c.schema, store⟩ (groupingFilter base before.items) o = .ok b := by
    cases hderived : groupingFilter base before.items with
    | none =>
      rw [hderived] at hsettle
      rwa [← Except.ok.inj hsettle] at hends
    | some q =>
      rw [hderived] at hsettle
      obtain ⟨settled, hsettled, heq⟩ := map_eq_ok hsettle
      rw [← heq] at hends
      exact View.holds_of_settled hshare (hsettles q hderived) hsettled ho hends
  rw [hitems]
  exact View.groupingFilter_tells (View.chainFilter_tells hstore hshare hsteps ho) b hraw

theorem crew_sharesTargets : crew.schema.GroupsShareTargets := by
  have htargets : ∀ fields ∈ crew.schema.tables.values, ∀ field ∈ fields.fields.values,
      ∀ found ∈ field.target, found = "Person" := by decide
  exact Schema.groupsShareTargets_of_targets htargets

/-- A grouping by the names of all people named Bob, under a filter for one task: the task has such
a person behind one link of the group. -/
theorem grouping_filters_exact_people : ∃ base sets set level,
    crew.GroupsUnder base "Task" "People.WHERE(Name = 'Bob').Name" sets ∧ set ∈ sets ∧
      level ∈ set.levels ∧ level.items.map GroupItem.links = [["Owner", "Vendor"], []] ∧
      View.holdsIfAny ⟨crew.schema, crewStore⟩ level.filter ⟨"Task", chore⟩ = .ok true ∧
      View.holdsIfAny ⟨crew.schema, crewStore⟩ base ⟨"Task", chore⟩ = .ok true ∧
      View.LeadsAlong ⟨crew.schema, crewStore⟩ level.items ⟨"Task", chore⟩ := by
  have hrun : (crew.filter "Task" "_ID = 't'").toOption.bind (fun _ =>
      (crew.groupingsWithFilter "Task" "People.WHERE(Name = 'Bob').Name" "_ID = 't'").toOption.bind
        fun sets => sets.head?.bind fun set => set.levels.head?.bind fun level =>
          (View.holdsIfAny ⟨crew.schema, crewStore⟩ level.filter ⟨"Task", chore⟩).toOption.map
            fun b => (level.items.map GroupItem.links, b)) =
      some ([["Owner", "Vendor"], []], true) := by decide +kernel
  obtain ⟨base, hbase, hrun⟩ := Option.bind_eq_some_iff.mp hrun
  obtain ⟨sets, hsets, hrun⟩ := Option.bind_eq_some_iff.mp hrun
  obtain ⟨set, hset, hrun⟩ := Option.bind_eq_some_iff.mp hrun
  obtain ⟨level, hlevel, hrun⟩ := Option.bind_eq_some_iff.mp hrun
  obtain ⟨b, hends, hrun⟩ := Option.map_eq_some_iff.mp hrun
  obtain ⟨hlinks, rfl⟩ := Prod.ext_iff.mp hrun
  have hunder : crew.GroupsUnder base "Task" "People.WHERE(Name = 'Bob').Name" sets :=
    Or.inr ⟨"_ID = 't'", toOption_eq_some hbase, toOption_eq_some hsets⟩
  have hset := List.mem_of_head? hset
  have hlevel := List.mem_of_head? hlevel
  have hends := toOption_eq_some hends
  exact ⟨base, sets, set, level, hunder, hset, hlevel, hlinks, hends,
    (grouping_filters_exact crew_sharesTargets crewStore_keyed hunder hset hlevel rfl hends).mp rfl⟩

end Compiler

end LinkQuery
