import LinkQuery.Proofs.Evaluability
/-!
# Groups whose links share a target

A traversal of a group leads to the table of the first link in it. Where the links of each group
lead to one table, this is the table of every object behind the group, however deep the group nests
other groups or itself.

Main statements:
- `Schema.mem_expand`: what the walk over a group meets.
- `Schema.GroupsShareTargets.followed`: a traversal leads to the table of each link it follows.
- `View.linked_table`, `View.reached_table`: the table of the objects behind a traversal.
-/
namespace LinkQuery

namespace Schema

/-! ## What a walk meets -/

section Walks

variable {members : String → List String} {isGroup : String → Bool} {unopened : List String}

/-- A name that is no group stands among the names, or inside one of the groups among them that may
be opened. -/
inductive Encloses (members : String → List String) (isGroup : String → Bool)
    (unopened : List String) : List String → String → Prop
  | here {names : List String} {name : String} (hname : name ∈ names)
    (hleaf : isGroup name = false) : Encloses members isGroup unopened names name
  | inside {names : List String} {group name : String} (hgroup : group ∈ names)
    (hkind : isGroup group = true) (hopen : group ∈ unopened)
    (h : Encloses members isGroup unopened (members group) name) :
    Encloses members isGroup unopened names name

theorem encloses_append {front back : List String} {name : String} :
    Encloses members isGroup unopened (front ++ back) name ↔
      Encloses members isGroup unopened front name ∨
        Encloses members isGroup unopened back name := by
  constructor
  · intro h
    cases h with
    | here hname hleaf => exact (List.mem_append.mp hname).imp (.here · hleaf) (.here · hleaf)
    | inside hgroup hkind hopen h =>
      exact (List.mem_append.mp hgroup).imp (.inside · hkind hopen h) (.inside · hkind hopen h)
  · intro h
    rcases h with h | h
    · cases h with
      | here hname hleaf => exact .here (List.mem_append_left _ hname) hleaf
      | inside hgroup hkind hopen h =>
        exact .inside (List.mem_append_left _ hgroup) hkind hopen h
    · cases h with
      | here hname hleaf => exact .here (List.mem_append_right _ hname) hleaf
      | inside hgroup hkind hopen h =>
        exact .inside (List.mem_append_right _ hgroup) hkind hopen h

theorem encloses_cons {first name : String} {rest : List String} :
    Encloses members isGroup unopened (first :: rest) name ↔
      Encloses members isGroup unopened [first] name ∨
        Encloses members isGroup unopened rest name :=
  @encloses_append _ _ _ [first] rest name

theorem Encloses.mono {more names : List String} {name : String}
    (hmore : ∀ group ∈ unopened, group ∈ more)
    (h : Encloses members isGroup unopened names name) :
    Encloses members isGroup more names name := by
  induction h with
  | here hname hleaf => exact .here hname hleaf
  | inside hgroup hkind hopen _ ih => exact .inside hgroup hkind (hmore _ hopen) ih

/-- Behind the last time that a group is opened, it is not opened again. -/
theorem Encloses.around {names : List String} {name : String} (group : String)
    (h : Encloses members isGroup unopened names name) :
    Encloses members isGroup (unopened.erase group) names name ∨
      Encloses members isGroup (unopened.erase group) (members group) name := by
  induction h with
  | here hname hleaf => exact Or.inl (.here hname hleaf)
  | @inside names other name hother hkind hopen h ih =>
    rcases ih with ih | ih
    · by_cases hsame : other = group
      · subst hsame
        exact Or.inr ih
      · exact Or.inl (.inside hother hkind ((List.mem_erase_of_ne hsame).mpr hopen) ih)
    · exact Or.inr ih

/-- A walk meets the names that are no groups among its names and inside the groups it may open. -/
theorem mem_expand {names : List String} {name : String} :
    name ∈ expand members isGroup unopened names ↔
      Encloses members isGroup unopened names name := by
  fun_induction expand members isGroup unopened names with
  | case1 unopened =>
    constructor
    · intro h
      cases h
    · intro h
      cases h with
      | here hname _ => cases hname
      | inside hgroup _ _ _ => cases hgroup
  | case2 unopened first rest hkind hopen ih =>
    rw [ih, encloses_append, encloses_cons]
    constructor
    · intro h
      have hback : ∀ {names : List String},
          Encloses members isGroup (unopened.erase first) names name →
            Encloses members isGroup unopened names name :=
        Encloses.mono fun _ => List.mem_of_mem_erase
      exact h.imp (fun h => .inside (List.mem_singleton_self _) hkind hopen (hback h)) hback
    · intro h
      rcases (encloses_cons.mpr h).around first with h | h
      · rcases encloses_cons.mp h with h | h
        · -- The group is no name that a walk meets, so that the name is inside it.
          cases h with
          | here hname hleaf =>
            rw [List.mem_singleton.mp hname, hkind] at hleaf
            cases hleaf
          | inside hgroup _ _ h =>
            rw [List.mem_singleton.mp hgroup] at h
            exact Or.inl h
        · exact Or.inr h
      · exact Or.inl h
  | case3 unopened first rest hkind hopen ih =>
    rw [ih, @encloses_cons _ _ _ first]
    refine ⟨Or.inr, fun h => h.resolve_left fun h => ?_⟩
    cases h with
    | here hname hleaf =>
      rw [List.mem_singleton.mp hname, hkind] at hleaf
      cases hleaf
    | inside hgroup _ hopened _ =>
      rw [List.mem_singleton.mp hgroup] at hopened
      exact hopen hopened
  | case4 unopened first rest hkind ih =>
    rw [List.mem_cons, ih, @encloses_cons _ _ _ first]
    refine or_congr_left ⟨?_, fun h => ?_⟩
    · intro h
      subst h
      exact .here (List.mem_singleton_self _) (by simpa using hkind)
    · cases h with
      | here hname _ => exact List.mem_singleton.mp hname
      | inside hgroup hkind' _ _ =>
        rw [List.mem_singleton.mp hgroup] at hkind'
        exact absurd hkind' hkind

end Walks

variable {s : Schema} {table group name : String}

theorem mem_groupNames (h : s.fieldKind table group = .group) : group ∈ s.groupNames table := by
  obtain ⟨field, hfield⟩ : ∃ field, s.field? table group = some field := by
    unfold fieldKind at h
    split at h
    · split at h <;> cases h
    · split at h
      · cases h
      · exact ⟨_, ‹_›⟩
  obtain ⟨fields, htable, hname⟩ := Option.bind_eq_some_iff.mp hfield
  rw [groupNames, List.mem_filter, htable]
  exact ⟨(NameMap.mem_of_find? hname).1, by simpa using h⟩

/-- The walk over a group meets what stands in the group and in the groups inside it. -/
theorem mem_groupWalk : name ∈ s.groupWalk table group ↔
    Encloses (s.nestedFields table) (fun name => s.fieldKind table name == .group)
      (s.groupNames table) (s.nestedFields table group) name := by
  rw [groupWalk, mem_expand]
  constructor
  · exact Encloses.mono fun _ => List.mem_of_mem_erase
  · intro h
    exact (h.around group).elim id id

/-- The walk over a group meets what the walk over a group in it meets. -/
theorem mem_groupWalk_nested {nested : String} (hnested : nested ∈ s.nestedFields table group)
    (hkind : s.fieldKind table nested = .group) (h : name ∈ s.groupWalk table nested) :
    name ∈ s.groupWalk table group :=
  mem_groupWalk.mpr
    (.inside hnested (by simpa using hkind) (mem_groupNames hkind) (mem_groupWalk.mp h))

/-! ## Shared targets -/

/-- The links in a group, and in the groups inside it, lead to one table. -/
def GroupsShareTargets (s : Schema) : Prop :=
  ∀ table group, ∀ a ∈ s.groupMembers table group, ∀ b ∈ s.groupMembers table group,
    ∀ first second, s.LeadsTo table a first → s.LeadsTo table b second → first = second

theorem firstLink_mem {found : String × String} (h : s.firstLink? table group = some found) :
    found.1 ∈ s.groupMembers table group := by
  obtain ⟨front, link, back, hwalk, hfound, -⟩ := List.findSome?_eq_some_iff.mp h
  rw [(followable_isLink hfound).1, groupMembers, List.mem_eraseDups, hwalk]
  simp

/-- The links that stand for a group are links in it. -/
theorem mem_groupMembers_of_groupLinks {link : String} (h : link ∈ s.groupLinks table group) :
    link ∈ s.groupMembers table group := by
  obtain ⟨member, hmember, hlink⟩ := mem_groupLinks.mp h
  have hkind := groupLinks_isLink h
  rw [groupMembers, List.mem_eraseDups]
  unfold memberLink? at hlink
  split at hlink
  · obtain rfl := Option.some.inj hlink
    exact mem_groupWalk.mpr (.here hmember (by simp [*]))
  · obtain rfl := Option.some.inj hlink
    exact mem_groupWalk.mpr (.here hmember (by simp [*]))
  · rename_i hgroup
    obtain ⟨found, hfirst, rfl⟩ := Option.map_eq_some_iff.mp hlink
    exact mem_groupWalk_nested hmember hgroup (List.mem_eraseDups.mp (firstLink_mem hfirst))
  · cases hlink

/-- The target of a role is the one that promotion goes to. -/
theorem role_target {role : FieldRole} (h : s.role table name = .ok role) :
    role.target? = Query.traversalTarget? s table name := by
  have hlink : ∀ target, s.requiredTarget table name = .ok target →
      s.linkTarget? table name = some target := by
    intro target htarget
    unfold requiredTarget at htarget
    split at htarget
    · rename_i found hfound
      rw [hfound, Except.ok.inj htarget]
    · cases htarget
  unfold Schema.role at h
  unfold Query.traversalTarget?
  split at h <;> rename_i hkind <;> rw [hkind]
  case h_3 | h_4 =>
    obtain ⟨target, htarget, rfl⟩ := map_eq_ok h
    exact (hlink target htarget).symm
  case h_5 =>
    split at h
    · cases h
    · obtain rfl := Except.ok.inj h
      rfl
  case h_7 => split at h <;> cases h
  all_goals
    obtain rfl := Except.ok.inj h
    rfl

/-- A traversal leads to the table of each link that is followed for it. -/
theorem GroupsShareTargets.followed (h : s.GroupsShareTargets) {target found link : String}
    (htarget : Query.traversalTarget? s table name = some target)
    (hlink : link ∈ s.followed table name) (hfound : s.linkTarget? table link = some found) :
    found = target := by
  unfold Query.traversalTarget? at htarget
  unfold Schema.followed at hlink
  split at htarget
  · rename_i hkind
    rw [hkind, List.mem_singleton] at hlink
    subst hlink
    exact Option.some.inj (hfound.symm.trans htarget)
  · rename_i hkind
    rw [hkind, List.mem_singleton] at hlink
    subst hlink
    exact Option.some.inj (hfound.symm.trans htarget)
  · rename_i hkind
    rw [hkind] at hlink
    obtain ⟨first, hfirst, rfl⟩ := Option.map_eq_some_iff.mp htarget
    exact h table name link (mem_groupMembers_of_groupLinks hlink) first.1 (firstLink_mem hfirst)
      found first.2 ⟨groupLinks_isLink hlink, hfound⟩ (firstLink_leadsTo hfirst)
  · cases htarget

/-- The links that a name stands for lead to one table. -/
theorem GroupsShareTargets.followed_together (h : s.GroupsShareTargets)
    {link link' target target' : String} (hlink : link ∈ s.followed table name)
    (hlink' : link' ∈ s.followed table name) (htarget : s.linkTarget? table link = some target)
    (htarget' : s.linkTarget? table link' = some target') : target = target' := by
  have hone : link ∈ [name] → link' ∈ [name] → target = target' := by
    intro hlink hlink'
    rw [List.mem_singleton.mp hlink] at htarget
    rw [List.mem_singleton.mp hlink'] at htarget'
    exact Option.some.inj (htarget.symm.trans htarget')
  unfold Schema.followed at hlink hlink'
  cases hkind : s.fieldKind table name with
  | link =>
    rw [hkind] at hlink hlink'
    exact hone hlink hlink'
  | crossLink =>
    rw [hkind] at hlink hlink'
    exact hone hlink hlink'
  | group =>
    rw [hkind] at hlink hlink'
    exact h table name link (mem_groupMembers_of_groupLinks hlink) link'
      (mem_groupMembers_of_groupLinks hlink') target target'
      ⟨groupLinks_isLink hlink, htarget⟩ ⟨groupLinks_isLink hlink', htarget'⟩
  | _ =>
    rw [hkind] at hlink
    cases hlink

/-- Where all links lead to one table, so do those of each group. -/
theorem groupsShareTargets_of_targets {target : String}
    (h : ∀ fields ∈ s.tables.values, ∀ field ∈ fields.fields.values, ∀ found ∈ field.target,
      found = target) : s.GroupsShareTargets := by
  have hone : ∀ {table name found : String}, s.LeadsTo table name found → found = target := by
    intro table name found hlead
    have hfound := hlead.2
    unfold linkTarget? at hfound
    split at hfound
    · cases hfound
    · rename_i field hfield
      obtain ⟨fields, htable, hname⟩ := Option.bind_eq_some_iff.mp hfield
      have hfield := h fields (NameMap.mem_of_find? htable).2 field (NameMap.mem_of_find? hname).2
      split at hfound
      · exact hfield found hfound
      · exact hfield found hfound
      · cases hfound
  intro table group a _ b _ first second hfirst hsecond
  rw [hone hfirst, hone hsecond]

end Schema

namespace View

open Query (traversalTarget?)

variable {v : View} {a : Located} {name target : String}

/-- The objects behind a traversal are of the table that it leads to. -/
theorem linked_table (hshare : v.schema.GroupsShareTargets)
    (htarget : traversalTarget? v.schema a.table name = some target) :
    ∃ found, v.linked a name = .ok found ∧ ∀ b ∈ found, b.table = target := by
  have hlinks : v.linksOf a.table name = .ok (v.schema.followed a.table name) := by
    refine linksOf_followed ?_
    unfold traversalTarget? at htarget
    split at htarget <;> simp_all [FieldKind.isLink]
  obtain ⟨found, hfound, hfollows⟩ := linked_total hlinks
  refine ⟨found, hfound, fun b hb => ?_⟩
  obtain ⟨link, hlink, hb⟩ := hfollows b hb
  exact hshare.followed htarget hlink hb.1

/-- Repeated steps along a traversal that leads back to its table stay in this table. -/
theorem reached_table (hshare : v.schema.GroupsShareTargets)
    (htarget : traversalTarget? v.schema a.table name = some a.table) {limit : Option Nat} :
    ∃ found, v.reached a name limit = .ok found ∧ ∀ b ∈ found, b.table = a.table :=
  reached_total (fun _ hb => linked_table hshare (hb ▸ htarget)) rfl

end View

end LinkQuery
