import LinkQuery.Proofs.GroupExpansion
import LinkQuery.Proofs.GroupingOptions
import LinkQuery.Proofs.Heights
import Mathlib.Data.List.Destutter
/-!
# Links that a group repeats

A group is followed along what its members stand for: a link for itself, a group inside it for its
first link. Of these links only those are left out that stand next to themselves, so that the group
is followed along a link twice where some other link stands between two members with this link. A
grouping through the group repeats the link then, and so does a filter with further segments behind
the group. A filter that ends in the group has one branch for each of its members instead, which
never repeat.

Main statements:
- `Schema.groupLinks_nodup_iff`: when the links of a group do not repeat.
- `Filter.segmentQuery_branches`: the branches of a group in a filter.
- `Compiler.group_links_gathered`: what this means for groupings and filters.
-/
namespace LinkQuery

namespace Schema

/-! ## Neighbours that repeat -/

section Names

variable {names rest : List String} {name next : String}

/-- Between two places of a name stands nothing but this name. -/
def Gathered (names : List String) : Prop :=
  ∀ (first last : Nat) (name : String), names[first]? = some name → names[last]? = some name →
    ∀ between : Nat, first ≤ between → between ≤ last → names[between]? = some name

theorem dropRepeats_eq_destutter (names : List String) :
    dropRepeats names = names.destutter (· ≠ ·) := by
  fun_induction dropRepeats names with
  | case1 => rfl
  | case2 => rfl
  | case3 first rest ih => rw [ih, List.destutter_cons_cons, if_neg (by simp), List.destutter_cons']
  | case4 first next rest hne ih => rw [ih, List.destutter_cons_cons, if_pos hne, List.destutter_cons']

theorem gathered_nil : Gathered [] := by
  intro first _ name hfirst
  rw [List.getElem?_nil] at hfirst
  cases hfirst

theorem Gathered.tail (h : Gathered (name :: rest)) : Gathered rest :=
  fun first last other hfirst hlast between hle hle' =>
    h (first + 1) (last + 1) other hfirst hlast (between + 1) (Nat.succ_le_succ hle)
      (Nat.succ_le_succ hle')

/-- A name that comes again later comes again at once. -/
theorem Gathered.head_eq (h : Gathered (name :: next :: rest)) (hmem : name ∈ next :: rest) :
    name = next := by
  obtain ⟨last, hlast⟩ := List.mem_iff_getElem?.mp hmem
  have hnext := h 0 (last + 1) name rfl hlast 1 (Nat.zero_le 1) (Nat.succ_le_succ (Nat.zero_le last))
  exact (Option.some.inj hnext).symm

/-- A new name, or one more of the first name, may stand in front of gathered names. -/
theorem Gathered.cons (h : Gathered rest) (hname : name ∈ rest → rest.head? = some name) :
    Gathered (name :: rest) := by
  intro first last other hfirst hlast between hle hle'
  cases between with
  | zero => rwa [Nat.le_zero.mp hle] at hfirst
  | succ between =>
    obtain ⟨last, rfl⟩ : ∃ k, last = k + 1 := Nat.exists_eq_succ_of_ne_zero (by omega)
    have hle' := Nat.le_of_succ_le_succ hle'
    cases first with
    | zero =>
      obtain rfl := Option.some.inj hfirst
      have hhead := hname (List.mem_of_getElem? hlast)
      rw [List.head?_eq_getElem?] at hhead
      exact h 0 last _ hhead hlast between (Nat.zero_le between) hle'
    | succ first => exact h first last _ hfirst hlast between (Nat.le_of_succ_le_succ hle) hle'

/-- Without repeating neighbours no name repeats exactly where each stands in one place. -/
theorem dropRepeats_nodup_iff : (dropRepeats names).Nodup ↔ Gathered names := by
  fun_induction dropRepeats names with
  | case1 => exact iff_of_true List.nodup_nil gathered_nil
  | case2 name =>
    exact iff_of_true (List.nodup_singleton name)
      (gathered_nil.cons fun hname => absurd hname List.not_mem_nil)
  | case3 first rest ih => exact ih.trans ⟨fun h => h.cons fun _ => rfl, Gathered.tail⟩
  | case4 first next rest hne ih =>
    rw [List.nodup_cons, mem_dropRepeats, ih]
    constructor
    · rintro ⟨hnew, h⟩
      exact h.cons fun hmem => absurd hmem hnew
    · exact fun h => ⟨fun hmem => hne (h.head_eq hmem), h.tail⟩

end Names

/-! ## Links of a group -/

variable {s : Schema} {table group : String}

/-- The links that the members of a group stand for, in the order of the members. -/
def memberLinks (s : Schema) (table group : String) : List String :=
  (s.nestedFields table group).filterMap (s.memberLink? table)

/-- Members of the group that stand for the same link stand side by side. -/
def Gathers (s : Schema) (table group : String) : Prop :=
  Gathered (s.memberLinks table group)

/-- The links of a group do not repeat exactly where it gathers them. -/
theorem groupLinks_nodup_iff : (s.groupLinks table group).Nodup ↔ s.Gathers table group :=
  dropRepeats_nodup_iff

/-- A member stands for itself, or for a link within it. -/
theorem memberLink_within {member link : String} (h : s.memberLink? table member = some link) :
    link = member ∨ s.Within table member link := by
  unfold memberLink? at h
  split at h
  · exact Or.inl (Option.some.inj h).symm
  · exact Or.inl (Option.some.inj h).symm
  · obtain ⟨found, hfound, rfl⟩ := Option.map_eq_some_iff.mp h
    exact Or.inr (firstLink_within hfound).1
  · cases h

/-- No name is, or is within, two of the members of the group. -/
def MembersApart (s : Schema) (table group : String) : Prop :=
  (s.nestedFields table group).Pairwise fun a b => ∀ name,
    (name = a ∨ s.Within table a name) → ¬(name = b ∨ s.Within table b name)

/-- A group whose members have nothing in common repeats no link. -/
theorem MembersApart.gathers (h : s.MembersApart table group) : s.Gathers table group := by
  have hlinks : (s.memberLinks table group).Nodup := by
    refine List.pairwise_filterMap.mpr (h.imp fun hapart => ?_)
    rintro link hlink _ hlink' rfl
    exact hapart link (memberLink_within hlink) (memberLink_within hlink')
  exact dropRepeats_nodup_iff.mp ((dropRepeats_of_nodup hlinks).symm ▸ hlinks)

end Schema

/-! ## Groups in filters -/

namespace Query

/-- The link that a tree leads along first, or that it tests. -/
def leadingLink? : Query → Option String
  | .negated inner => inner.leadingLink?
  | .link _ name _ _ => some name
  | .transitiveLink name _ _ => some name
  | .linkId _ name _ => some name
  | .linkCount name _ _ _ => some name
  | .linkCountRange name _ _ => some name
  | _ => none

@[simp]
theorem leadingLink?_not (q : Query) : (Query.not q).leadingLink? = q.leadingLink? := by
  cases q <;> simp [Query.not, leadingLink?]

end Query

namespace Filter

open Query (leadingLink?)

variable {scope : Scope} {nested : Nested} {table target : String} {segment : Segment}
  {onward : Option Onward} {tail : Tail} {q : Query}

theorem linkEnd_leads {quantifier : Quantifier} {link : String} {filter : Option Query} :
    Ensures (leadingLink? · = some link) (linkEnd quantifier link filter tail) := by
  unfold linkEnd
  split
  case h_4 => exact .ok (by cases filter <;> simp [leadingLink?])
  all_goals first | exact .error | exact .ok (by simp [leadingLink?])

theorem linkQuery_leads :
    Ensures (leadingLink? · = some segment.name) (linkQuery nested segment target onward tail) := by
  refine Ensures.after fun filter => ?_
  split
  · refine Ensures.guarded (Ensures.after fun inner => .ok (by simp [leadingLink?]))
  · exact Ensures.after fun inner => .ok (by simp [leadingLink?])
  · exact linkEnd_leads

theorem quantifiedRepeat_leads {link : String} {quantifier : Option Quantifier} {traversal : Query}
    (h : traversal.leadingLink? = some link) :
    Ensures (leadingLink? · = some link) (quantifiedRepeat link quantifier traversal) := by
  unfold quantifiedRepeat
  split
  · exact .ok h
  · exact .ok h
  · exact .ok (by simp [h])
  · exact .error

theorem repeatedLinkQuery_leads : Ensures (leadingLink? · = some segment.name)
    (repeatedLinkQuery nested segment target onward tail) := by
  refine Ensures.after fun filter => Ensures.after fun condition => ?_
  cases onward with
  | none =>
    refine Ensures.after fun continuation => quantifiedRepeat_leads ?_
    split <;> simp [leadingLink?]
  | some onward =>
    refine Ensures.after fun continuation => quantifiedRepeat_leads ?_
    split <;> simp [leadingLink?]

/-- A field with values leads along no link. -/
theorem leafQuery_leads {type : Option ScalarType} {several : Bool} :
    Ensures (leadingLink? · = none) (leafQuery type several segment tail) := by
  have hvalue : (hasValue type segment.name).leadingLink? = none := by
    unfold hasValue
    split <;> simp [leadingLink?]
  have htest : Ensures (leadingLink? · = none) (leafTest type segment.name tail) := by
    unfold leafTest
    split
    · exact .ok hvalue
    · exact .ok hvalue
    · exact .ok (by simp [hvalue])
    · exact Ensures.after fun _ => .ok (by simp [leadingLink?])
    · exact Ensures.after fun _ => .ok (by simp [leadingLink?])
    · exact .error
    · exact .ok (by simp [leadingLink?])
    · exact .ok (by simp [leadingLink?])
  unfold leafQuery
  refine Ensures.guarded (htest.bind fun test htest => ?_)
  split
  · unfold quantifiedTest
    split
    · exact .ok (by simp [leadingLink?])
    · exact .error
    · exact .ok (by simp [leadingLink?])
  · exact .ok htest

/-- A link leads along itself, any other field along no link. -/
theorem fieldQuery_leads {role : FieldRole} :
    Ensures (leadingLink? · = if role.kind.isLink then some segment.name else none)
      (fieldQuery nested role segment onward tail) := by
  have hlink : ∀ target, Ensures (leadingLink? · = some segment.name)
      (anyLinkQuery nested segment target onward tail) := by
    intro target
    unfold anyLinkQuery
    split
    · exact repeatedLinkQuery_leads
    · exact linkQuery_leads
  cases role with
  | link target => exact hlink target
  | crossLink target => exact hlink target
  | group target => exact .error
  | scalar type => exact leafQuery_leads
  | multiValued type => exact leafQuery_leads
  | system => exact leafQuery_leads

/-! ## Branches of a group -/

theorem memberQuery_leads {member : String} :
    Ensures (leadingLink? · =
        if (scope.schema.fieldKind table member).isLink then some member else none)
      (memberQuery scope nested table segment onward tail member) := by
  intro q h
  obtain ⟨role, hrole, h⟩ := bind_eq_ok h
  rw [← Schema.role_kind (Schema.resolveSegment_yields.of_ok hrole).named]
  exact fieldQuery_leads q h

/-- The branches of a group, one for each field that stands for it, in the order of the fields. -/
def IsBranches (scope : Scope) (nested : Nested) (table : String) (segment : Segment)
    (onward : Option Onward) (tail : Tail) (branches : List Query) : Prop :=
  List.Forall₂
    (fun member branch => memberQuery scope nested table segment onward tail member = .ok branch)
    (standIns scope.schema table segment.name onward.isNone) branches

theorem forall₂_of_mapM {α β : Type} {f : α → Except QueryError β} {as : List α} {bs : List β}
    (h : as.mapM f = .ok bs) : List.Forall₂ (fun a b => f a = .ok b) as bs := by
  induction as generalizing bs with
  | nil =>
    obtain rfl := Except.ok.inj h
    exact .nil
  | cons first rest ih =>
    rw [List.mapM_cons] at h
    obtain ⟨b, hb, h⟩ := bind_eq_ok h
    obtain ⟨others, hothers, h⟩ := bind_eq_ok h
    obtain rfl := Except.ok.inj h
    exact .cons hb (ih hothers)

/-- The tree of a group joins its branches: inside `ALL` and `NONE` each has to hold, else one. -/
theorem segmentQuery_branches (hgroup : scope.schema.fieldKind table segment.name = .group)
    (h : segmentQuery scope nested table segment onward tail = .ok q) :
    ∃ branches, IsBranches scope nested table segment onward tail branches ∧
      q = if segment.isUniversal then Query.and branches else Query.or branches := by
  obtain ⟨-, h⟩ := segmentQuery_group hgroup h
  have hbranches : Ensures (fun q => ∃ branches,
      IsBranches scope nested table segment onward tail branches ∧
        q = if segment.isUniversal then Query.and branches else Query.or branches)
      (groupQuery scope nested table segment onward tail) := by
    unfold groupQuery
    refine Ensures.guarded (Ensures.guarded ?_)
    exact Ensures.bind (fun branches => forall₂_of_mapM) fun branches hbranches =>
      .ok ⟨branches, hbranches, rfl⟩
  exact hbranches q h

/-- The branches lead along the links among the fields that stand for the group. -/
theorem IsBranches.leads {branches : List Query}
    (h : IsBranches scope nested table segment onward tail branches) :
    branches.filterMap leadingLink? =
      (standIns scope.schema table segment.name onward.isNone).filter fun member =>
        (scope.schema.fieldKind table member).isLink := by
  unfold IsBranches at h
  generalize standIns scope.schema table segment.name onward.isNone = members at h
  induction h with
  | nil => rfl
  | @cons member branch _ _ hbranch _ ih =>
    rw [List.filterMap_cons, List.filter_cons, memberQuery_leads _ hbranch, ih]
    by_cases hlink : (scope.schema.fieldKind table member).isLink = true
    · rw [if_pos hlink, if_pos hlink]
    · rw [if_neg hlink, if_neg hlink]

/-- No link is repeated at the end of a path. In front of further segments no link is repeated
exactly where those that stand for the group stand side by side. -/
theorem IsBranches.leads_nodup_iff {branches : List Query}
    (h : IsBranches scope nested table segment onward tail branches) :
    (branches.filterMap leadingLink?).Nodup ↔
      (onward.isSome = true → scope.schema.Gathers table segment.name) := by
  rw [h.leads]
  cases onward with
  | none =>
    have hmembers : (scope.schema.groupMembers table segment.name).Nodup := nodup_eraseDups _
    exact iff_of_true (hmembers.filter _) nofun
  | some onward =>
    have hlinks : (scope.schema.groupLinks table segment.name).filter
        (fun member => (scope.schema.fieldKind table member).isLink) =
        scope.schema.groupLinks table segment.name :=
      List.filter_eq_self.mpr fun _ => Schema.groupLinks_isLink
    show (List.filter _ (scope.schema.groupLinks table segment.name)).Nodup ↔ _
    rw [hlinks, Schema.groupLinks_nodup_iff]
    exact ⟨fun h _ => h, fun h => h rfl⟩

end Filter

/-! ## Groups in groupings -/

section Steps

open Query (traversalTarget?)

variable {schema : Schema} {good : Time.Timestamp → Prop} {table : String} {item : GroupItem}

/-- The table that the steps lead to. -/
def tableBehind? (schema : Schema) (table : String) (steps : List GroupItem) : Option String :=
  steps.foldlM (fun current step => traversalTarget? schema current step.name) table

/-- Each step is one of the table that the steps in front of it lead to. -/
theorem StepsAlong.readsIn {front back : List GroupItem}
    (h : StepsAlong schema good table (front ++ item :: back)) :
    ∃ owner, tableBehind? schema table front = some owner ∧ item.ReadsIn schema good owner := by
  induction front generalizing table with
  | nil => exact ⟨table, rfl, h.1⟩
  | cons step rest ih =>
    obtain ⟨target, htarget, hrest⟩ := h.2.resolve_left (by simp)
    obtain ⟨owner, howner, hitem⟩ := ih hrest
    refine ⟨owner, ?_, hitem⟩
    rw [tableBehind?, List.foldlM_cons, htarget]
    exact howner

/-- A group stands for its links, and no other step for any. -/
theorem GroupItem.ReadsIn.nestedLinks (h : item.ReadsIn schema good table)
    (hnested : item.nestedLinks ≠ [] → item.kind = .group) :
    item.nestedLinks =
      if schema.fieldKind table item.name = .group then schema.groupLinks table item.name
      else [] := by
  rw [h.kind] at hnested
  split
  · rename_i hgroup
    have hlinks := h.links
    rw [GroupItem.links, h.kind, Schema.followed, hgroup] at hlinks
    exact hlinks
  · rename_i hother
    by_contra hne
    exact hother (hnested hne)

end Steps

namespace Compiler

open Query (leadingLink?)

/--
A group is followed along the links that its members stand for, without those that stand next to
themselves. No link is repeated exactly where members that stand for one link stand side by side, as
they do if the members have nothing in common. This tells which steps of a compiled grouping repeat
a link, and which branches of a group in a filter do: those in front of further segments, while at
the end of a path no link is repeated.
-/
theorem group_links_gathered (c : Compiler) :
    (∀ table group,
      c.schema.groupLinks table group = (c.schema.memberLinks table group).destutter (· ≠ ·) ∧
      ((c.schema.groupLinks table group).Nodup ↔ c.schema.Gathers table group) ∧
      (c.schema.MembersApart table group → c.schema.Gathers table group)) ∧
    (∀ base table input sets, c.GroupsUnder base table input sets →
      ∀ set ∈ sets, ∀ level ∈ set.levels, ∀ front item back, level.items = front ++ item :: back →
        ∃ owner, tableBehind? c.schema table front = some owner ∧
          item.nestedLinks =
            (if c.schema.fieldKind owner item.name = .group then c.schema.groupLinks owner item.name
              else []) ∧
          (item.nestedLinks.Nodup ↔ (c.schema.fieldKind owner item.name = .group →
            c.schema.Gathers owner item.name))) ∧
    (∀ (scope : Filter.Scope) nested table segment onward tail q, scope.schema = c.schema →
      c.schema.fieldKind table segment.name = .group →
      Filter.segmentQuery scope nested table segment onward tail = .ok q →
        ∃ branches, Filter.IsBranches scope nested table segment onward tail branches ∧
          q = (if segment.isUniversal then Query.and branches else Query.or branches) ∧
          ((branches.filterMap leadingLink?).Nodup ↔
            (onward.isSome = true → c.schema.Gathers table segment.name))) := by
  refine ⟨fun table group => ⟨Schema.dropRepeats_eq_destutter _, Schema.groupLinks_nodup_iff,
    Schema.MembersApart.gathers⟩, ?_, ?_⟩
  · intro base table input sets hsets set hset level hlevel front item back hitems
    have hwell := groupingsUnder_wellFormed hsets.compiled set hset level hlevel
    obtain ⟨owner, howner, hreads⟩ := StepsAlong.readsIn (hitems ▸ hwell.steps)
    have hnested := hreads.nestedLinks (hwell.nested item (by simp [hitems]))
    refine ⟨owner, howner, hnested, ?_⟩
    rw [hnested]
    split
    · rename_i hgroup
      rw [Schema.groupLinks_nodup_iff]
      exact ⟨fun h _ => h, fun h => h hgroup⟩
    · rename_i hother
      exact iff_of_true List.nodup_nil fun hgroup => absurd hgroup hother
  · rintro scope nested table segment onward tail q hschema hgroup h
    rw [← hschema] at hgroup ⊢
    obtain ⟨branches, hbranches, hq⟩ := Filter.segmentQuery_branches hgroup h
    exact ⟨branches, hbranches, hq, hbranches.leads_nodup_iff⟩

/-- Behind a group of two links, neither a step of a grouping nor the branches of a filter repeat a
link. -/
theorem group_links_gathered_people : crew.schema.Gathers "Task" "People" ∧
    (∃ sets set level item, crew.GroupsUnder none "Task" "People.Name" sets ∧ set ∈ sets ∧
      level ∈ set.levels ∧ level.items.head? = some item ∧
      item.nestedLinks = ["Owner", "Vendor"] ∧ item.nestedLinks.Nodup) ∧
    ∃ scope onward q branches, crew.scope = .ok scope ∧
      Filter.segmentQuery scope (Filter.buildIn scope) "Task" (.named "People" 0) (some onward)
        (.compare .eq (.raw (.text "x"))) = .ok q ∧
      q.text = "Owner.ANY(Name = 'x') OR Vendor.ANY(Name = 'x')" ∧
      Filter.IsBranches scope (Filter.buildIn scope) "Task" (.named "People" 0) (some onward)
        (.compare .eq (.raw (.text "x"))) branches ∧
      (branches.filterMap leadingLink?).Nodup := by
  obtain ⟨hall, hgroupings, hfilters⟩ := group_links_gathered crew
  have hgathers : crew.schema.Gathers "Task" "People" :=
    (hall "Task" "People").2.1.mp (by decide +kernel)
  refine ⟨hgathers, ?_, ?_⟩
  · have hrun : (crew.groupings "Task" "People.Name").toOption.bind (fun sets =>
        sets.head?.bind fun set => set.levels.head?.map fun level =>
          level.items.map fun item => (item.name, item.nestedLinks)) =
        some [("People", ["Owner", "Vendor"]), ("Name", [])] := by decide +kernel
    obtain ⟨sets, hsets, hrun⟩ := Option.bind_eq_some_iff.mp hrun
    obtain ⟨set, hset, hrun⟩ := Option.bind_eq_some_iff.mp hrun
    obtain ⟨level, hlevel, hrun⟩ := Option.map_eq_some_iff.mp hrun
    obtain ⟨item, rest, hitems, hitem, -⟩ := List.map_eq_cons_iff.mp hrun
    obtain ⟨hname, hlinks⟩ := Prod.ext_iff.mp hitem
    have hunder : crew.GroupsUnder none "Task" "People.Name" sets :=
      Or.inl ⟨toOption_eq_some hsets, rfl⟩
    have hset := List.mem_of_head? hset
    have hlevel := List.mem_of_head? hlevel
    obtain ⟨owner, howner, -, hnodup⟩ :=
      hgroupings none "Task" "People.Name" sets hunder set hset level hlevel [] item rest hitems
    obtain rfl : "Task" = owner := Option.some.inj howner
    exact ⟨sets, set, level, item, hunder, hset, hlevel, by rw [hitems]; rfl, hlinks,
      hnodup.mpr fun _ => by rw [show item.name = "People" from hname]; exact hgathers⟩
  · have hrun : crew.scope.toOption.bind (fun scope =>
        (Filter.segmentQuery scope (Filter.buildIn scope) "Task" (.named "People" 0)
          (some ⟨fun target tail => Filter.chainQuery scope (Filter.buildIn scope) target
            (.named "Name" 0) [] tail, false⟩)
          (.compare .eq (.raw (.text "x")))).toOption.map Query.text) =
        some "Owner.ANY(Name = 'x') OR Vendor.ANY(Name = 'x')" := by decide +kernel
    obtain ⟨scope, hscope, hrun⟩ := Option.bind_eq_some_iff.mp hrun
    obtain ⟨q, hq, htext⟩ := Option.map_eq_some_iff.mp hrun
    have hscope := toOption_eq_some hscope
    have hq := toOption_eq_some hq
    obtain ⟨branches, hbranches, -, hnodup⟩ := hfilters scope _ "Task" (.named "People" 0) _ _ q
      (crew.scope_yields.of_ok hscope) (by decide) hq
    exact ⟨scope, _, q, branches, hscope, hq, htext, hbranches, hnodup.mpr fun _ => hgathers⟩

/-- The fields of tasks with a group of two links and of a group around the first of them. -/
def staffedTask : TableDef :=
  ⟨.ofList [("Owner", .link "Person"), ("People", .group ["Owner", "Vendor", "Staff"]),
    ("Staff", .group ["Owner"]), ("Vendor", .link "Person")]⟩

/-- Tasks with a group of two links and of a group around the first of them. -/
def staffedCrew : Compiler :=
  ⟨⟨.ofList [("Person", ⟨.ofList [("Name", .scalar .text)]⟩), ("Task", staffedTask)]⟩,
    .standard ⟨0, 0, 0⟩⟩

theorem staffedCrew_groupCycle : staffedCrew.schema.groupCycle? = none := by
  have htables : staffedCrew.schema.tables.entries =
      [("Person", ⟨.ofList [("Name", .scalar .text)]⟩), ("Task", staffedTask)] := rfl
  have hperson : Schema.declaredGroups ⟨.ofList [("Name", .scalar .text)]⟩ = [] := by decide
  have hgroups : Schema.declaredGroups staffedTask = ["People", "Staff"] := by decide
  have hpeople : Schema.declaredMembers staffedTask "People" = ["Owner", "Vendor", "Staff"] := by
    decide
  have hstaff : Schema.declaredMembers staffedTask "Staff" = ["Owner"] := by decide
  simp [Schema.groupCycle?, htables, hperson, hgroups, Schema.containsItself, hpeople, hstaff,
    Schema.meets]

/-- The first link stands for a member on each side of the second one: a step of a grouping and the
branches of a filter repeat it, although no group contains itself and the members are two. -/
theorem staffed_group_repeats : staffedCrew.schema.groupCycle? = none ∧
    staffedCrew.schema.groupMembers "Task" "People" = ["Owner", "Vendor"] ∧
    staffedCrew.schema.groupLinks "Task" "People" = ["Owner", "Vendor", "Owner"] ∧
    ¬(staffedCrew.schema.groupLinks "Task" "People").Nodup ∧
    (staffedCrew.groupings "Task" "People.Name").toOption.map (·.map (·.levels.map fun level =>
      level.items.map (·.nestedLinks))) = some [[[["Owner", "Vendor", "Owner"], []]]] ∧
    (staffedCrew.filter "Task" "People.Name = 'x'").toOption.map (·.map Query.text) =
      some (some
        "Owner.ANY(Name = 'x') OR Vendor.ANY(Name = 'x') OR Owner.ANY(Name = 'x')") := by
  have hlinks : staffedCrew.schema.groupLinks "Task" "People" = ["Owner", "Vendor", "Owner"] := by
    decide +kernel
  refine ⟨staffedCrew_groupCycle, by decide +kernel, hlinks, ?_, by decide +kernel,
    by decide +kernel⟩
  rw [hlinks]
  decide

end Compiler

end LinkQuery
