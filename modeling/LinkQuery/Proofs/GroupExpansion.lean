import LinkQuery.Proofs.GroupIdentity
import LinkQuery.Proofs.Reaching
import Mathlib.Logic.Relation
/-!
# What a group expands to

A group may name other groups, and lead back to itself through them. The walk over it opens each
group of the table at most once, wherever this is met first, and still finds everything that stands
in a group to which some chain of groups leads.

Main statements:
- `Schema.mem_groupWalk_iff`: the walk meets what is within the group.
- `Schema.length_groupWalk_le`: the walk is no longer than all the groups of the table.
- `Schema.group_expansion`: the members of a group, and the first link of it.
-/
namespace LinkQuery.Schema

variable {s : Schema} {table group name : String}

/-! ## What is within a group -/

/-- The group names the other one as a member. -/
def Opens (s : Schema) (table group inner : String) : Prop :=
  inner ∈ s.nestedFields table group ∧ s.fieldKind table inner = .group

/-- The name is a member of the group, or of a group to which groups lead from there. -/
def Within (s : Schema) (table group name : String) : Prop :=
  ∃ inner, Relation.ReflTransGen (s.Opens table) group inner ∧ name ∈ s.nestedFields table inner

theorem Within.member (h : name ∈ s.nestedFields table group) : s.Within table group name :=
  ⟨group, .refl, h⟩

theorem Within.through {inner : String} (hopens : s.Opens table group inner)
    (h : s.Within table inner name) : s.Within table group name := by
  obtain ⟨last, hchain, hname⟩ := h
  exact ⟨last, .head hopens hchain, hname⟩

/-- The walk meets just what is within the group and no group. -/
theorem mem_groupWalk_iff :
    name ∈ s.groupWalk table group ↔ s.Within table group name ∧ s.fieldKind table name ≠ .group := by
  rw [mem_groupWalk]
  constructor
  · intro h
    generalize hnames : s.nestedFields table group = names at h
    induction h generalizing group with
    | here hname hleaf => exact ⟨.member (hnames ▸ hname), by simpa using hleaf⟩
    | inside hinner hkind _ _ ih =>
      obtain ⟨hwithin, hleaf⟩ := ih rfl
      exact ⟨hwithin.through ⟨hnames ▸ hinner, by simpa using hkind⟩, hleaf⟩
  · rintro ⟨⟨inner, hchain, hname⟩, hleaf⟩
    -- From the innermost group outwards, each group is one that the walk may open.
    induction hchain using Relation.ReflTransGen.head_induction_on with
    | refl => exact .here hname (by simpa using hleaf)
    | head hopens _ ih =>
      exact .inside hopens.1 (by simpa using hopens.2) (mem_groupNames hopens.2) ih

theorem mem_groupMembers_iff : name ∈ s.groupMembers table group ↔
    s.Within table group name ∧ s.fieldKind table name ≠ .group := by
  rw [groupMembers, List.mem_eraseDups, mem_groupWalk_iff]

/-- A link that leads somewhere is within the group exactly where the walk meets it. -/
theorem LeadsTo.mem_groupWalk_iff {target : String} (h : s.LeadsTo table name target) :
    name ∈ s.groupWalk table group ↔ s.Within table group name := by
  have hleaf : s.fieldKind table name ≠ .group := by
    intro hkind
    have hlink := h.1
    rw [hkind] at hlink
    cases hlink
  rw [Schema.mem_groupWalk_iff, and_iff_left hleaf]

/-! ## The length of a walk -/

/-- Every name that a walk meets is one of its names, or a member of a group that it opened. -/
theorem length_expand_le {members : String → List String} {isGroup : String → Bool}
    {unopened names : List String} : (expand members isGroup unopened names).length ≤
      names.length + (unopened.flatMap members).length := by
  fun_induction expand members isGroup unopened names with
  | case1 => exact Nat.zero_le _
  | case2 unopened first rest _ hopen ih =>
    have hsplit := ((List.perm_cons_erase hopen).flatMap_right members).length_eq
    rw [List.flatMap_cons, List.length_append] at hsplit
    rw [List.length_append] at ih
    rw [List.length_cons]
    omega
  | case3 unopened first rest _ _ ih => exact ih.trans (by simp)
  | case4 unopened first rest _ ih =>
    rw [List.length_cons, List.length_cons]
    omega

/-- The walk over a group is no longer than its own list and those of the other groups. -/
theorem length_groupWalk_le : (s.groupWalk table group).length ≤
    (s.nestedFields table group).length +
      (((s.groupNames table).erase group).flatMap (s.nestedFields table)).length :=
  length_expand_le

/-! ## The expansion of a group -/

/-- The first link of a walk is one within the group, with the table that it leads to. -/
theorem firstLink_within {found : String × String} (h : s.firstLink? table group = some found) :
    s.Within table group found.1 ∧ s.LeadsTo table found.1 found.2 :=
  ⟨(mem_groupMembers_iff.mp (firstLink_mem h)).1, firstLink_leadsTo h⟩

/-- There is a first link exactly where a link within the group leads to a table. -/
theorem firstLink_isSome_iff : (s.firstLink? table group).isSome = true ↔
    ∃ link target, s.Within table group link ∧ s.LeadsTo table link target := by
  rw [Option.isSome_iff_exists]
  constructor
  · rintro ⟨found, hfound⟩
    exact ⟨found.1, found.2, firstLink_within hfound⟩
  · rintro ⟨link, target, hwithin, hlead⟩
    exact exists_firstLink (hlead.mem_groupWalk_iff.mpr hwithin) hlead

/--
The members of a group are, each once, the names within it that are no groups, and none is missed,
whichever way its groups lead back to each other. The first link of a group is a link within it that
leads to a table, with this table, and there is one exactly where there is such a link. The walk
that finds them meets no more names than the group and the other groups of the table list.
-/
theorem group_expansion (s : Schema) (table group : String) :
    (s.groupMembers table group).Nodup ∧
    (∀ name, name ∈ s.groupMembers table group ↔
      s.Within table group name ∧ s.fieldKind table name ≠ .group) ∧
    (∀ link target, s.firstLink? table group = some (link, target) →
      s.Within table group link ∧ s.LeadsTo table link target) ∧
    ((s.firstLink? table group).isSome = true ↔
      ∃ link target, s.Within table group link ∧ s.LeadsTo table link target) ∧
    (s.groupWalk table group).length ≤ (s.nestedFields table group).length +
      (((s.groupNames table).erase group).flatMap (s.nestedFields table)).length :=
  ⟨nodup_eraseDups _, fun _ => mem_groupMembers_iff, fun _ _ => firstLink_within,
    firstLink_isSome_iff, length_groupWalk_le⟩

/-- Tasks with two groups that lead to each other, each with a link of its own. -/
def circularTasks : Schema :=
  ⟨.ofList [("Task", ⟨.ofList [("Owner", .link "Person"),
    ("People", .group ["Staff", "Owner", "People"]), ("Staff", .group ["People", "Vendor"]),
    ("Vendor", .link "Person")]⟩)]⟩

/-- Both links are within each of the groups, in the order in which a walk from there meets them. -/
theorem group_expansion_circular :
    circularTasks.groupMembers "Task" "People" = ["Vendor", "Owner"] ∧
    circularTasks.groupMembers "Task" "Staff" = ["Owner", "Vendor"] ∧
    circularTasks.firstLink? "Task" "People" = some ("Vendor", "Person") ∧
    circularTasks.Within "Task" "People" "Vendor" ∧
    circularTasks.Within "Task" "Staff" "Owner" := by
  refine ⟨by decide +kernel, by decide +kernel, by decide +kernel, ?_, ?_⟩
  · exact ((group_expansion _ "Task" "People").2.2.1 "Vendor" "Person" (by decide +kernel)).1
  · exact (((group_expansion _ "Task" "Staff").2.1 "Owner").mp (by decide +kernel)).1

end LinkQuery.Schema
