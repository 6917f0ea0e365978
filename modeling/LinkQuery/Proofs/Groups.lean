import LinkQuery.Proofs.WellFormed
import Mathlib.Data.List.Basic
/-!
# What stands for a group

The walk over a group meets fields that are no groups, and the links of a group are links.

Main statements:
- `Schema.groupMembers_leaves`, `Schema.groupLinks_isLink`: what the members and the links are.
- `Schema.mem_groupMembers_of_links`, `Schema.mem_groupLinks_of_links`: a group of links only.
- `Schema.groupMembers_eq_groupLinks`: a group of links without repeats.
-/
namespace LinkQuery

namespace Schema

theorem expand_leaves {members : String → List String} {isGroup : String → Bool}
    {unopened names : List String} :
    ∀ name ∈ expand members isGroup unopened names, isGroup name = false := by
  fun_induction expand members isGroup unopened names with
  | case1 => simp
  | case2 _ _ _ _ _ ih => exact ih
  | case3 _ _ _ _ _ ih => exact ih
  | case4 _ name rest hgroup ih =>
    intro other hother
    rcases List.mem_cons.mp hother with rfl | hother
    · simpa using hgroup
    · exact ih other hother

/-- A walk over fields that are no groups meets just these. -/
theorem expand_of_leaves {members : String → List String} {isGroup : String → Bool}
    {unopened names : List String} (h : ∀ name ∈ names, isGroup name = false) :
    expand members isGroup unopened names = names := by
  induction names with
  | nil => rw [expand]
  | cons name rest ih =>
    rw [List.forall_mem_cons] at h
    rw [expand, if_neg (by simp [h.1]), ih h.2]

theorem groupMembers_leaves {s : Schema} {table group name : String}
    (h : name ∈ s.groupMembers table group) : s.fieldKind table name ≠ .group := by
  have hwalk : name ∈ s.groupWalk table group := List.mem_eraseDups.mp h
  simpa using expand_leaves name hwalk

theorem followable_isLink {s : Schema} {table name : String} {found : String × String}
    (h : s.followable? table name = some found) :
    found.1 = name ∧ s.LeadsTo table found.1 found.2 := by
  unfold followable? at h
  split at h
  · rename_i hlink
    cases htarget : s.linkTarget? table name with
    | none => simp [htarget] at h
    | some target =>
      obtain rfl : (name, target) = found := by simpa [htarget] using h
      exact ⟨rfl, hlink, htarget⟩
  · cases h

theorem firstLink_leadsTo {s : Schema} {table group : String} {found : String × String}
    (h : s.firstLink? table group = some found) : s.LeadsTo table found.1 found.2 := by
  obtain ⟨_, _, _, hfound⟩ := List.findSome?_eq_some_iff.mp h
  exact (followable_isLink hfound.2.1).2

theorem mem_dropRepeats {name : String} {names : List String} :
    name ∈ dropRepeats names ↔ name ∈ names := by
  fun_induction dropRepeats names with
  | case1 => rfl
  | case2 => rfl
  | case3 first rest ih => simp [ih]
  | case4 first next rest hne ih => simp [ih]

/-- The links of a group are what its members stand for. -/
theorem mem_groupLinks {s : Schema} {table group name : String} :
    name ∈ s.groupLinks table group ↔
      ∃ member ∈ s.nestedFields table group, s.memberLink? table member = some name := by
  rw [groupLinks, mem_dropRepeats, List.mem_filterMap]

theorem groupLinks_isLink {s : Schema} {table group name : String}
    (h : name ∈ s.groupLinks table group) : (s.fieldKind table name).isLink = true := by
  obtain ⟨member, -, hmember⟩ := mem_groupLinks.mp h
  unfold memberLink? at hmember
  split at hmember
  · rename_i hkind
    obtain rfl : member = name := by simpa using hmember
    simp [hkind, FieldKind.isLink]
  · rename_i hkind
    obtain rfl : member = name := by simpa using hmember
    simp [hkind, FieldKind.isLink]
  · cases hfirst : s.firstLink? table member with
    | none => simp [hfirst] at hmember
    | some found =>
      obtain rfl : found.1 = name := by simpa [hfirst] using hmember
      exact (firstLink_leadsTo hfirst).1
  · cases hmember

theorem memberLink_of_isLink {s : Schema} {table name : String}
    (h : (s.fieldKind table name).isLink = true) : s.memberLink? table name = some name := by
  unfold memberLink?
  cases hkind : s.fieldKind table name <;> rw [hkind] at h <;> first | rfl | cases h

/-! ## Lists without repeats -/

theorem dropRepeats_of_nodup {names : List String} (h : names.Nodup) : dropRepeats names = names := by
  fun_induction dropRepeats names with
  | case1 => rfl
  | case2 => rfl
  | case3 first rest _ => simp at h
  | case4 first next rest _ ih => rw [ih h.of_cons]

theorem eraseDups_of_nodup {names : List String} (h : names.Nodup) : names.eraseDups = names := by
  induction names with
  | nil => rfl
  | cons first rest ih =>
    rw [List.nodup_cons] at h
    have hrest : rest.filter (fun name => !name == first) = rest := by
      refine List.filter_eq_self.mpr fun name hname => ?_
      have hne : name ≠ first := fun heq => h.1 (heq ▸ hname)
      simpa using hne
    rw [List.eraseDups_cons, hrest, ih h.2]

/-! ## Groups of links only -/

section Links

variable {s : Schema} {table group name : String}
  (hlinks : ∀ link ∈ s.nestedFields table group, (s.fieldKind table link).isLink = true)

include hlinks

theorem not_group_of_links :
    ∀ link ∈ s.nestedFields table group, (s.fieldKind table link == .group) = false := by
  intro link hlink
  have hkind := hlinks link hlink
  cases hlinkKind : s.fieldKind table link <;> rw [hlinkKind] at hkind <;> first | rfl | cases hkind

/-- The members of a group of links are its links. -/
theorem mem_groupMembers_of_links :
    name ∈ s.groupMembers table group ↔ name ∈ s.nestedFields table group := by
  rw [groupMembers, List.mem_eraseDups, groupWalk, expand_of_leaves (not_group_of_links hlinks)]

/-- The members of a group of links stand for themselves. -/
theorem filterMap_memberLink :
    (s.nestedFields table group).filterMap (s.memberLink? table) = s.nestedFields table group := by
  rw [List.filterMap_congr fun link hlink => memberLink_of_isLink (hlinks link hlink),
    List.filterMap_some]

/-- A group of links is followed along its links. -/
theorem mem_groupLinks_of_links :
    name ∈ s.groupLinks table group ↔ name ∈ s.nestedFields table group := by
  rw [groupLinks, mem_dropRepeats, filterMap_memberLink hlinks]

/-- A group of links without repeats is followed along its members. -/
theorem groupMembers_eq_groupLinks (hnodup : (s.nestedFields table group).Nodup) :
    s.groupMembers table group = s.groupLinks table group := by
  rw [groupMembers, groupWalk, expand_of_leaves (not_group_of_links hlinks), groupLinks,
    filterMap_memberLink hlinks, eraseDups_of_nodup hnodup, dropRepeats_of_nodup hnodup]

end Links

end Schema

end LinkQuery
