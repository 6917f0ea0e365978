import LinkQuery.Proofs.GroupExpansion
import LinkQuery.Schema.Document
import Mathlib.Data.Prod.Lex
import Mathlib.Data.String.Basic
/-!
# Groups that contain themselves

A group contains itself when the names that groups list lead from it back to it. The search for such
a group opens each group of a table at most once and never closes one again; it still finds every
way back, since what a group leads to does not depend on how the search came to it. The groups of a
schema are tried in the order of tables and names, so that the first of them is reported.

Main statements:
- `NameMap.ofList_ordered`, `Schema.ofJson?_ordered`: maps stand in the order of their names.
- `Schema.meets_iff`: what a search meets.
- `Schema.circular_iff`: a group contains itself exactly where the search finds it.
- `Schema.group_cycles_found`: the group that is reported, and the documents that are accepted.
-/
namespace LinkQuery

/-! ## Maps in the order of their names -/

namespace NameMap

variable {α : Type} {m : NameMap α} {name : String} {value : α}

/-- The entries stand in the order of their names, one for each name. -/
def Ordered (m : NameMap α) : Prop :=
  m.entries.Pairwise fun a b => a.1 < b.1

theorem empty_ordered : (empty : NameMap α).Ordered := List.Pairwise.nil

theorem mem_insertEntry {entry : String × α} {entries : List (String × α)}
    (h : entry ∈ insertEntry name value entries) : entry = (name, value) ∨ entry ∈ entries := by
  induction entries with
  | nil => exact Or.inl (List.mem_singleton.mp h)
  | cons first rest ih =>
    rw [insertEntry] at h
    split at h
    · exact (List.mem_cons.mp h).imp_right (List.mem_cons_of_mem _)
    · split at h
      · exact List.mem_cons.mp h
      · rcases List.mem_cons.mp h with rfl | h
        · exact Or.inr List.mem_cons_self
        · exact (ih h).imp_right (List.mem_cons_of_mem _)

theorem insertEntry_ordered {entries : List (String × α)}
    (h : entries.Pairwise fun a b => a.1 < b.1) :
    (insertEntry name value entries).Pairwise fun a b => a.1 < b.1 := by
  induction entries with
  | nil => exact List.pairwise_singleton _ _
  | cons first rest ih =>
    obtain ⟨hfirst, hrest⟩ := List.pairwise_cons.mp h
    rw [insertEntry]
    split
    · rename_i hsame
      exact List.pairwise_cons.mpr ⟨fun entry hentry => hsame ▸ hfirst entry hentry, hrest⟩
    · rename_i hne
      split
      · rename_i hlt
        refine List.pairwise_cons.mpr ⟨fun entry hentry => ?_, h⟩
        rcases List.mem_cons.mp hentry with rfl | hentry
        · exact hlt
        · exact hlt.trans (hfirst entry hentry)
      · rename_i hle
        refine List.pairwise_cons.mpr ⟨fun entry hentry => ?_, ih hrest⟩
        rcases mem_insertEntry hentry with rfl | hentry
        · exact lt_of_le_of_ne (not_lt.mp hle) (Ne.symm hne)
        · exact hfirst entry hentry

theorem Ordered.insert (h : m.Ordered) (name : String) (value : α) :
    (m.insert name value).Ordered :=
  insertEntry_ordered h

/-- A map that is made of a list of entries is in order and holds some of them. -/
theorem ofList_ordered (entries : List (String × α)) :
    (ofList entries).Ordered ∧ ∀ entry ∈ (ofList entries).entries, entry ∈ entries := by
  have hempty : (empty : NameMap α).Ordered ∧ ∀ entry ∈ (empty : NameMap α).entries,
      entry ∈ entries := ⟨empty_ordered, fun _ h => absurd h List.not_mem_nil⟩
  -- Each insertion keeps the order, and adds no other entry than the one that is inserted.
  refine List.foldlRecOn
    (motive := fun m : NameMap α => m.Ordered ∧ ∀ entry ∈ m.entries, entry ∈ entries) entries
    (fun m entry => m.insert entry.1 entry.2) hempty fun m hm entry hentry => ?_
  refine ⟨hm.1.insert entry.1 entry.2, fun other hother => ?_⟩
  rcases mem_insertEntry hother with rfl | hother
  · exact hentry
  · exact hm.2 other hother

/-- What is found under a name in a map that is in order. -/
theorem Ordered.find?_eq_some_iff (h : m.Ordered) :
    m.find? name = some value ↔ (name, value) ∈ m.entries := by
  obtain ⟨entries⟩ := m
  unfold find?
  induction entries with
  | nil => simp
  | cons first rest ih =>
    obtain ⟨hfirst, hrest⟩ := List.pairwise_cons.mp h
    rw [List.lookup_cons, List.mem_cons]
    by_cases hname : name = first.1
    · subst hname
      rw [beq_self_eq_true]
      constructor
      · intro hvalue
        exact Or.inl (by rw [← Option.some.inj hvalue])
      · rintro (hsame | hlater)
        · rw [← hsame]
        · exact absurd (hfirst _ hlater) (lt_irrefl _)
    · rw [beq_eq_false_iff_ne.mpr hname]
      refine (ih hrest).trans ⟨Or.inr, fun hmem => hmem.resolve_left fun hsame => hname ?_⟩
      rw [← hsame]

end NameMap

namespace Schema

open Relation (ReflTransGen TransGen)

/-! ## What a search meets -/

section Searches

variable {members : String → List String} {wanted : String} {groups unopened names : List String}

/-- The search meets a name where a walk does that opens the same groups, but never this one. -/
theorem meets_iff_mem_expand (hgroups : ∀ name ∈ unopened, name ∈ groups) :
    meets members wanted unopened names = true ↔
      wanted ∈ expand members (fun name => name != wanted && decide (name ∈ groups)) unopened
        names := by
  fun_induction meets members wanted unopened names with
  | case1 => simp [expand]
  | case2 unopened rest => simp [expand]
  | case3 unopened first rest hne hopen ih =>
    rw [expand, if_pos (by simp [hne, hgroups first hopen]), if_pos hopen]
    exact ih fun name hname => hgroups name (List.mem_of_mem_erase hname)
  | case4 unopened first rest hne hopen ih =>
    rw [ih hgroups, expand.eq_def _ _ _ (first :: rest)]
    simp only [if_neg hopen]
    split
    · rfl
    · rw [List.mem_cons, or_iff_right (Ne.symm hne)]

theorem Encloses.chain {isGroup : String → Bool}
    (h : Encloses members isGroup groups names wanted) :
    ∃ name ∈ names, ReflTransGen (fun a b => a ∈ groups ∧ b ∈ members a) name wanted := by
  induction h with
  | here hname _ => exact ⟨_, hname, .refl⟩
  | inside hgroup _ hopen _ ih =>
    obtain ⟨name, hname, hchain⟩ := ih
    exact ⟨_, hgroup, .head ⟨hopen, hname⟩ hchain⟩

/-- A search that may open all groups meets the names to which groups lead. -/
theorem meets_iff : meets members wanted groups names = true ↔
    ∃ name ∈ names, ReflTransGen (fun a b => a ∈ groups ∧ b ∈ members a) name wanted := by
  rw [meets_iff_mem_expand fun _ => id, mem_expand]
  refine ⟨Encloses.chain, ?_⟩
  rintro ⟨name, hname, hchain⟩
  induction hchain using ReflTransGen.head_induction_on generalizing names with
  | refl => exact .here hname (by simp)
  | @head group inner hstep _ ih =>
    by_cases hsame : group = wanted
    · exact .here (hsame ▸ hname) (by simp)
    · exact .inside hname (by simp [hsame, hstep.1]) hstep.1 (ih hstep.2)

end Searches

/-! ## Groups that lead back to themselves -/

/-- The maps of the schema stand in the order of their names. -/
structure Ordered (s : Schema) : Prop where
  tables : s.tables.Ordered
  fields : ∀ entry ∈ s.tables.entries, entry.2.fields.Ordered

/-- One or more steps from a group to a name that it lists lead back to the group. Only groups list
names, so that every name on the way is a group. -/
def Circular (s : Schema) (table group : String) : Prop :=
  TransGen (fun a b => b ∈ s.nestedFields table a) group group

variable {s : Schema} {table group name : String} {fields : TableDef}

theorem mem_declaredGroups (h : fields.fields.Ordered) : group ∈ declaredGroups fields ↔
    ∃ field, fields.fields.find? group = some field ∧ field.type = .group := by
  simp only [declaredGroups, List.mem_map, List.mem_filter, beq_iff_eq]
  constructor
  · rintro ⟨⟨_, field⟩, ⟨hfield, htype⟩, rfl⟩
    exact ⟨field, h.find?_eq_some_iff.mpr hfield, htype⟩
  · rintro ⟨field, hfield, htype⟩
    exact ⟨(group, field), ⟨h.find?_eq_some_iff.mp hfield, htype⟩, rfl⟩

/-- The names that a group of a table lists are its declared members. -/
theorem mem_nestedFields_iff (htable : s.tables.find? table = some fields)
    (h : fields.fields.Ordered) : name ∈ s.nestedFields table group ↔
      group ∈ declaredGroups fields ∧ name ∈ declaredMembers fields group := by
  rw [mem_declaredGroups h, nestedFields, field?, htable, declaredMembers, Option.bind_some]
  cases fields.fields.find? group with
  | none => simp
  | some field => by_cases htype : field.type = .group <;> simp [htype]

/-- The search from a group finds it exactly where it leads back to itself. -/
theorem containsItself_iff (htable : s.tables.find? table = some fields)
    (h : fields.fields.Ordered) (hgroup : group ∈ declaredGroups fields) :
    containsItself fields group = true ↔ s.Circular table group := by
  have hstep : ∀ a b, (a ∈ declaredGroups fields ∧ b ∈ declaredMembers fields a) ↔
      b ∈ s.nestedFields table a := fun a b => (mem_nestedFields_iff htable h).symm
  rw [containsItself, meets_iff, Circular, Relation.TransGen.head'_iff]
  simp only [hstep]
  refine exists_congr fun inner => and_congr_left fun _ => ?_
  rw [← hstep, and_iff_right hgroup]

/-- A group leads back to itself exactly where its table declares it and the search finds it. -/
theorem circular_iff (hs : s.Ordered) : s.Circular table group ↔
    ∃ fields, (table, fields) ∈ s.tables.entries ∧ group ∈ declaredGroups fields ∧
      containsItself fields group = true := by
  constructor
  · intro h
    obtain ⟨inner, hinner, -⟩ := Relation.TransGen.head'_iff.mp h
    cases htable : s.tables.find? table with
    | none => simp [nestedFields, field?, htable] at hinner
    | some fields =>
      have hentry := hs.tables.find?_eq_some_iff.mp htable
      have hfields := hs.fields _ hentry
      have hgroup := ((mem_nestedFields_iff htable hfields).mp hinner).1
      exact ⟨fields, hentry, hgroup, (containsItself_iff htable hfields hgroup).mpr h⟩
  · rintro ⟨fields, hentry, hgroup, hfound⟩
    have htable := hs.tables.find?_eq_some_iff.mpr hentry
    exact (containsItself_iff htable (hs.fields _ hentry) hgroup).mp hfound

/-! ## The first group -/

theorem declaredGroups_ordered (h : fields.fields.Ordered) :
    (declaredGroups fields).Pairwise (· < ·) :=
  List.pairwise_map.mpr (h.filter _)

/-- The group that the search through a schema finds leads back to itself, and none that does so
stands in front of it. -/
theorem groupCycle_first (hs : s.Ordered) {found : String × String}
    (h : s.groupCycle? = some found) : s.Circular found.1 found.2 ∧
      ∀ other : String × String, s.Circular other.1 other.2 → toLex found ≤ toLex other := by
  obtain ⟨before, entry, behind, hentries, hentry, hbefore⟩ := List.findSome?_eq_some_iff.mp h
  obtain ⟨group, hfind, rfl⟩ := Option.map_eq_some_iff.mp hentry
  obtain ⟨hfound, front, back, hgroups, hfront⟩ := List.find?_eq_some_iff_append.mp hfind
  have hmem : entry ∈ s.tables.entries := by simp [hentries]
  refine ⟨(circular_iff hs).mpr ⟨entry.2, hmem, by simp [hgroups], hfound⟩, fun other hother => ?_⟩
  obtain ⟨fields, hfields, hgroup, hcircular⟩ := (circular_iff hs).mp hother
  rw [hentries, List.mem_append, List.mem_cons] at hfields
  rw [Prod.Lex.toLex_le_toLex]
  rcases hfields with hin | rfl | hin
  · -- The tables in front of the one that was found have no such group.
    have hnone := hbefore _ hin
    rw [Option.map_eq_none_iff, List.find?_eq_none] at hnone
    exact absurd hcircular (hnone _ hgroup)
  · refine Or.inr ⟨rfl, ?_⟩
    have hordered := declaredGroups_ordered (hs.fields _ hmem)
    rw [hgroups] at hgroup hordered
    rcases List.mem_append.mp hgroup with hin | hin
    · exact absurd hcircular (by simpa using hfront _ hin)
    · rcases List.mem_cons.mp hin with hsame | hin
      · exact hsame.ge
      · exact (List.rel_of_pairwise_cons (List.pairwise_append.mp hordered).2.1 hin).le
  · have hordered := hs.tables
    rw [NameMap.Ordered, hentries] at hordered
    exact Or.inl (List.rel_of_pairwise_cons (List.pairwise_append.mp hordered).2.1 hin)

theorem groupCycle_eq_none_iff (hs : s.Ordered) :
    s.groupCycle? = none ↔ ∀ table group, ¬ s.Circular table group := by
  have hnone : s.groupCycle? = none ↔ ∀ entry ∈ s.tables.entries,
      ∀ group ∈ declaredGroups entry.2, ¬ containsItself entry.2 group = true := by
    simp only [groupCycle?, List.findSome?_eq_none_iff, Option.map_eq_none_iff,
      List.find?_eq_none]
  rw [hnone]
  constructor
  · intro h table group hcircular
    obtain ⟨fields, hentry, hgroup, hfound⟩ := (circular_iff hs).mp hcircular
    exact h _ hentry group hgroup hfound
  · intro h entry hentry group hgroup hfound
    exact h entry.1 group ((circular_iff hs).mpr ⟨entry.2, hentry, hgroup, hfound⟩)

/-- The group that a schema reports is the first of those that lead back to themselves. -/
theorem groupCycle_eq_some_iff (hs : s.Ordered) {found : String × String} :
    s.groupCycle? = some found ↔ s.Circular found.1 found.2 ∧
      ∀ other : String × String, s.Circular other.1 other.2 → toLex found ≤ toLex other := by
  refine ⟨groupCycle_first hs, fun ⟨hcircular, hfirst⟩ => ?_⟩
  cases h : s.groupCycle? with
  | none => exact absurd hcircular ((groupCycle_eq_none_iff hs).mp h _ _)
  | some other =>
    obtain ⟨hother, hleast⟩ := groupCycle_first hs h
    have hsame : toLex other = toLex found :=
      le_antisymm (hleast found hcircular) (hfirst other hother)
    rw [toLex.injective hsame]

end Schema

/-! ## Documents -/

namespace NameMap

variable {α : Type} {m : NameMap α}

theorem mem_of_mapM_eq_some {β : Type} {f : α → Option β} {as : List α} {bs : List β}
    (h : as.mapM f = some bs) : ∀ b ∈ bs, ∃ a, f a = some b := by
  induction as generalizing bs with
  | nil =>
    obtain rfl : [] = bs := by simpa using h
    simp
  | cons a as ih =>
    obtain ⟨first, hfirst, rest, hrest, rfl⟩ :
        ∃ first, f a = some first ∧ ∃ rest, as.mapM f = some rest ∧ first :: rest = bs := by
      simpa [List.mapM_cons, Option.bind_eq_some_iff] using h
    intro b hb
    rcases List.mem_cons.mp hb with rfl | hb
    · exact ⟨a, hfirst⟩
    · exact ih hrest b hb

/-- A map that is read from a document is in order, and its values are read from there. -/
theorem ofJson?_ordered {decode : Json → Option α} {value : Json}
    (h : ofJson? decode value = some m) :
    m.Ordered ∧ ∀ entry ∈ m.entries, ∃ v, decode v = some entry.2 := by
  obtain ⟨members, -, h⟩ := Option.bind_eq_some_iff.mp h
  obtain ⟨entries, hentries, rfl⟩ := Option.map_eq_some_iff.mp h
  refine ⟨(ofList_ordered entries).1, fun entry hentry => ?_⟩
  have hmem := (ofList_ordered entries).2 entry hentry
  obtain ⟨read, hread⟩ := mem_of_mapM_eq_some hentries entry hmem
  obtain ⟨v, hv, rfl⟩ := Option.map_eq_some_iff.mp hread
  exact ⟨read.2, hv⟩

end NameMap

theorem Json.withDefault?_eq_some {α : Type} {fields : List (String × Json)} {name : String}
    {missing a : α} {decode : Json → Option α}
    (h : withDefault? fields name missing decode = some a) :
    a = missing ∨ ∃ v, decode v = some a := by
  unfold withDefault? at h
  split at h
  · exact Or.inl (Option.some.inj h).symm
  · exact Or.inr ⟨_, h⟩

theorem TableDef.ofJson?_ordered {value : Json} {fields : TableDef}
    (h : ofJson? value = some fields) : fields.fields.Ordered := by
  obtain ⟨members, -, h⟩ := Option.bind_eq_some_iff.mp h
  obtain ⟨read, hread, h⟩ := Option.bind_eq_some_iff.mp h
  obtain rfl := Option.some.inj h
  rcases Json.withDefault?_eq_some hread with rfl | ⟨v, hv⟩
  · exact NameMap.empty_ordered
  · exact (NameMap.ofJson?_ordered hv).1

namespace Schema

/-- The maps of a schema that is read from a document are in order. -/
theorem ofJson?_ordered {value : Json} {s : Schema} (h : ofJson? value = some s) : s.Ordered := by
  obtain ⟨members, -, h⟩ := Option.bind_eq_some_iff.mp h
  obtain ⟨read, hread, h⟩ := Option.bind_eq_some_iff.mp h
  obtain rfl := Option.some.inj h
  rcases Json.withDefault?_eq_some hread with rfl | ⟨v, hv⟩
  · exact ⟨NameMap.empty_ordered, fun _ h => absurd h List.not_mem_nil⟩
  · obtain ⟨hordered, hvalues⟩ := NameMap.ofJson?_ordered hv
    refine ⟨hordered, fun entry hentry => ?_⟩
    obtain ⟨w, hw⟩ := hvalues entry hentry
    exact TableDef.ofJson?_ordered hw

/-- A document of a schema is accepted unless a group is reported. -/
theorem ofDocument_eq_ok_iff {text : String} {s : Schema}
    (h : (Json.ofText? text).bind ofJson? = some s) :
    ofDocument text = .ok s ↔ s.groupCycle? = none := by
  unfold ofDocument
  rw [h]
  cases hcycle : s.groupCycle? with
  | none => simp [hcycle]
  | some found => simp [hcycle]

/--
A schema reports no group exactly where no group leads back to itself, through one or more groups.
Else it reports the first that does, by table and then by name. The document of a schema is accepted
exactly where no group of the schema leads back to itself.
-/
theorem group_cycles_found :
    (∀ s : Schema, s.Ordered →
      (s.groupCycle? = none ↔ ∀ table group, ¬ s.Circular table group) ∧
      ∀ found : String × String, s.groupCycle? = some found ↔
        s.Circular found.1 found.2 ∧
          ∀ other : String × String, s.Circular other.1 other.2 → toLex found ≤ toLex other) ∧
    ∀ text s, (Json.ofText? text).bind ofJson? = some s →
      (ofDocument text = .ok s ↔ ∀ table group, ¬ s.Circular table group) := by
  refine ⟨fun s hs => ⟨groupCycle_eq_none_iff hs, fun found => groupCycle_eq_some_iff hs⟩, ?_⟩
  intro text s hread
  obtain ⟨value, -, hvalue⟩ := Option.bind_eq_some_iff.mp hread
  rw [ofDocument_eq_ok_iff hread, groupCycle_eq_none_iff (ofJson?_ordered hvalue)]

deriving instance DecidableEq for NameMap, TableDef, Schema

theorem circularTasks_ordered : circularTasks.Ordered := by
  have htables : circularTasks.tables.entries = [("Task", ⟨.ofList [("Owner", .link "Person"),
    ("People", .group ["Staff", "Owner", "People"]), ("Staff", .group ["People", "Vendor"]),
    ("Vendor", .link "Person")]⟩)] := rfl
  refine ⟨(NameMap.ofList_ordered _).1, fun entry hentry => ?_⟩
  rw [htables, List.mem_singleton] at hentry
  exact hentry ▸ (NameMap.ofList_ordered _).1

/-- A document of one table with a group in a group. -/
def nestedGroupsText : String :=
  "\x7b\"tables\":\x7b\"T\":\x7b\"fields\":\x7b\"A\":\x7b\"type\":\"group\"," ++
    "\"nested\":[\"B\"]\x7d,\"B\":\x7b\"type\":\"group\"\x7d\x7d\x7d\x7d\x7d"

/-- The group and the one in it. -/
def nestedGroups : TableDef :=
  ⟨.ofList [("A", .group ["B"]), ("B", .group [])]⟩

/-- The schema of the document. -/
def nestedGroupsSchema : Schema :=
  ⟨.ofList [("T", nestedGroups)]⟩

theorem nestedGroups_groupCycle : nestedGroupsSchema.groupCycle? = none := by
  have hgroups : declaredGroups nestedGroups = ["A", "B"] := by decide
  have houter : declaredMembers nestedGroups "A" = ["B"] := by decide
  have hinner : declaredMembers nestedGroups "B" = [] := by decide
  have hcontains : ∀ group ∈ declaredGroups nestedGroups,
      containsItself nestedGroups group = false := by
    rw [hgroups]
    simp [containsItself, hgroups, houter, hinner, meets]
  have htables : nestedGroupsSchema.tables.entries = [("T", nestedGroups)] := rfl
  have hnone : (declaredGroups nestedGroups).find? (containsItself nestedGroups) = none :=
    List.find?_eq_none.mpr fun group hgroup => by simp [hcontains group hgroup]
  simp [groupCycle?, htables, hnone]

/-- Of two groups that lead to each other, the first by name is reported. A document in which one
group holds the other is accepted. -/
theorem group_cycles_found_nested :
    circularTasks.Ordered ∧ circularTasks.groupCycle? = some ("Task", "People") ∧
    (Json.ofText? nestedGroupsText).bind ofJson? = some nestedGroupsSchema ∧
    ofDocument nestedGroupsText = .ok nestedGroupsSchema := by
  have hread : (Json.ofText? nestedGroupsText).bind ofJson? = some nestedGroupsSchema := by
    decide +kernel
  have hordered : nestedGroupsSchema.Ordered := by
    obtain ⟨value, -, hvalue⟩ := Option.bind_eq_some_iff.mp hread
    exact ofJson?_ordered hvalue
  have hnone := ((group_cycles_found.1 _ hordered).1.mp nestedGroups_groupCycle)
  refine ⟨circularTasks_ordered, ?_, hread, (group_cycles_found.2 _ _ hread).mpr hnone⟩
  refine ((group_cycles_found.1 _ circularTasks_ordered).2 ("Task", "People")).mpr ⟨?_, ?_⟩
  · exact .tail (.single (by decide)) (show "People" ∈ circularTasks.nestedFields "Task" "Staff" by
      decide)
  · intro other hother
    -- Only the two groups list names at all.
    obtain ⟨fields, hfields, hgroup, -⟩ := (circular_iff circularTasks_ordered).mp hother
    have htables : circularTasks.tables.entries.map
        (fun entry => (entry.1, declaredGroups entry.2)) = [("Task", ["People", "Staff"])] := by
      decide
    have hin := List.mem_map_of_mem (f := fun entry => (entry.1, declaredGroups entry.2)) hfields
    rw [htables, List.mem_singleton, Prod.mk.injEq] at hin
    rw [hin.2] at hgroup
    rw [Prod.Lex.toLex_le_toLex, hin.1]
    refine Or.inr ⟨rfl, ?_⟩
    rcases List.mem_pair.mp hgroup with hname | hname
    · exact hname.ge
    · rw [hname]
      decide

end Schema

end LinkQuery
