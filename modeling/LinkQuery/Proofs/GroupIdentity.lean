import LinkQuery.Proofs.Settled
import LinkQuery.Proofs.SharedTargets
/-!
# Identity tests of groups

A comparison of a group with an identity is expanded in two ways. The text of a filter compiles to
a test of every link in the group and in the groups inside it. The promotion of a tree tests the
links that the group is followed along: its own, and the first link of each group inside it. The two
agree on groups of links without repeats, and on no group that holds a group with a further link.

Main statements:
- `Filter.termQuery_groupComparison`, `Query.promote_groupComparison`: the two expansions.
- `Compiler.group_identities`: what a text compiles to, what its tree is promoted to, and when these
  agree.
-/
namespace LinkQuery

namespace Schema

variable {s : Schema} {table group name : String}

/-! ## Links of a group -/

/-- A walk that meets a link with a target has a first one. -/
theorem exists_firstLink {target : String} (h : name ∈ s.groupWalk table group)
    (hlead : s.LeadsTo table name target) : ∃ found, s.firstLink? table group = some found := by
  have hfollow : s.followable? table name = some (name, target) := by
    rw [followable?, if_pos hlead.1, hlead.2]
    rfl
  exact Option.isSome_iff_exists.mp (List.findSome?_isSome_iff.mpr ⟨name, h, by rw [hfollow]; rfl⟩)

/-- A group with a link that has a target, however deep inside it, is followed along some link. -/
theorem groupLinks_ne_nil {target : String} (hmember : name ∈ s.groupMembers table group)
    (hlead : s.LeadsTo table name target) : s.groupLinks table group ≠ [] := by
  -- The link is a member itself, or inside one: that group has a first link, perhaps another.
  cases mem_groupWalk.mp (List.mem_eraseDups.mp hmember) with
  | here hname _ =>
    exact List.ne_nil_of_mem (mem_groupLinks.mpr ⟨name, hname, memberLink_of_isLink hlead.1⟩)
  | @inside _ inner _ hinner hkind _ h =>
    obtain ⟨found, hfound⟩ := exists_firstLink (mem_groupWalk.mpr h) hlead
    have hstands : s.memberLink? table inner = some found.1 := by
      rw [memberLink?, show s.fieldKind table inner = .group by simpa using hkind, hfound]
      rfl
    exact List.ne_nil_of_mem (mem_groupLinks.mpr ⟨inner, hinner, hstands⟩)

/-- A group is followed along no link exactly where it has no members. -/
theorem groupLinks_eq_nil_iff
    (hlinks : ∀ member ∈ s.groupMembers table group, ∃ target, s.LeadsTo table member target) :
    s.groupLinks table group = [] ↔ s.groupMembers table group = [] := by
  constructor
  · intro h
    by_contra hne
    obtain ⟨name, hname⟩ := List.exists_mem_of_ne_nil _ hne
    obtain ⟨target, hlead⟩ := hlinks name hname
    exact groupLinks_ne_nil hname hlead h
  · intro h
    refine List.eq_nil_iff_forall_not_mem.mpr fun link hlink => ?_
    have hmember := mem_groupMembers_of_groupLinks hlink
    rw [h] at hmember
    cases hmember

/-- The members of a group inside a group are members of it. -/
theorem mem_groupMembers_nested {inner : String} (hinner : inner ∈ s.nestedFields table group)
    (hkind : s.fieldKind table inner = .group) (h : name ∈ s.groupMembers table inner) :
    name ∈ s.groupMembers table group :=
  List.mem_eraseDups.mpr (mem_groupWalk_nested hinner hkind (List.mem_eraseDups.mp h))

end Schema

/-! ## Identity tests -/

namespace Query

variable {schema : Schema} {table group id : String} {links : List String}

/-- The test that one of the links leads to the object, if there are links. -/
def identityAmong? (links : List String) (id : String) : Option Query :=
  match links with
  | [] => none
  | links => some (or (links.map (.linkId .any · id)))

/-- The test names its links in their order. -/
theorem names_identities (links : List String) (id : String) :
    (Query.or (links.map (.linkId .any · id))).names = links := by
  have hread : [Query.or (links.map (.linkId .any · id))].flatMap names =
      (links.map (.linkId .any · id)).flatMap names :=
    or_combines.same names_readable_or _
  have hone : ∀ link, (linkId .any link id).names = [link] := fun _ => rfl
  simpa [List.flatMap_map, hone] using hread

/-- Tests of different links, or of the same links in another order, differ. -/
theorem identityAmong?_inj {others : List String} :
    identityAmong? links id = identityAmong? others id ↔ links = others := by
  constructor
  · intro h
    unfold identityAmong? at h
    split at h <;> split at h
    · rfl
    · cases h
    · cases h
    · have hnames := congrArg names (Option.some.inj h)
      rwa [names_identities, names_identities] at hnames
  · intro h
    rw [h]

/-- The test of links with targets is settled. -/
theorem settle_identityAmong {q : Query}
    (hlinks : ∀ link ∈ links, ∃ target, schema.LeadsTo table link target)
    (h : identityAmong? links id = some q) : settle schema table q = .ok q := by
  unfold identityAmong? at h
  split at h
  · cases h
  · obtain rfl := Option.some.inj h
    have hwell : ∀ test ∈ links.map (linkId .any · id),
        test.WellFormed schema (fun _ => True) table :=
      List.forall_mem_map.mpr fun link hlink => ⟨nofun, hlinks link hlink⟩
    have hidentities : (Query.or (links.map (.linkId .any · id))).identities = [] := by
      rw [identities_or, List.flatMap_map, List.flatMap_eq_nil_iff]
      exact fun link _ => rfl
    exact (WellFormed.or hwell).settle_self hidentities

/-- A comparison of a group is promoted to the test of the links that it is followed along. -/
theorem promote_groupComparison (hgroup : schema.fieldKind table group = .group) :
    (promote schema table (.comparison group .eq (.text id))).toOption =
      identityAmong? (schema.groupLinks table group) id := by
  have hsystem : Schema.isSystemField group = false := by
    by_contra h
    rw [Schema.fieldKind_system (by simpa using h)] at hgroup
    cases hgroup
  have hpromote : promote schema table (.comparison group .eq (.text id)) =
      groupIdentity schema table group id := by
    rw [promote, promoteComparison, hsystem, if_neg Bool.false_ne_true, hgroup]
    rfl
  rw [hpromote, groupIdentity]
  cases schema.groupLinks table group with
  | nil => rfl
  | cons first rest => rfl

end Query

namespace Filter

open Query (identityAmong?)

variable {scope : Scope} {nested : Nested} {table group member id : String}

/-- A link of the group in its place is tested for the identity. -/
theorem memberQuery_identity {target : String} (hlead : scope.schema.LeadsTo table member target) :
    memberQuery scope nested table (.named group 0) none (.compare .eq (.raw (.text id))) member =
      .ok (.linkId .any member id) := by
  obtain ⟨role, hrole, hlink, -, -⟩ := Schema.role_of_leadsTo hlead
  have hresolve : scope.schema.resolveSegment table (.named member 0) false = .ok role :=
    Schema.resolveSegment_once rfl hrole
  show (scope.schema.resolveSegment table (.named member 0) false >>= _) = _
  rw [hresolve]
  cases role <;> first | cases hlink; rfl | cases hlink

section Groups

variable (hlinks : ∀ member ∈ scope.schema.groupMembers table group,
  ∃ target, scope.schema.LeadsTo table member target)
include hlinks

/-- The branches of the group are the tests of its members. -/
theorem groupQuery_groupComparison :
    (groupQuery scope nested table (.named group 0) none
      (.compare .eq (.raw (.text id)))).toOption =
      identityAmong? (scope.schema.groupMembers table group) id := by
  have hbranches : (scope.schema.groupMembers table group).mapM (memberQuery scope nested table
      (.named group 0) none (.compare .eq (.raw (.text id)))) =
      .ok ((scope.schema.groupMembers table group).map (.linkId .any · id)) := by
    refine mapM_eq_map fun member hmember => ?_
    obtain ⟨target, hlead⟩ := hlinks member hmember
    exact memberQuery_identity hlead
  have hstands : standIns scope.schema table (Segment.named group 0).name
      (none : Option Onward).isNone = scope.schema.groupMembers table group := rfl
  unfold groupQuery
  rw [hstands]
  cases hmembers : scope.schema.groupMembers table group with
  | nil => rfl
  | cons first rest =>
    rw [hmembers] at hbranches
    show (List.mapM (memberQuery scope nested table (.named group 0) none
      (.compare .eq (.raw (.text id)))) (first :: rest) >>= fun branches =>
        pure (Query.or branches)).toOption = _
    rw [hbranches]
    rfl

/-- The tree of a group that is compared is the test of its members. -/
theorem termQuery_groupComparison (hgroup : scope.schema.fieldKind table group = .group) :
    (termQuery scope nested table ⟨.named group 0, []⟩
      (.compare .eq (.raw (.text id)))).toOption =
      identityAmong? (scope.schema.groupMembers table group) id := by
  have hne : Tail.compare .eq (.raw (.text id)) ≠ .missing := Tail.noConfusion
  have hrole : scope.schema.role table group =
      if (scope.schema.nestedFields table group).isEmpty then invalid (.emptyGroup group)
      else .ok (.group ((scope.schema.firstLink? table group).map (·.2))) := by
    rw [Schema.role, hgroup]
  rw [termQuery_single hne]
  show (scope.schema.resolveSegment table (.named group 0) false >>= _).toOption = _
  by_cases hempty : (scope.schema.nestedFields table group).isEmpty = true
  · rw [if_pos hempty] at hrole
    have hresolve : scope.schema.resolveSegment table (.named group 0) false =
        invalid (.emptyGroup group) := by
      show (scope.schema.role table group >>= _) = _
      rw [hrole]
      rfl
    have hnone : scope.schema.groupMembers table group = [] := by
      rw [Schema.groupMembers, Schema.groupWalk, List.isEmpty_iff.mp hempty, Schema.expand]
      rfl
    rw [hresolve, hnone]
    rfl
  · rw [if_neg hempty] at hrole
    have hresolve : scope.schema.resolveSegment table (.named group 0) false = _ :=
      Schema.resolveSegment_once rfl hrole
    rw [hresolve]
    exact groupQuery_groupComparison hlinks

end Groups

end Filter

namespace Compiler

open Filter Rule
open Query (identityAmong?)

variable {c : Compiler} {scope : Scope} {table group id : String}

/-- The text of a comparison of a group compiles to the test of the members of the group. -/
theorem group_text_compiles (hscope : c.scope = .ok scope) (hword : IsWord group)
    (hgroup : c.schema.fieldKind table group = .group)
    (hlinks : ∀ member ∈ c.schema.groupMembers table group,
      ∃ target, c.schema.LeadsTo table member target) :
    ∃ enough, ∀ length nesting, enough ≤ length → enough ≤ nesting →
      ((c.withLimits length nesting).filter table
        (Query.comparison group .eq (.text id)).text).toOption =
        (identityAmong? (c.schema.groupMembers table group) id).map some := by
  have hschema : scope.schema = c.schema := c.scope_yields.of_ok hscope
  obtain ⟨l, hl, htext, hbuild⟩ : ∃ l, l ≠ [] ∧ IsText .disjunction
      (Query.comparison group .eq (.text id)).text.toList l ∧
      buildIn scope table (Lexeme.placed l) = termQuery scope (buildIn scope) table
        ⟨.named group 0, []⟩ (.compare .eq (.raw (.text id))) := by
    have hspoken := @Spoken.literal scope.clock .eq (.text id)
    have htail := isTail_literal .eq (.text id)
    have htext := (IsPrimary.namedPath hword .none IsSteps.nil (.test htail)
      (fun _ hrest => (IsTailOrNone.test htail).endsPath hrest)).isText
    have hsays := @Says.pathTerm scope table _ _ _ _ _ (Path.Spelled.word group) hspoken.balanced
      hspoken.adds hspoken.reads
    exact ⟨_, by simp, by simpa [Query.text] using htext.alternative.filter,
      hsays.conjunction.disjunction.build⟩
  obtain ⟨enough, hcompile⟩ := filter_of_text hl htext
  refine ⟨enough, fun length nesting hlength hnesting => ?_⟩
  rw [hcompile c table length nesting hlength hnesting, filterOf, hscope]
  have hterm := @termQuery_groupComparison scope (buildIn scope) table group id
    (by rwa [hschema]) (by rwa [hschema])
  rw [hschema, ← hbuild] at hterm
  show (buildIn scope table (Lexeme.placed l) >>= fun raw =>
    some <$> raw.settle c.schema table).toOption = _
  rw [toOption_bind, hterm]
  cases hmembers : identityAmong? (c.schema.groupMembers table group) id with
  | none => rfl
  | some q =>
    show (some <$> q.settle c.schema table).toOption = _
    rw [Query.settle_identityAmong hlinks hmembers]
    rfl

/--
The text of a comparison of a group compiles to the test of every link in the group, and the tree of
the comparison is promoted to the test of the links that the group is followed along. Both are there
if the group has members, and they are the same where the group is followed along its members: on
groups of links without repeats, and on no group that holds a group with a link that the outer one
is not followed along.
-/
theorem group_identities (hscope : c.scope = .ok scope) (hword : IsWord group)
    (hgroup : c.schema.fieldKind table group = .group)
    (hlinks : ∀ member ∈ c.schema.groupMembers table group,
      ∃ target, c.schema.LeadsTo table member target) :
    (∃ enough, ∀ length nesting, enough ≤ length → enough ≤ nesting →
      ((c.withLimits length nesting).filter table
        (Query.comparison group .eq (.text id)).text).toOption =
          (identityAmong? (c.schema.groupMembers table group) id).map some ∧
      (((c.withLimits length nesting).filter table
        (Query.comparison group .eq (.text id)).text).toOption =
          ((Query.comparison group .eq (.text id)).promote c.schema table).toOption.map some ↔
        c.schema.groupMembers table group = c.schema.groupLinks table group)) ∧
    ((Query.comparison group .eq (.text id)).promote c.schema table).toOption =
      identityAmong? (c.schema.groupLinks table group) id ∧
    (c.schema.groupLinks table group = [] ↔ c.schema.groupMembers table group = []) ∧
    c.schema.groupLinks table group ⊆ c.schema.groupMembers table group ∧
    (c.schema.groupMembers table group = c.schema.groupLinks table group →
      ∀ inner ∈ c.schema.nestedFields table group, c.schema.fieldKind table inner = .group →
        c.schema.groupMembers table inner ⊆ c.schema.groupLinks table group) ∧
    ((∀ link ∈ c.schema.nestedFields table group, (c.schema.fieldKind table link).isLink = true) →
      (c.schema.nestedFields table group).Nodup →
        c.schema.groupMembers table group = c.schema.groupLinks table group) := by
  have hpromote := @Query.promote_groupComparison c.schema table group id hgroup
  refine ⟨?_, hpromote, Schema.groupLinks_eq_nil_iff hlinks,
    fun _ => Schema.mem_groupMembers_of_groupLinks, ?_, Schema.groupMembers_eq_groupLinks⟩
  · obtain ⟨enough, hcompile⟩ := group_text_compiles hscope hword hgroup hlinks
    refine ⟨enough, fun length nesting hlength hnesting => ?_⟩
    have htext := hcompile length nesting hlength hnesting
    refine ⟨htext, ?_⟩
    rw [htext, hpromote, Option.map_inj_right fun _ _ => Option.some.inj]
    exact Query.identityAmong?_inj
  · intro hsame inner hinner hkind member hmember
    rw [← hsame]
    exact Schema.mem_groupMembers_nested hinner hkind hmember

/-- A task is compared by a group of two links. -/
theorem group_identities_people : ∃ scope, crew.scope = .ok scope ∧ IsWord "People" ∧
    crew.schema.fieldKind "Task" "People" = .group ∧
    (∀ member ∈ crew.schema.groupMembers "Task" "People",
      ∃ target, crew.schema.LeadsTo "Task" member target) ∧
    ∃ enough, ∀ length nesting, enough ≤ length → enough ≤ nesting →
      ((crew.withLimits length nesting).filter "Task"
        (Query.comparison "People" .eq (.text "x")).text).toOption =
          ((Query.comparison "People" .eq (.text "x")).promote crew.schema "Task").toOption.map
            some := by
  obtain ⟨scope, hscope⟩ := Option.isSome_iff_exists.mp
    (show crew.scope.toOption.isSome = true by decide +kernel)
  have hscope := toOption_eq_some hscope
  have hword : IsWord "People" := ⟨by decide, by decide +kernel, by decide +kernel⟩
  have hgroup : crew.schema.fieldKind "Task" "People" = .group := by decide
  have hlinks : ∀ member ∈ crew.schema.groupMembers "Task" "People",
      ∃ target, crew.schema.LeadsTo "Task" member target := by
    intro member hmember
    have hnested : crew.schema.nestedFields "Task" "People" = ["Owner", "Vendor"] := by decide
    have hmember := (Schema.mem_groupMembers_of_links people_links).mp hmember
    rw [hnested, List.mem_pair] at hmember
    rcases hmember with rfl | rfl <;> exact ⟨"Person", by decide, by decide⟩
  obtain ⟨⟨enough, hall⟩, -, -, -, -, hflat⟩ := @group_identities crew scope "Task" "People" "x"
    hscope hword hgroup hlinks
  exact ⟨scope, hscope, hword, hgroup, hlinks, enough, fun length nesting hlength hnesting =>
    (hall length nesting hlength hnesting).2.mpr (hflat people_links (by decide))⟩

/-- The fields of tasks with a group around a group of two links to persons. -/
def nestedTask : TableDef :=
  ⟨.ofList [("Owner", .link "Person"), ("People", .group ["Staff"]),
    ("Staff", .group ["Owner", "Vendor"]), ("Vendor", .link "Person")]⟩

/-- Tasks with a group around a group of two links to persons. -/
def nestedCrew : Compiler :=
  ⟨⟨.ofList [("Person", ⟨.ofList [("Name", .scalar .text)]⟩), ("Task", nestedTask)]⟩,
    .standard ⟨0, 0, 0⟩⟩

theorem nestedCrew_groupCycle : nestedCrew.schema.groupCycle? = none := by
  have hgroups : Schema.declaredGroups nestedTask = ["People", "Staff"] := by decide
  have hpeople : Schema.declaredMembers nestedTask "People" = ["Staff"] := by decide
  have hstaff : Schema.declaredMembers nestedTask "Staff" = ["Owner", "Vendor"] := by decide
  have hcontains : ∀ group ∈ Schema.declaredGroups nestedTask,
      Schema.containsItself nestedTask group = false := by
    rw [hgroups]
    simp [Schema.containsItself, hgroups, hpeople, hstaff, Schema.meets]
  have hperson : Schema.declaredGroups ⟨.ofList [("Name", .scalar .text)]⟩ = [] := by decide
  have htables : nestedCrew.schema.tables.entries =
      [("Person", ⟨.ofList [("Name", .scalar .text)]⟩), ("Task", nestedTask)] := rfl
  have hnone : (Schema.declaredGroups nestedTask).find? (Schema.containsItself nestedTask) = none :=
    List.find?_eq_none.mpr fun group hgroup => by simp [hcontains group hgroup]
  simp [Schema.groupCycle?, htables, hperson, hnone]

/-- The second link in the inner group is tested by the text of a comparison of the outer group, and
is left out by the promotion of its tree. -/
theorem nested_group_identities : nestedCrew.schema.groupCycle? = none ∧
    nestedCrew.schema.fieldKind "Task" "People" = .group ∧
    nestedCrew.schema.groupMembers "Task" "People" = ["Owner", "Vendor"] ∧
    nestedCrew.schema.LeadsTo "Task" "Owner" "Person" ∧
    nestedCrew.schema.LeadsTo "Task" "Vendor" "Person" ∧
    ∃ compiled promoted, nestedCrew.filter "Task" "People = 'x'" = .ok (some compiled) ∧
      compiled.text = "Owner = 'x' OR Vendor = 'x'" ∧
      (Query.comparison "People" .eq (.text "x")).promote nestedCrew.schema "Task" = .ok promoted ∧
      promoted.text = "Owner = 'x'" ∧ compiled ≠ promoted := by
  have hcompile : (nestedCrew.filter "Task" "People = 'x'").toOption.bind (·.map Query.text) =
      some "Owner = 'x' OR Vendor = 'x'" := by decide +kernel
  have hpromote : ((Query.comparison "People" .eq (.text "x")).promote nestedCrew.schema
      "Task").toOption.map Query.text = some "Owner = 'x'" := by decide +kernel
  obtain ⟨found, hfound, htext⟩ := Option.bind_eq_some_iff.mp hcompile
  obtain ⟨compiled, rfl, hcompiled⟩ := Option.map_eq_some_iff.mp htext
  obtain ⟨promoted, hpromoted, hshort⟩ := Option.map_eq_some_iff.mp hpromote
  refine ⟨nestedCrew_groupCycle, by decide, by decide +kernel, ⟨by decide, by decide⟩,
    ⟨by decide, by decide⟩, compiled, promoted, toOption_eq_some hfound, hcompiled,
    toOption_eq_some hpromoted, hshort, ?_⟩
  rintro rfl
  rw [hcompiled] at hshort
  exact absurd hshort (by decide)

end Compiler

end LinkQuery
