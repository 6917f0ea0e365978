import LinkQuery.Proofs.Groups
import LinkQuery.Proofs.PathLogs
/-!
# Terms build well-formed trees

Whatever a term of a filter asks for, its tree is well formed, or the term is refused as invalid.
The filters and conditions inside a path are built by `nested`; all that is asked of it is that it
builds the logs of a set well.

Main statements:
- `Filter.termQuery_yields`: the tree of a path with a tail.
- `Filter.distinctCount_yields`, `Filter.pathComparison_yields`: the trees of calls.
-/
namespace LinkQuery

open Time (Timestamp)
open Rule (LogSet)

/-! ## Roles -/

namespace Schema

variable {s : Schema} {table name : String}

/-- What a name has to be for its role. -/
def Means (s : Schema) (table name : String) : FieldRole → Prop
  | .scalar type => s.valueType? table name = some (some type, false)
  | .multiValued type => s.valueType? table name = some (some type, true)
  | .link target => s.LeadsTo table name target
  | .crossLink target => s.LeadsTo table name target
  | .group _ => s.fieldKind table name = .group
  | .system => s.valueType? table name = some (none, false)

theorem role_yields : Yields (fun role => s.role table name = .ok role ∧ s.Means table name role)
    (s.role table name) := by
  have hlink : (s.fieldKind table name).isLink = true →
      Yields (fun target => s.LeadsTo table name target) (s.requiredTarget table name) := by
    intro hkind
    unfold requiredTarget
    split
    · rename_i target htarget
      exact ⟨hkind, htarget⟩
    · trivial
  suffices h : Yields (s.Means table name) (s.role table name) by
    obtain ⟨why, hrefused, hwhy⟩ | ⟨role, hrole, hmeans⟩ := h.cases
    · rw [hrefused]
      exact hwhy
    · rw [hrole]
      exact ⟨rfl, hmeans⟩
  unfold role
  cases hkind : s.fieldKind table name with
  | scalar type => simp [Means, valueType?, hkind]
  | multiValued type => simp [Means, valueType?, hkind]
  | link => exact (hlink (by simp [hkind, FieldKind.isLink])).map fun _ h => h
  | crossLink => exact (hlink (by simp [hkind, FieldKind.isLink])).map fun _ h => h
  | group =>
    dsimp only
    split
    · trivial
    · exact hkind
  | system => simp [Means, valueType?, hkind]
  | unknown =>
    dsimp only
    split <;> trivial

/-- The role of a name is of its kind. -/
theorem role_kind {role : FieldRole} (h : s.role table name = .ok role) :
    role.kind = s.fieldKind table name := by
  unfold Schema.role at h
  unfold requiredTarget at h
  split at h <;> rename_i hkind <;> rw [hkind]
  case h_3 | h_4 =>
    split at h
    · obtain rfl := Except.ok.inj h
      rfl
    · cases h
  case h_5 =>
    split at h
    · cases h
    · obtain rfl := Except.ok.inj h
      rfl
  case h_7 => split at h <;> cases h
  all_goals
    obtain rfl := Except.ok.inj h
    rfl

theorem fieldKind_of_valueType (h : (s.valueType? table name).isSome = true) :
    s.fieldKind table name ≠ .unknown := by
  intro hkind
  simp [valueType?, hkind] at h

theorem fieldKind_of_leadsTo {target : String} (h : s.LeadsTo table name target) :
    s.fieldKind table name ≠ .unknown := by
  intro hkind
  have hlink := h.1
  simp [hkind, FieldKind.isLink] at hlink

theorem fieldKind_of_role {role : FieldRole} (h : s.role table name = .ok role) :
    s.fieldKind table name ≠ .unknown := by
  rw [← role_kind h]
  cases role <;> simp [FieldRole.kind]

/-- All names along a path mean something, each in its table. -/
theorem fieldKind_of_along {names : List String} {roles : List FieldRole}
    (h : s.Along table names roles) :
    ∀ name ∈ names, ∃ table, s.fieldKind table name ≠ .unknown := by
  induction h with
  | @last table name role hrole =>
    exact List.forall_mem_singleton.mpr ⟨table, fieldKind_of_role hrole⟩
  | @step table name target role names roles hrole htarget hrest ih =>
    exact List.forall_mem_cons.mpr ⟨⟨table, fieldKind_of_role hrole⟩, ih⟩

/-- The role of a link is to lead to its target. -/
theorem role_of_leadsTo {target : String} (h : s.LeadsTo table name target) :
    ∃ role, s.role table name = .ok role ∧ role.linkTarget? = some target ∧
      role.target? = some target ∧ role.kind = s.fieldKind table name := by
  have htarget : s.requiredTarget table name = .ok target := by
    rw [requiredTarget, h.2]
  have hlink := h.1
  cases hkind : s.fieldKind table name with
  | link => exact ⟨.link target, by rw [role, hkind, htarget]; rfl, rfl, rfl, rfl⟩
  | crossLink => exact ⟨.crossLink target, by rw [role, hkind, htarget]; rfl, rfl, rfl, rfl⟩
  | scalar type | multiValued type | group | system | unknown => rw [hkind] at hlink; cases hlink

/-- What resolving a segment establishes. -/
structure Resolves (s : Schema) (table : String) (segment : Segment) (followed : Bool)
    (role : FieldRole) : Prop where
  named : s.role table segment.name = .ok role
  means : s.Means table segment.name role
  loops : segment.transitive = true → role.linkTarget? = some table
  leads : followed = true → role.target?.isSome = true

theorem checkRepeated_yields {role : FieldRole} :
    Yields (fun _ => role.linkTarget? = some table) (checkRepeated table name role) := by
  unfold checkRepeated
  split
  · trivial
  · rename_i target htarget
    split
    · rename_i heq
      rw [htarget, heq]
      rfl
    · trivial

theorem resolveSegment_yields {segment : Segment} {followed : Bool} :
    Yields (s.Resolves table segment followed) (s.resolveSegment table segment followed) := by
  unfold resolveSegment
  refine role_yields.bind fun role hrole => ?_
  refine Yields.check (P := role.linkTarget? = some table) (fun _ => checkRepeated_yields)
    fun hloops => ?_
  refine Yields.unless fun hleads => ?_
  refine ⟨hrole.1, hrole.2, hloops, fun h => ?_⟩
  simpa [h, Option.isSome_iff_ne_none] using hleads

/-- A segment that ends its path and is followed once has the role of its name. -/
theorem resolveSegment_once {segment : Segment} {role : FieldRole}
    (honce : segment.transitive = false) (h : s.role table segment.name = .ok role) :
    s.resolveSegment table segment false = .ok role := by
  rw [resolveSegment, h, honce]
  rfl

theorem resolveFrom_yields {rest : List Segment} {segment : Segment} :
    Yields (fun resolved => s.Along table ((segment :: rest).map (·.name))
        (resolved.segments.map (·.role)) ∧ resolved.segments.map (·.segment) = segment :: rest)
      (s.resolveFrom table segment rest) := by
  induction rest generalizing table segment with
  | nil =>
    unfold resolveFrom
    refine resolveSegment_yields.bind fun role hrole => ?_
    exact ⟨Along.last hrole.named, rfl⟩
  | cons next rest ih =>
    unfold resolveFrom
    refine resolveSegment_yields.bind fun role hrole => ?_
    obtain ⟨target, htarget⟩ := Option.isSome_iff_exists.mp (hrole.leads rfl)
    refine ih.bind fun behind hbehind => ?_
    simp only [htarget, Option.getD_some] at hbehind
    refine ⟨?_, ?_⟩
    · simpa [ResolvedPath.segments] using Along.step hrole.named htarget hbehind.1
    · simpa [ResolvedPath.segments] using hbehind.2

/-- The roles along a path, whose segments are those of the path. -/
theorem resolve_yields {path : Path} :
    Yields (fun resolved => s.Along table path.names (resolved.segments.map (·.role)) ∧
      resolved.segments.map (·.segment) = path.segments) (s.resolve table path) :=
  resolveFrom_yields

theorem names_of_segments {resolved : ResolvedPath} {path : Path}
    (h : resolved.segments.map (·.segment) = path.segments) : resolved.names = path.names := by
  simp only [Path.names, ← h, ResolvedPath.names, List.map_map]
  rfl

/-- The names of a path that resolves mean something, one after another. -/
theorem along_of_resolve {path : Path} {resolved : ResolvedPath}
    (h : s.resolve table path = .ok resolved) :
    resolved.names = path.names ∧ ∃ roles, s.Along table path.names roles := by
  have hresolved := resolve_yields.of_ok h
  exact ⟨names_of_segments hresolved.2, _, hresolved.1⟩

end Schema

/-! ## Literals and counts -/

theorem Interval.mapM_yields {α β : Type} {P : α → Prop} {Q : β → Prop}
    {convert : α → Except QueryError β} {range : Interval α} (h : range.Bounds P)
    (hconvert : ∀ a, P a → Yields Q (convert a)) : Yields (Bounds Q) (range.mapM convert) := by
  have hbound : ∀ bound : Option α, (∀ a ∈ bound, P a) →
      Yields (fun b => ∀ value ∈ b, Q value) (bound.mapM convert) := by
    intro bound hbound
    cases bound with
    | none => simp
    | some a => exact (hconvert a (hbound a rfl)).map (by simp)
  unfold Interval.mapM
  refine (hbound range.min h.1).bind fun min hmin => ?_
  exact (hbound range.max h.2).bind fun max hmax => ⟨hmin, hmax⟩

theorem Interval.ofComparison_bounds {P : Nat → Prop} {o : CompareOp} {value : Nat}
    {range : Interval Nat} (h : ofComparison? o value = some range) (hvalue : P value) :
    range.Bounds P := by
  have hbound : ∀ bound ∈ some value, P bound := by
    rintro _ ⟨⟩
    exact hvalue
  cases o with
  | contains => cases h
  | eq =>
    obtain rfl := Option.some.inj h
    exact ⟨hbound, hbound⟩
  | lt | le =>
    obtain rfl := Option.some.inj h
    exact ⟨nofun, hbound⟩
  | gt | ge =>
    obtain rfl := Option.some.inj h
    exact ⟨hbound, nofun⟩

namespace Filter

variable {schema : Schema} {good : Timestamp → Prop} {table : String}

theorem literalOf_yields {t : Option ScalarType} {field : String} {value : RawValue}
    (h : value.Good good) : Yields (Literal.Fits good t) (literalOf t field value) := by
  cases t with
  | none => exact ⟨_, rfl⟩
  | some type =>
    simp only [literalOf, Literal.convert]
    split
    · rename_i literal hliteral
      exact ⟨value, h, hliteral⟩
    · trivial

/-- The counts of a test fit into 64 bits. -/
def CountTest.Good : CountTest → Prop
  | .exactly count => count < Text.bitBound 64
  | .within range => range.Bounds (· < Text.bitBound 64)

/-- The instants and counts of a tail are good. -/
def Tail.Good (good : Timestamp → Prop) : Tail → Prop
  | .compare _ value => value.Good good
  | .count test => test.Good
  | _ => True

theorem CountTest.Good.range {test : CountTest} (h : test.Good) :
    test.range.Bounds (· < Text.bitBound 64) := by
  cases test with
  | exactly count =>
    exact Interval.ofComparison_bounds (o := .eq) (P := (· < Text.bitBound 64)) rfl h
  | within range => exact h

theorem CountTest.number_yields (text : String) : Yields (· < Text.bitBound 64) (CountTest.number text) := by
  unfold CountTest.number
  split
  · rename_i count hcount
    exact Text.unsigned?_lt hcount
  · trivial

theorem CountTest.ofValue_yields (op : CompareOp) (value : Value) :
    Yields CountTest.Good (CountTest.ofValue op value) := by
  unfold CountTest.ofValue
  split
  · refine (CountTest.number_yields _).bind fun count hcount => ?_
    split
    · exact hcount
    · split
      · rename_i range hrange
        exact Interval.ofComparison_bounds (P := (· < Text.bitBound 64)) hrange hcount
      · trivial
  · split
    · refine Yields.map (P := Interval.Bounds (· < Text.bitBound 64)) ?_ fun _ h => h
      refine Interval.mapM_yields (P := fun _ => True) ⟨fun _ _ => trivial, fun _ _ => trivial⟩ ?_
      exact fun bound _ => CountTest.number_yields bound.asText
    · trivial
  · trivial

/-! ## Fields with values -/

theorem hasValue_wellFormed {type : Option ScalarType} {several : Bool} {field : String}
    (h : schema.valueType? table field = some (type, several)) :
    (hasValue type field).WellFormed schema good table := by
  unfold hasValue
  split
  · exact ⟨⟨fun _ hb => Option.some.inj hb ▸ by decide, nofun⟩, by simp [h]⟩
  · trivial

theorem leafTest_yields {type : Option ScalarType} {several : Bool} {field : String} {tail : Tail}
    (h : schema.valueType? table field = some (type, several)) (htail : tail.Good good) :
    Yields (fun q => (tail.isComparison = true → q.TestsValues schema good table) ∧
        ((tail.isComparison && several) = false → q.WellFormed schema good table))
      (leafTest type field tail) := by
  have hone : ∀ {q : Query}, q.WellFormed schema good table →
      (false = true → q.TestsValues schema good table) ∧
        ((false && several) = false → q.WellFormed schema good table) :=
    fun hq => ⟨nofun, fun _ => hq⟩
  unfold leafTest
  split
  · exact hone (hasValue_wellFormed h)
  · exact hone (hasValue_wellFormed h)
  · exact hone (hasValue_wellFormed h).not
  · refine (literalOf_yields (t := type) htail).bind fun literal hliteral => ?_
    refine ⟨fun _ => ⟨type, several, h, hliteral⟩, fun hseveral => ?_⟩
    obtain rfl : several = false := hseveral
    exact ⟨type, h, hliteral⟩
  · refine Yields.bind (Interval.mapM_yields htail fun value hvalue =>
      literalOf_yields (t := type) hvalue) fun range hrange => ?_
    refine ⟨fun _ => ⟨type, several, h, hrange⟩, fun hseveral => ?_⟩
    obtain rfl : several = false := hseveral
    exact ⟨type, h, hrange⟩
  · trivial
  · exact hone ⟨rfl, htail, by simp [h]⟩
  · exact hone ⟨htail, by simp [h]⟩

theorem quantifiedTest_yields {field : String} {quantifier : Option Quantifier} {test : Query}
    (h : test.TestsValues schema good table) :
    Yields (Query.WellFormed schema good table) (quantifiedTest field quantifier test) := by
  unfold quantifiedTest
  split
  · exact ⟨by decide, h⟩
  · trivial
  · rename_i hcount
    exact ⟨hcount, h⟩

theorem leafQuery_yields {type : Option ScalarType} {several : Bool} {segment : Segment}
    {tail : Tail} (h : schema.valueType? table segment.name = some (type, several))
    (htail : tail.Good good) :
    Yields (Query.WellFormed schema good table) (leafQuery type several segment tail) := by
  unfold leafQuery
  refine Yields.unless fun _ => ?_
  refine (leafTest_yields h htail).bind fun test htest => ?_
  split
  · rename_i hquantified
    simp only [Bool.and_eq_true] at hquantified
    exact quantifiedTest_yields (htest.1 hquantified.1)
  · rename_i hquantified
    refine htest.2 ?_
    grind

/-! ## Links -/

section Links

variable {inner : LogSet} {nested : Nested} {segment : Segment} {tail : Tail} {target : String}
  {filter : Option Query}

/-- The filters inside paths become well-formed trees. -/
def Nested.Builds (schema : Schema) (good : Timestamp → Prop) (inner : LogSet)
    (nested : Nested) : Prop :=
  ∀ table log, inner log → Yields (Query.WellFormed schema good table) (nested table log)

/-- What stands behind a segment becomes well-formed trees. -/
def Onward.Builds (schema : Schema) (good : Timestamp → Prop) (onward : Onward) : Prop :=
  ∀ table tail, tail.Good good →
    Yields (Query.WellFormed schema good table) (onward.build table tail)

theorem traversalQuantifier_ne_count (q : Option Quantifier) : traversalQuantifier q ≠ .count := by
  unfold traversalQuantifier
  split <;> decide

theorem allFilters_yields (hnested : nested.Builds schema good inner)
    {filters : List (List Token)} (h : ∀ filter ∈ filters, inner filter) :
    Yields (Query.WellFormedIfAny schema good table) (allFilters nested table filters) := by
  unfold allFilters
  refine (Yields.mapM fun filter hfilter => hnested table filter (h filter hfilter)).bind ?_
  intro parts hparts
  refine Query.WellFormed.andAll fun part hpart => ?_
  obtain ⟨q, hq, rfl⟩ := List.mem_map.mp hpart
  exact hparts q hq

theorem linkEnd_yields {quantifier : Quantifier} {link : String} (hquantifier : quantifier ≠ .count)
    (hlink : schema.LeadsTo table link target)
    (hfilter : Query.WellFormedIfAny schema good target filter) (htail : tail.Good good) :
    Yields (Query.WellFormed schema good table) (linkEnd quantifier link filter tail) := by
  unfold linkEnd
  split
  · exact ⟨hquantifier, target, hlink, trivial, hfilter⟩
  · exact ⟨hquantifier, target, hlink, hfilter, trivial⟩
  · exact Query.WellFormed.not ⟨by decide, target, hlink, hfilter, trivial⟩
  · cases filter with
    | none => exact ⟨hquantifier, target, hlink⟩
    | some filter => exact ⟨hquantifier, target, hlink, hfilter, trivial⟩
  · trivial
  · trivial
  · exact ⟨rfl, htail, target, hlink, hfilter⟩
  · exact ⟨htail, target, hlink, hfilter⟩

theorem behindLink_yields {onward : Onward} (honward : onward.Builds schema good)
    (htail : tail.Good good) :
    Yields (Query.WellFormed schema good target) (behindLink segment target onward tail) := by
  unfold behindLink
  split
  · exact (honward target .present trivial).map fun _ h => h.not
  · exact honward target tail htail

variable {onward : Option Onward}

theorem linkQuery_yields (hnested : nested.Builds schema good inner) (hsegment : segment.Proper inner)
    (hlink : schema.LeadsTo table segment.name target)
    (honward : ∀ o ∈ onward, o.Builds schema good) (htail : tail.Good good) :
    Yields (Query.WellFormed schema good table)
      (linkQuery nested segment target onward tail) := by
  unfold linkQuery
  refine (allFilters_yields hnested hsegment.inside.filters).bind fun filter hfilter => ?_
  split
  · rename_i condition hcondition
    refine Yields.unless fun _ => ?_
    have hinner := hnested target condition.tokens (hsegment.inside.condition _ hcondition)
    refine hinner.bind fun inner hinner => ?_
    exact ⟨hsegment.condition _ hcondition, target, hlink, hfilter, hinner⟩
  · rename_i onward _
    refine (behindLink_yields (honward onward rfl) htail).bind fun inner hinner => ?_
    exact ⟨traversalQuantifier_ne_count _, target, hlink, hfilter, hinner⟩
  · exact linkEnd_yields (traversalQuantifier_ne_count _) hlink hfilter htail

theorem repeatedCondition_yields (hnested : nested.Builds schema good inner)
    (hsegment : segment.Proper inner) {isLast : Bool} :
    Yields (Query.WellFormedIfAny schema good target)
      (repeatedCondition nested segment target isLast tail) := by
  unfold repeatedCondition
  split
  · trivial
  · rename_i condition hcondition
    refine Yields.unless fun _ => Yields.unless fun _ => ?_
    have hinner := hnested target condition.tokens (hsegment.inside.condition _ hcondition)
    exact hinner.bind fun inner hinner => hinner

theorem repeatedEnd_yields {link : String} :
    Yields (Query.WellFormedIfAny schema good target) (repeatedEnd link tail) := by
  unfold repeatedEnd
  split <;> trivial

theorem quantifiedRepeat_yields {link : String} {quantifier : Option Quantifier}
    {traversal : Query} (h : traversal.WellFormed schema good table) :
    Yields (Query.WellFormed schema good table) (quantifiedRepeat link quantifier traversal) := by
  unfold quantifiedRepeat
  split
  · exact h
  · exact h
  · exact h.not
  · trivial

theorem repeatedLinkQuery_yields (hnested : nested.Builds schema good inner)
    (hsegment : segment.Proper inner) (hlink : schema.LeadsTo table segment.name table)
    (honward : ∀ o ∈ onward, o.Builds schema good) (htail : tail.Good good) :
    Yields (Query.WellFormed schema good table)
      (repeatedLinkQuery nested segment table onward tail) := by
  unfold repeatedLinkQuery
  refine (allFilters_yields hnested hsegment.inside.filters).bind fun filter hfilter => ?_
  refine (repeatedCondition_yields hnested hsegment).bind fun condition hcondition => ?_
  have hend : ∀ continuation, Query.WellFormedIfAny schema good table continuation →
      ∀ opposite : Bool, Yields (Query.WellFormed schema good table)
        (quantifiedRepeat segment.name segment.quantifier
          (if opposite then Query.not (.transitiveLink segment.name segment.depth
              (Query.andAll [filter, condition, continuation]))
            else .transitiveLink segment.name segment.depth
              (Query.andAll [filter, condition, continuation]))) := by
    intro continuation hcontinuation opposite
    have htraversal : (Query.transitiveLink segment.name segment.depth
        (Query.andAll [filter, condition, continuation])).WellFormed schema good table := by
      refine ⟨hlink, hsegment.depth, Query.WellFormed.andAll ?_⟩
      simp only [List.mem_cons, List.not_mem_nil, or_false, forall_eq_or_imp, forall_eq]
      exact ⟨hfilter, hcondition, hcontinuation⟩
    refine quantifiedRepeat_yields ?_
    cases opposite with
    | true => exact htraversal.not
    | false => exact htraversal
  cases onward with
  | none => exact repeatedEnd_yields.bind fun _ h => hend _ h _
  | some onward =>
    have hmap := (honward onward rfl table tail htail).map (f := some)
      (Q := Query.WellFormedIfAny schema good table) fun _ h => h
    exact hmap.bind fun _ h => hend _ h _

/-! ## Segments -/

theorem anyLinkQuery_yields {role : FieldRole} (hnested : nested.Builds schema good inner)
    (hsegment : segment.Proper inner) (hlink : schema.LeadsTo table segment.name target)
    (hrole : role.linkTarget? = some target)
    (hloops : segment.transitive = true → role.linkTarget? = some table)
    (honward : ∀ o ∈ onward, o.Builds schema good) (htail : tail.Good good) :
    Yields (Query.WellFormed schema good table)
      (anyLinkQuery nested segment target onward tail) := by
  unfold anyLinkQuery
  split
  · rename_i htransitive
    obtain rfl : target = table := by simpa [hrole] using hloops htransitive
    exact repeatedLinkQuery_yields hnested hsegment hlink honward htail
  · exact linkQuery_yields hnested hsegment hlink honward htail

theorem fieldQuery_yields {role : FieldRole} (hnested : nested.Builds schema good inner)
    (hsegment : segment.Proper inner) {followed : Bool}
    (hrole : schema.Resolves table segment followed role)
    (hgroup : schema.fieldKind table segment.name ≠ .group)
    (honward : ∀ o ∈ onward, o.Builds schema good) (htail : tail.Good good) :
    Yields (Query.WellFormed schema good table) (fieldQuery nested role segment onward tail) := by
  cases role with
  | scalar type => exact leafQuery_yields hrole.means htail
  | multiValued type => exact leafQuery_yields hrole.means htail
  | link target => exact anyLinkQuery_yields hnested hsegment hrole.means rfl hrole.loops honward htail
  | crossLink target =>
    exact anyLinkQuery_yields hnested hsegment hrole.means rfl hrole.loops honward htail
  | group target => exact absurd hrole.means hgroup
  | system => exact leafQuery_yields hrole.means htail

theorem standIns_leaves {group member : String} {isLast : Bool}
    (h : member ∈ standIns schema table group isLast) : schema.fieldKind table member ≠ .group := by
  unfold standIns at h
  split at h
  · exact Schema.groupMembers_leaves h
  · intro hkind
    have hlink := Schema.groupLinks_isLink h
    simp [hkind, FieldKind.isLink] at hlink

theorem Segment.Proper.renamed (h : segment.Proper inner) (name : String) :
    ({ segment with name := name } : Segment).Proper inner :=
  ⟨⟨h.inside.filters, h.inside.condition⟩, h.condition, h.quantifier, h.depth⟩

variable {scope : Scope}

theorem groupQuery_yields (hnested : nested.Builds scope.schema good inner)
    (hsegment : segment.Proper inner) (honward : ∀ o ∈ onward, o.Builds scope.schema good)
    (htail : tail.Good good) :
    Yields (Query.WellFormed scope.schema good table)
      (groupQuery scope nested table segment onward tail) := by
  unfold groupQuery
  refine Yields.unless fun _ => Yields.unless fun _ => ?_
  refine (Yields.mapM (P := Query.WellFormed scope.schema good table) fun member hmember => ?_).bind
    fun branches hbranches => ?_
  · unfold memberQuery
    refine Schema.resolveSegment_yields.bind fun role hrole => ?_
    exact fieldQuery_yields hnested (Segment.Proper.renamed hsegment member) hrole
      (standIns_leaves hmember) honward htail
  · split
    · exact Query.WellFormed.and hbranches
    · exact Query.WellFormed.or hbranches

theorem segmentQuery_yields (hnested : nested.Builds scope.schema good inner)
    (hsegment : segment.Proper inner) (honward : ∀ o ∈ onward, o.Builds scope.schema good)
    (htail : tail.Good good) :
    Yields (Query.WellFormed scope.schema good table)
      (segmentQuery scope nested table segment onward tail) := by
  unfold segmentQuery
  refine Schema.resolveSegment_yields.bind fun role hrole => ?_
  split
  · exact groupQuery_yields hnested hsegment honward htail
  · rename_i hnot
    refine fieldQuery_yields hnested hsegment hrole (fun hkind => ?_) honward htail
    cases role with
    | group target => exact hnot target rfl
    | _ => cases (Schema.role_kind hrole.named).trans hkind

theorem chainQuery_yields (hnested : nested.Builds scope.schema good inner)
    {rest : List Segment} (hsegment : segment.Proper inner) (hrest : ∀ s ∈ rest, s.Proper inner)
    (htail : tail.Good good) :
    Yields (Query.WellFormed scope.schema good table)
      (chainQuery scope nested table segment rest tail) := by
  induction rest generalizing table segment tail with
  | nil => exact segmentQuery_yields hnested hsegment nofun htail
  | cons next rest ih =>
    simp only [List.mem_cons, forall_eq_or_imp] at hrest
    refine segmentQuery_yields hnested hsegment ?_ htail
    rintro _ ⟨⟩ target tail htail
    exact ih hrest.1 hrest.2 htail

/-- The tree of a path with a tail. -/
theorem termQuery_yields (hnested : nested.Builds scope.schema good inner) {path : Path}
    (hpath : path.Proper inner) (htail : tail.Good good) :
    Yields (Query.WellFormed scope.schema good table)
      (termQuery scope nested table path tail) := by
  simp only [Path.Proper, Path.segments, List.mem_cons, forall_eq_or_imp] at hpath
  unfold termQuery
  split
  · have hpresent : Tail.present.Good good := trivial
    exact (chainQuery_yields hnested hpath.1 hpath.2 hpresent).map fun _ h => h.not
  · exact chainQuery_yields hnested hpath.1 hpath.2 htail

end Links

/-! ## Calls -/

/-- What a distinct count needs, and what becomes of it. -/
theorem distinctCount_eq_ok_iff {path : Path} {count : CountTest} {q : Query} :
    distinctCount schema table path count = .ok q ↔
      path.isRestricted = false ∧ ∃ resolved, schema.resolve table path = .ok resolved ∧
        resolved.segments.any (·.role.kind.isLink) = true ∧
        q = .pathCountRange resolved.names count.range := by
  constructor
  · intro h
    obtain ⟨resolved, hresolved, h⟩ := bind_eq_ok h
    cases hrestricted : path.isRestricted with
    | true =>
      simp only [hrestricted] at h
      cases h
    | false =>
      cases hlinks : resolved.segments.any (·.role.kind.isLink) with
      | false =>
        simp only [hrestricted, hlinks] at h
        cases h
      | true =>
        simp only [hrestricted, hlinks] at h
        exact ⟨rfl, resolved, hresolved, hlinks, (Except.ok.inj h).symm⟩
  · rintro ⟨hrestricted, resolved, hresolved, hlinks, rfl⟩
    unfold distinctCount
    rw [hresolved, hrestricted]
    show (if (!resolved.segments.any (·.role.kind.isLink)) = true then _ else _) = _
    rw [hlinks]
    rfl

/-- What a path that is compared needs, and what is left of it. -/
theorem comparedPath_eq_ok_iff {op : PathOp} {path : Path} {names : List String} :
    comparedPath schema table op path = .ok names ↔
      path.isRestricted = false ∧ ∃ resolved, schema.resolve table path = .ok resolved ∧
        names = resolved.names := by
  constructor
  · intro h
    unfold comparedPath at h
    cases hrestricted : path.isRestricted with
    | true =>
      simp only [hrestricted] at h
      cases h
    | false =>
      simp only [hrestricted] at h
      obtain ⟨resolved, hresolved, h⟩ := bind_eq_ok h
      exact ⟨rfl, resolved, hresolved, (Except.ok.inj h).symm⟩
  · rintro ⟨hrestricted, resolved, hresolved, rfl⟩
    unfold comparedPath
    rw [hrestricted, hresolved]
    rfl

/-- The tree of a count of distinct values. -/
theorem distinctCount_yields {path : Path} {count : CountTest} (hcount : count.Good) :
    Yields (Query.WellFormed schema good table) (distinctCount schema table path count) := by
  unfold distinctCount
  refine Schema.resolve_yields.bind fun resolved hresolved => ?_
  refine Yields.unless fun _ => Yields.unless fun hlink => ?_
  refine ⟨hcount.range, resolved.segments.map (·.role), ?_, ?_⟩
  · rw [Schema.names_of_segments hresolved.2]
    exact hresolved.1
  · simpa [List.any_map, Function.comp_def] using hlink

theorem comparedPath_yields {op : PathOp} {path : Path} :
    Yields (fun names => ∃ roles, schema.Along table names roles)
      (comparedPath schema table op path) := by
  unfold comparedPath
  refine Yields.unless fun _ => ?_
  refine Schema.resolve_yields.bind fun resolved hresolved => ?_
  rw [yields_pure, Schema.names_of_segments hresolved.2]
  exact ⟨_, hresolved.1⟩

/-- The tree of a comparison of two paths. -/
theorem pathComparison_yields {op : PathOp} {left right : Path} :
    Yields (Query.WellFormed schema good table) (pathComparison schema table op left right) := by
  unfold pathComparison
  refine comparedPath_yields.bind fun left hleft => ?_
  exact comparedPath_yields.bind fun right hright => ⟨hleft, hright⟩

end Filter

end LinkQuery
