import LinkQuery.Proofs.Compiling
import LinkQuery.Proofs.Combining
/-!
# Settling well-formed trees

Promotion turns the equality tests of identities into identity tests and leaves every other node of
a well-formed tree as it is, up to new chances to flatten. It keeps trees well formed, so that every
compiled filter is.

Main statements:
- `Query.WellFormed.promoted`: the promotion of a well-formed tree is well formed.
- `Compiler.filter_wellFormed`: compiled filters are well formed.
-/
namespace LinkQuery

open Time (Timestamp)

/-! ## What names lead to -/

namespace Schema

variable {schema : Schema} {table field : String}

theorem fieldKind_system (h : isSystemField field = true) :
    schema.fieldKind table field = .system := by
  obtain rfl : field = "_ID" := by simpa [isSystemField] using h
  simp [fieldKind, isReserved, isSystemField]

theorem isSystemField_of_kind (h : schema.fieldKind table field = .system) :
    isSystemField field = true := by
  unfold fieldKind kindOf at h
  repeat' split at h
  all_goals first | assumption | cases h

/-- A field whose values have no scalar type is a system field. -/
theorem isSystemField_of_valueType {several : Bool}
    (h : schema.valueType? table field = some (none, several)) : isSystemField field = true := by
  unfold valueType? at h
  split at h
  · cases h
  · cases h
  · exact isSystemField_of_kind ‹_›
  · cases h

/-- A field whose values have a scalar type is no system field. -/
theorem not_isSystemField_of_valueType {type : ScalarType} {several : Bool}
    (h : schema.valueType? table field = some (some type, several)) :
    isSystemField field = false := by
  rw [← Bool.not_eq_true]
  intro hsystem
  rw [valueType?, fieldKind_system hsystem] at h
  cases h

end Schema

namespace Query

variable {schema : Schema} {good : Timestamp → Prop} {table : String}

theorem traversalTarget_of_leadsTo {name target : String} (h : schema.LeadsTo table name target) :
    traversalTarget schema table name = .ok target := by
  have htarget : traversalTarget? schema table name = some target := by
    unfold traversalTarget?
    have hlink := h.1
    cases hkind : schema.fieldKind table name <;> rw [hkind] at hlink <;>
      first | exact h.2 | cases hlink
  rw [traversalTarget, htarget]

/-! ## Comparisons -/

section Comparisons

variable {field : String} {several : Bool} {op : CompareOp} {value : Literal}

/-- The comparison of a scalar field is no identity test. -/
theorem promote_comparison {type : ScalarType}
    (hvalue : schema.valueType? table field = some (some type, several)) :
    promote schema table (.comparison field op value) = .ok (.comparison field op value) := by
  have hsystem := Schema.not_isSystemField_of_valueType hvalue
  rw [promote, promoteComparison, hsystem, if_neg (by simp)]
  unfold Schema.valueType? at hvalue
  cases hkind : schema.fieldKind table field <;> rw [hkind] at hvalue <;> cases hvalue

/-- The comparison of a system field is one with the identity of the object. -/
theorem promote_identity (hvalue : schema.valueType? table field = some (none, several)) :
    promote schema table (.comparison field op value) = objectIdentity field op value := by
  rw [promote, promoteComparison, if_pos (Schema.isSystemField_of_valueType hvalue)]

/-- A comparison stays one, or becomes an identity test, or asks for part of an identity. -/
theorem promote_comparison_cases {type : Option ScalarType}
    (hvalue : schema.valueType? table field = some (type, several)) :
    Yields (fun q => q = .comparison field op value ∨ q = .objectId value.asText)
      (promote schema table (.comparison field op value)) := by
  cases type with
  | some type =>
    rw [promote_comparison hvalue]
    exact Or.inl rfl
  | none =>
    rw [promote_identity hvalue]
    cases op <;> simp [objectIdentity]

end Comparisons

/-! ## Promotion -/

/-- A test of single values stays one. -/
theorem TestsValues.promoted {q : Query} (h : q.TestsValues schema good table) :
    Yields (TestsValues schema good table) (promote schema table q) := by
  cases q with
  | comparison field op value =>
    obtain ⟨type, several, hvalue, hfits⟩ := h
    refine (promote_comparison_cases hvalue).mono fun q hq => ?_
    rcases hq with rfl | rfl
    · exact ⟨type, several, hvalue, hfits⟩
    · trivial
  | interval field range =>
    unfold promote
    exact h
  | objectId id =>
    unfold promote
    trivial
  | _ => exact h.elim

mutual

/-- The promotion of a well-formed tree is well formed. -/
theorem WellFormed.promoted {table : String} : ∀ {q : Query}, q.WellFormed schema good table →
    Yields (WellFormed schema good table) (promote schema table q)
  | .allOf children, h => by
    rw [promote]
    exact (AllWellFormed.promoted h.2.2).bind fun _ hqs => WellFormed.and (allWellFormed_iff.mp hqs)
  | .anyOf children, h => by
    rw [promote]
    exact (AllWellFormed.promoted h.2.2).bind fun _ hqs => WellFormed.or (allWellFormed_iff.mp hqs)
  | .negated inner, h => by
    rw [promote]
    exact (WellFormed.promoted h.2).bind fun _ hq => hq.not
  | .comparison field op value, ⟨type, hvalue, hfits⟩ => by
    refine (promote_comparison_cases hvalue).mono fun q hq => ?_
    rcases hq with rfl | rfl
    · exact ⟨type, hvalue, hfits⟩
    · trivial
  | .multiValue quantifier inner, h => by
    rw [promote]
    exact h.2.promoted.bind fun _ hq => ⟨h.1, hq⟩
  | .link quantifier name filter inner, ⟨hquantifier, target, hlead, hfilter, hinner⟩ => by
    rw [promote, traversalTarget_of_leadsTo hlead]
    exact (WellFormedIfAny.promoted hfilter).bind fun _ hf =>
      (WellFormedIfAny.promoted hinner).bind fun _ hi => ⟨hquantifier, target, hlead, hf, hi⟩
  | .transitiveLink name depth inner, ⟨hlead, hdepth, hinner⟩ => by
    rw [promote, traversalTarget_of_leadsTo hlead]
    exact (WellFormedIfAny.promoted hinner).bind fun _ hi => ⟨hlead, hdepth, hi⟩
  | .linkId quantifier name id, h => by
    obtain ⟨target, hlead⟩ := h.2
    rw [promote, traversalTarget_of_leadsTo hlead]
    exact h
  | .linkCount name filter op count, ⟨hop, hcount, target, hlead, hfilter⟩ => by
    rw [promote, traversalTarget_of_leadsTo hlead]
    exact (WellFormedIfAny.promoted hfilter).bind fun _ hf => ⟨hop, hcount, target, hlead, hf⟩
  | .linkCountRange name filter range, ⟨hrange, target, hlead, hfilter⟩ => by
    rw [promote, traversalTarget_of_leadsTo hlead]
    exact (WellFormedIfAny.promoted hfilter).bind fun _ hf => ⟨hrange, target, hlead, hf⟩
  | .everything, h | .nothing, h | .interval _ _, h | .objectId _, h | .fieldCount _ _ _, h
  | .fieldCountRange _ _, h | .pathCountRange _ _, h | .pathComparison _ _ _, h => by
    unfold promote
    exact h

theorem AllWellFormed.promoted {table : String} : ∀ {children : List Query},
    AllWellFormed schema good table children →
    Yields (AllWellFormed schema good table) (promoteAll schema table children)
  | [], h => by
    rw [promoteAll]
    exact h
  | child :: rest, h => by
    rw [promoteAll]
    exact (WellFormed.promoted h.1).bind fun _ hq =>
      (AllWellFormed.promoted h.2).bind fun _ hqs => ⟨hq, hqs⟩

theorem WellFormedIfAny.promoted {table : String} : ∀ {inner : Option Query},
    WellFormedIfAny schema good table inner →
    Yields (WellFormedIfAny schema good table) (promoteIfAny schema table inner)
  | none, h => by
    rw [promoteIfAny]
    exact h
  | some inner, h => by
    rw [promoteIfAny]
    exact (WellFormed.promoted h).map fun _ hq => hq

end

theorem WellFormed.settled {q settled : Query} (h : q.WellFormed schema good table)
    (hsettle : settle schema table q = .ok settled) : settled.WellFormed schema good table :=
  h.promoted.of_ok (settle_eq_ok_iff.mp hsettle).1

end Query

namespace Compiler

variable {c : Compiler} {good : Timestamp → Prop} {table input : String} {q : Query}

/-- What a compiled filter is made of. -/
theorem filter_eq_ok (h : c.filter table input = .ok (some q)) :
    ∃ log scope raw, c.log .filter input = .ok log ∧ log ≠ [] ∧ c.scope = .ok scope ∧
      Filter.buildIn scope table log = .ok raw ∧ Query.settle c.schema table raw = .ok q := by
  obtain ⟨log, hlog, h⟩ := bind_eq_ok h
  obtain ⟨built, hbuilt, hsettle⟩ := bind_eq_ok h
  obtain ⟨scope, hscope, hbuilt⟩ := bind_eq_ok hbuilt
  unfold Filter.build at hbuilt
  split at hbuilt
  · obtain rfl := Except.ok.inj hbuilt
    cases hsettle
  rename_i hempty
  obtain ⟨raw, hraw, rfl⟩ := map_eq_ok hbuilt
  obtain ⟨settled, hsettled, hsome⟩ := map_eq_ok hsettle
  obtain rfl := Option.some.inj hsome
  exact ⟨log, scope, raw, hlog, by simpa using hempty, hscope, hraw, hsettled⟩

/-- Compiled filters are well formed. -/
theorem filter_wellFormed (hclock : ∀ scope, c.scope = .ok scope → scope.clock.Shows good)
    (h : c.filter table input = .ok (some q)) : q.WellFormed c.schema good table := by
  obtain ⟨log, scope, raw, hlog, hne, hscope, hraw, hsettle⟩ := filter_eq_ok h
  have hschema : scope.schema = c.schema := c.scope_yields.of_ok hscope
  have hwell : raw.WellFormed scope.schema good table :=
    (Filter.buildIn_yields (hclock scope hscope)
      ⟨_, (c.log_answers .filter input).of_ok hlog hne⟩).of_ok hraw
  rw [hschema] at hwell
  exact hwell.settled hsettle

end Compiler

end LinkQuery
