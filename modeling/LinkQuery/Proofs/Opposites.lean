import LinkQuery.Proofs.GroupMeaning
/-!
# `ANY` and `NONE`

A path of one segment inside `ANY` asks for a witness of its tail, and inside `NONE` for there to
be none: in the quantifier of a link or of an identity test behind it, around a traversal, in the
quantifier of the values of a field, or in how the members of a group are joined. Only the test
that a field has a value at all is the same inside both.

Main statements:
- `Filter.quantifiedTerm_witness`: the tree of a path of one segment inside a quantifier.
- `Compiler.none_complements_any`: the texts of both terms.
-/
namespace LinkQuery

namespace Filter

variable {scope : Scope} {store : Store} {table : String} {segment : Segment} {tail : Tail}

/-- The tree of a path of one segment inside `ANY` or `NONE` asks for a witness, or for there to be
none. `NONE` is heeded at links, and where values are compared. -/
theorem quantifiedTerm_witness {quantifier : Quantifier} {raw : Query}
    (hexistence : quantifier.existence = quantifier) (hstore : store.Keyed)
    (hplain : segment.isQuantified = false) (htail : tail.AsksForOne)
    (hheeds : ∀ field ∈ endFields scope.schema table segment,
      (scope.schema.fieldKind table field).isLink = true ∨ tail.isComparison = true)
    (h : termQuery scope (buildIn scope) table ⟨segment.quantifiedBy quantifier, []⟩ tail =
      .ok raw) :
    TreeMeans scope store table raw fun o =>
      quantifier.Asks (SegmentWitness scope store segment tail o) := by
  rw [termQuery, if_neg (by simp [htail.notMissing]), chainQuery] at h
  obtain ⟨hunquantified, hasks⟩ := asksForExistence_of_plain hplain
  have hquantifier : (segment.quantifiedBy quantifier).quantifier = some quantifier := by
    rw [Segment.quantifiedBy, hunquantified]
    rfl
  have hmeans := @segmentQuery_witness _ _ _ _ hstore buildIn_agrees_self
    (segment.quantifiedBy quantifier) _ _ ⟨hasks.unconditioned, ?_⟩ htail (fun _ => hheeds) h
  · have htraversal : traversalQuantifier (some quantifier) = quantifier := by
      cases quantifier with
      | any | none => rfl
      | all | count => exact absurd hexistence (by decide)
    rw [hquantifier, htraversal] at hmeans
    exact hmeans
  · rw [hquantifier]
    rintro ⟨⟩
    exact absurd hexistence (by decide)

end Filter

namespace Compiler

open Filter

variable {c : Compiler} {scope : Scope} {table anyText noneText : String} {segment : Segment}
  {tail : Tail} {store : Store}

/-- The texts are a path of one segment inside `ANY` and inside `NONE`, with the same tail. -/
structure AnyAndNone (c : Compiler) (scope : Scope) (segment : Segment) (tail : Tail)
    (anyText noneText : String) : Prop where
  plain : segment.isQuantified = false
  any : ∃ path, c.term? scope anyText = some (path, tail) ∧
    path.unplaced = (⟨segment.quantifiedBy .any, []⟩ : Path).unplaced
  none : ∃ path, c.term? scope noneText = some (path, tail) ∧
    path.unplaced = (⟨segment.quantifiedBy .none, []⟩ : Path).unplaced

/--
A path of one segment with a tail that asks for something holds of an object inside `ANY` exactly
if the segment finds a witness, and inside `NONE` exactly if it does not. The segment is a link,
followed once or repeatedly, or a group of links; where the tail compares values, it may be any
field and any group.
-/
theorem none_complements_any {p q : Query} {o : StoredObject} {a b : Bool}
    (hscope : c.scope = .ok scope) (hread : c.AnyAndNone scope segment tail anyText noneText)
    (htail : tail.AsksForOne)
    (hheeds : ∀ field ∈ endFields c.schema table segment,
      (c.schema.fieldKind table field).isLink = true ∨ tail.isComparison = true)
    (hany : c.filter table anyText = .ok (some p))
    (hnone : c.filter table noneText = .ok (some q)) (hstore : store.Keyed)
    (ho : store.find? table o.id = some o)
    (hholdsAny : View.holds ⟨c.schema, store⟩ p ⟨table, o⟩ = .ok a)
    (hholdsNone : View.holds ⟨c.schema, store⟩ q ⟨table, o⟩ = .ok b) :
    (a = true ↔ SegmentWitness scope store segment tail ⟨table, o⟩) ∧ (b = true ↔ a = false) := by
  obtain ⟨hplain, ⟨anyPath, htermAny, hsameAny⟩, nonePath, htermNone, hsameNone⟩ := hread
  rw [← c.scope_yields.of_ok hscope] at hheeds
  have hwitness := term_means hscope htermAny (fun raw h => quantifiedTerm_witness rfl hstore hplain
    htail hheeds (termQuery_of_unplaced hsameAny h)) hany ho hholdsAny
  have hnowitness := term_means hscope htermNone (fun raw h => quantifiedTerm_witness rfl hstore
    hplain htail hheeds (termQuery_of_unplaced hsameNone h)) hnone ho hholdsNone
  refine ⟨hwitness, hnowitness.trans ?_⟩
  rw [← Bool.not_eq_true]
  exact not_congr hwitness.symm

/-- Some person behind the links of the task is the person a. -/
theorem none_complements_any_people : ∃ scope p q, crew.scope = .ok scope ∧
    crew.AnyAndNone scope (.named "People" 0) (.compare .eq (.raw (.text "a"))) "ANY(People) = 'a'"
      "NONE(People) = 'a'" ∧
    crew.filter "Task" "ANY(People) = 'a'" = .ok (some p) ∧
    crew.filter "Task" "NONE(People) = 'a'" = .ok (some q) ∧
    View.holds ⟨crew.schema, crewStore⟩ p ⟨"Task", chore⟩ = .ok true ∧
    View.holds ⟨crew.schema, crewStore⟩ q ⟨"Task", chore⟩ = .ok false ∧
    SegmentWitness scope crewStore (.named "People" 0) (.compare .eq (.raw (.text "a")))
      ⟨"Task", chore⟩ := by
  have hread : (crew.scope.toOption.map fun scope => decide
      (crew.term? scope "ANY(People) = 'a'" = some
        (⟨(Segment.named "People" 4).quantifiedBy .any, []⟩, .compare .eq (.raw (.text "a"))) ∧
      crew.term? scope "NONE(People) = 'a'" = some
        (⟨(Segment.named "People" 5).quantifiedBy .none, []⟩, .compare .eq (.raw (.text "a"))))) =
      some true := by decide +kernel
  have hany : (crew.filter "Task" "ANY(People) = 'a'").toOption.bind (·.bind fun p =>
      (View.holds ⟨crew.schema, crewStore⟩ p ⟨"Task", chore⟩).toOption) = some true := by
    decide +kernel
  have hnone : (crew.filter "Task" "NONE(People) = 'a'").toOption.bind (·.bind fun q =>
      (View.holds ⟨crew.schema, crewStore⟩ q ⟨"Task", chore⟩).toOption) = some false := by
    decide +kernel
  obtain ⟨scope, hscope, hread⟩ := Option.map_eq_some_iff.mp hread
  obtain ⟨htermAny, htermNone⟩ := of_decide_eq_true hread
  obtain ⟨found, hcompileAny, hany⟩ := Option.bind_eq_some_iff.mp hany
  obtain ⟨p, rfl, hholdsAny⟩ := Option.bind_eq_some_iff.mp hany
  obtain ⟨found, hcompileNone, hnone⟩ := Option.bind_eq_some_iff.mp hnone
  obtain ⟨q, rfl, hholdsNone⟩ := Option.bind_eq_some_iff.mp hnone
  have hscope := toOption_eq_some hscope
  have hboth : crew.AnyAndNone scope (.named "People" 0) (.compare .eq (.raw (.text "a")))
      "ANY(People) = 'a'" "NONE(People) = 'a'" :=
    ⟨rfl, ⟨_, htermAny, by decide⟩, _, htermNone, by decide⟩
  have hwitness := (none_complements_any hscope hboth ⟨by simp, rfl⟩ (fun _ _ => Or.inr rfl)
    (toOption_eq_some hcompileAny) (toOption_eq_some hcompileNone) crewStore_keyed find?_chore
    (toOption_eq_some hholdsAny) (toOption_eq_some hholdsNone)).1
  exact ⟨scope, p, q, hscope, hboth, toOption_eq_some hcompileAny, toOption_eq_some hcompileNone,
    toOption_eq_some hholdsAny, toOption_eq_some hholdsNone, hwitness.mp rfl⟩

/-- A person with a name is found by a test that the person has any name, and by a test that there
is none. -/
theorem none_of_values_ignored : ∃ p q,
    staff.filter "Person" "ANY(Name) IS NOT NULL" = .ok (some p) ∧
    staff.filter "Person" "NONE(Name) IS NOT NULL" = .ok (some q) ∧
    View.holds ⟨staff.schema, staffStore⟩ p ⟨"Person", bob⟩ = .ok true ∧
    View.holds ⟨staff.schema, staffStore⟩ q ⟨"Person", bob⟩ = .ok true := by
  have hany : (staff.filter "Person" "ANY(Name) IS NOT NULL").toOption.bind (·.bind fun p =>
      (View.holds ⟨staff.schema, staffStore⟩ p ⟨"Person", bob⟩).toOption) = some true := by
    decide +kernel
  have hnone : (staff.filter "Person" "NONE(Name) IS NOT NULL").toOption.bind (·.bind fun q =>
      (View.holds ⟨staff.schema, staffStore⟩ q ⟨"Person", bob⟩).toOption) = some true := by
    decide +kernel
  obtain ⟨found, hcompileAny, hany⟩ := Option.bind_eq_some_iff.mp hany
  obtain ⟨p, rfl, hholdsAny⟩ := Option.bind_eq_some_iff.mp hany
  obtain ⟨found, hcompileNone, hnone⟩ := Option.bind_eq_some_iff.mp hnone
  obtain ⟨q, rfl, hholdsNone⟩ := Option.bind_eq_some_iff.mp hnone
  exact ⟨p, q, toOption_eq_some hcompileAny, toOption_eq_some hcompileNone,
    toOption_eq_some hholdsAny, toOption_eq_some hholdsNone⟩

end Compiler

end LinkQuery
