import LinkQuery.Filter.Term
import LinkQuery.Proofs.ValueLogs
import LinkQuery.Query.Basic
/-!
# Well-formed filter trees

A tree is well formed as a filter of a table when every name in it means what its node needs, in
the table that the tree around it leads to, and when no connective is needless: no conjunction
inside a conjunction, no disjunction inside a disjunction, and no negation that `Query.not` removes.

Main statements:
- `Query.Conjoins.and`, `Query.Disjoins.or`: what combinations have in common with their parts.
- `Query.WellFormed.and`, `Query.WellFormed.or`, `Query.WellFormed.not`: the combinations keep trees
  well formed.
-/
namespace LinkQuery

open Time (Timestamp)

/-! ## What names and literals mean -/

namespace Schema

/-- The field is a link of the table, and leads to the target. -/
def LeadsTo (s : Schema) (table name target : String) : Prop :=
  (s.fieldKind table name).isLink = true ∧ s.linkTarget? table name = some target

/-- The type that values of a field are compared as, none for system fields, and whether the field
may hold several. -/
def valueType? (s : Schema) (table name : String) : Option (Option ScalarType × Bool) :=
  match s.fieldKind table name with
  | .scalar type => some (some type, false)
  | .multiValued type => some (some type, true)
  | .system => some (none, false)
  | _ => none

/-- The names, one after another from a table on, have these roles. -/
inductive Along (s : Schema) : String → List String → List FieldRole → Prop
  | last {table name : String} {role : FieldRole} (h : s.role table name = .ok role) :
    Along s table [name] [role]
  | step {table name target : String} {role : FieldRole} {names : List String}
    {roles : List FieldRole} (h : s.role table name = .ok role) (htarget : role.target? = some target)
    (hrest : Along s target names roles) : Along s table (name :: names) (role :: roles)

end Schema

/-- The literal is what some value becomes for a type, and a text where there is no type. -/
def Literal.Fits (good : Timestamp → Prop) (type : Option ScalarType) (value : Literal) : Prop :=
  match type with
  | some type => ∃ raw : RawValue, raw.Good good ∧ ofRaw? raw type = some value
  | none => ∃ text, value = .text text

namespace Query

/-! ## Trees that combine -/

/-- The tree may stand in a conjunction. -/
def isConjunct : Query → Bool
  | .allOf _ | .everything => false
  | _ => true

/-- The tree may stand in a disjunction. -/
def isDisjunct : Query → Bool
  | .anyOf _ | .nothing => false
  | _ => true

/-- The tree may stand below a negation. -/
def isNegatable : Query → Bool
  | .everything | .nothing | .negated _ => false
  | _ => true

theorem conjuncts_eq {children : List Query} (h : ∀ child ∈ children, child.isConjunct = true) :
    conjuncts children = children := by
  fun_induction conjuncts children <;> simp_all [isConjunct]

theorem disjuncts_eq {children : List Query} (h : ∀ child ∈ children, child.isDisjunct = true) :
    disjuncts children = children := by
  fun_induction disjuncts children <;> simp_all [isDisjunct]

/-- Parts of a conjunction that need no flattening are its children. -/
theorem and_eq_allOf {children : List Query} (hmany : 2 ≤ children.length)
    (h : ∀ child ∈ children, child.isConjunct = true) : and children = .allOf children := by
  rw [Query.and, conjuncts_eq h]
  cases children with
  | nil => cases hmany
  | cons first rest =>
    cases rest with
    | nil => exact absurd hmany (by simp)
    | cons second rest => rfl

/-- Parts of a disjunction that need no flattening are its children. -/
theorem or_eq_anyOf {children : List Query} (hmany : 2 ≤ children.length)
    (h : ∀ child ∈ children, child.isDisjunct = true) : or children = .anyOf children := by
  rw [Query.or, disjuncts_eq h]
  cases children with
  | nil => cases hmany
  | cons first rest =>
    cases rest with
    | nil => exact absurd hmany (by simp)
    | cons second rest => rfl

theorem not_eq_negated {q : Query} (h : q.isNegatable = true) : not q = .negated q := by
  cases q <;> first | rfl | cases h

/-- A property of trees that conjunctions have with their parts. -/
structure Conjoins (P : Query → Prop) : Prop where
  everything : P .everything
  parts : ∀ children, P (.allOf children) → ∀ child ∈ children, P child ∧ child.isConjunct = true
  whole : ∀ children, 2 ≤ children.length → (∀ child ∈ children, child.isConjunct = true) →
    (∀ child ∈ children, P child) → P (.allOf children)

/-- A property of trees that disjunctions have with their parts. -/
structure Disjoins (P : Query → Prop) : Prop where
  nothing : P .nothing
  parts : ∀ children, P (.anyOf children) → ∀ child ∈ children, P child ∧ child.isDisjunct = true
  whole : ∀ children, 2 ≤ children.length → (∀ child ∈ children, child.isDisjunct = true) →
    (∀ child ∈ children, P child) → P (.anyOf children)

section Closure

variable {P : Query → Prop} {children : List Query}

theorem Conjoins.conjuncts (hP : Conjoins P) (h : ∀ child ∈ children, P child) :
    ∀ child ∈ conjuncts children, P child ∧ child.isConjunct = true := by
  fun_induction Query.conjuncts children with
  | case1 => simp
  | case2 nested rest ih =>
    simp only [List.mem_cons, forall_eq_or_imp] at h
    intro child hchild
    rcases List.mem_append.mp hchild with hchild | hchild
    · exact hP.parts nested h.1 child hchild
    · exact ih h.2 child hchild
  | case3 rest ih =>
    simp only [List.mem_cons, forall_eq_or_imp] at h
    exact ih h.2
  | case4 first rest hall heverything ih =>
    simp only [List.mem_cons, forall_eq_or_imp] at h ⊢
    refine ⟨⟨h.1, ?_⟩, ih h.2⟩
    cases first with
    | allOf nested => exact absurd rfl (hall nested)
    | everything => exact absurd rfl heverything
    | _ => rfl

theorem Disjoins.disjuncts (hP : Disjoins P) (h : ∀ child ∈ children, P child) :
    ∀ child ∈ disjuncts children, P child ∧ child.isDisjunct = true := by
  fun_induction Query.disjuncts children with
  | case1 => simp
  | case2 nested rest ih =>
    simp only [List.mem_cons, forall_eq_or_imp] at h
    intro child hchild
    rcases List.mem_append.mp hchild with hchild | hchild
    · exact hP.parts nested h.1 child hchild
    · exact ih h.2 child hchild
  | case3 rest ih =>
    simp only [List.mem_cons, forall_eq_or_imp] at h
    exact ih h.2
  | case4 first rest hany hnothing ih =>
    simp only [List.mem_cons, forall_eq_or_imp] at h ⊢
    refine ⟨⟨h.1, ?_⟩, ih h.2⟩
    cases first with
    | anyOf nested => exact absurd rfl (hany nested)
    | nothing => exact absurd rfl hnothing
    | _ => rfl

/-- The conjunction of trees with such a property has it too. -/
theorem Conjoins.and (hP : Conjoins P) (h : ∀ child ∈ children, P child) :
    P (Query.and children) := by
  have hconjuncts := hP.conjuncts h
  unfold Query.and
  split
  · exact hP.everything
  · rename_i only heq
    exact (hconjuncts only (by simp [heq])).1
  · rename_i hempty hone
    refine hP.whole _ ?_ (fun child hchild => (hconjuncts child hchild).2)
      fun child hchild => (hconjuncts child hchild).1
    match hcs : Query.conjuncts children with
    | [] => exact absurd hcs hempty
    | [only] => exact absurd hcs (hone only)
    | _ :: _ :: _ => simp

/-- The disjunction of trees with such a property has it too. -/
theorem Disjoins.or (hP : Disjoins P) (h : ∀ child ∈ children, P child) :
    P (Query.or children) := by
  have hdisjuncts := hP.disjuncts h
  unfold Query.or
  split
  · exact hP.nothing
  · rename_i only heq
    exact (hdisjuncts only (by simp [heq])).1
  · rename_i hempty hone
    refine hP.whole _ ?_ (fun child hchild => (hdisjuncts child hchild).2)
      fun child hchild => (hdisjuncts child hchild).1
    match hcs : Query.disjuncts children with
    | [] => exact absurd hcs hempty
    | [only] => exact absurd hcs (hone only)
    | _ :: _ :: _ => simp

end Closure

/-! ## Well-formed trees -/

/-- The tree tests single values of a field, or the identity of the object. -/
def TestsValues (schema : Schema) (good : Timestamp → Prop) (table : String) : Query → Prop
  | .comparison field _ value =>
    ∃ type several, schema.valueType? table field = some (type, several) ∧ value.Fits good type
  | .interval field range =>
    ∃ type several, schema.valueType? table field = some (type, several) ∧
      range.Bounds (Literal.Fits good type)
  | .objectId _ => True
  | _ => False

mutual

/-- The tree is well formed as a filter of a table. -/
def WellFormed (schema : Schema) (good : Timestamp → Prop) (table : String) : Query → Prop
  | .everything => True
  | .nothing => True
  | .allOf children => 2 ≤ children.length ∧ (∀ child ∈ children, child.isConjunct = true) ∧
      AllWellFormed schema good table children
  | .anyOf children => 2 ≤ children.length ∧ (∀ child ∈ children, child.isDisjunct = true) ∧
      AllWellFormed schema good table children
  | .negated inner => inner.isNegatable = true ∧ WellFormed schema good table inner
  | .comparison field _ value =>
    ∃ type, schema.valueType? table field = some (type, false) ∧ value.Fits good type
  | .interval field range =>
    ∃ type, schema.valueType? table field = some (type, false) ∧
      range.Bounds (Literal.Fits good type)
  | .multiValue quantifier inner => quantifier ≠ .count ∧ inner.TestsValues schema good table
  | .link quantifier name filter inner => quantifier ≠ .count ∧
      ∃ target, schema.LeadsTo table name target ∧ WellFormedIfAny schema good target filter ∧
        WellFormedIfAny schema good target inner
  | .transitiveLink name depth inner => schema.LeadsTo table name table ∧
      (∀ limit ∈ depth, limit < Text.bitBound 32) ∧ WellFormedIfAny schema good table inner
  | .linkId quantifier name _ => quantifier ≠ .count ∧ ∃ target, schema.LeadsTo table name target
  | .objectId _ => True
  | .linkCount name filter op count => op = .eq ∧ count < Text.bitBound 64 ∧
      ∃ target, schema.LeadsTo table name target ∧ WellFormedIfAny schema good target filter
  | .linkCountRange name filter range => range.Bounds (· < Text.bitBound 64) ∧
      ∃ target, schema.LeadsTo table name target ∧ WellFormedIfAny schema good target filter
  | .fieldCount field op count => op = .eq ∧ count < Text.bitBound 64 ∧
      (schema.valueType? table field).isSome = true
  | .fieldCountRange field range => range.Bounds (· < Text.bitBound 64) ∧
      (schema.valueType? table field).isSome = true
  | .pathCountRange path range => range.Bounds (· < Text.bitBound 64) ∧
      ∃ roles, schema.Along table path roles ∧ roles.any (·.kind.isLink) = true
  | .pathComparison _ left right =>
    (∃ roles, schema.Along table left roles) ∧ ∃ roles, schema.Along table right roles

/-- The trees are well formed as filters of a table. -/
def AllWellFormed (schema : Schema) (good : Timestamp → Prop) (table : String) :
    List Query → Prop
  | [] => True
  | child :: rest => WellFormed schema good table child ∧ AllWellFormed schema good table rest

/-- The tree is missing, or well formed as a filter of a table. -/
def WellFormedIfAny (schema : Schema) (good : Timestamp → Prop) (table : String) :
    Option Query → Prop
  | none => True
  | some inner => WellFormed schema good table inner

end

/-! ## Combinations -/

section Combinations

variable {schema : Schema} {good : Timestamp → Prop} {table : String}

theorem allWellFormed_iff {children : List Query} :
    AllWellFormed schema good table children ↔
      ∀ child ∈ children, WellFormed schema good table child := by
  induction children with
  | nil => simp [AllWellFormed]
  | cons child rest ih => simp [AllWellFormed, ih]

theorem wellFormed_conjoins : Conjoins (WellFormed schema good table) where
  everything := trivial
  parts _ h child hchild := ⟨allWellFormed_iff.mp h.2.2 child hchild, h.2.1 child hchild⟩
  whole _ hmany hparts h := ⟨hmany, hparts, allWellFormed_iff.mpr h⟩

theorem wellFormed_disjoins : Disjoins (WellFormed schema good table) where
  nothing := trivial
  parts _ h child hchild := ⟨allWellFormed_iff.mp h.2.2 child hchild, h.2.1 child hchild⟩
  whole _ hmany hparts h := ⟨hmany, hparts, allWellFormed_iff.mpr h⟩

theorem conjuncts_wellFormed {children : List Query}
    (h : ∀ child ∈ children, WellFormed schema good table child) :
    ∀ child ∈ conjuncts children,
      WellFormed schema good table child ∧ child.isConjunct = true :=
  wellFormed_conjoins.conjuncts h

theorem disjuncts_wellFormed {children : List Query}
    (h : ∀ child ∈ children, WellFormed schema good table child) :
    ∀ child ∈ disjuncts children,
      WellFormed schema good table child ∧ child.isDisjunct = true :=
  wellFormed_disjoins.disjuncts h

theorem WellFormed.and {children : List Query}
    (h : ∀ child ∈ children, WellFormed schema good table child) :
    WellFormed schema good table (and children) :=
  wellFormed_conjoins.and h

theorem WellFormed.or {children : List Query}
    (h : ∀ child ∈ children, WellFormed schema good table child) :
    WellFormed schema good table (or children) :=
  wellFormed_disjoins.or h

theorem WellFormed.not {q : Query} (h : WellFormed schema good table q) :
    WellFormed schema good table (not q) := by
  cases q with
  | everything => trivial
  | nothing => trivial
  | negated inner => exact h.2
  | _ => exact ⟨rfl, h⟩

theorem WellFormed.andAll {parts : List (Option Query)}
    (h : ∀ part ∈ parts, WellFormedIfAny schema good table part) :
    WellFormedIfAny schema good table (andAll parts) := by
  unfold Query.andAll
  split
  · trivial
  · refine WellFormed.and fun child hchild => ?_
    obtain ⟨part, hpart, hsome⟩ := List.mem_filterMap.mp hchild
    obtain rfl : part = some child := hsome
    exact h _ hpart

end Combinations

end Query

end LinkQuery
