import LinkQuery.Proofs.Numerals
import LinkQuery.Proofs.PathMeaning
/-!
# Types and normal form of compiled filters

A node of a filter is read against a table: the table of the filter at first, and the table that a
link leads to below a traversal or a count of that link. Read there, the names of every node of a
compiled filter mean what the node needs, its literals are of the type of their field, and no
connective is needless.

Main statements:
- `Query.WellFormed.sound`: every node of a well-formed tree is sound where it is read.
- `Compiler.filter_sound`: so is every node of a compiled filter.
-/
namespace LinkQuery

open Time (Timestamp)

/-! ## Literals -/

/-- The literal is a value of the type; binary values and system fields are compared as texts. -/
def Literal.IsOf : Option ScalarType → Literal → Prop
  | none, .text _ => True
  | some .text, .text _ => True
  | some .binary, .text _ => True
  | some .integer, .number value => value.isWhole = true
  | some .float, .number _ => True
  | some .boolean, .boolean _ => True
  | some .timestamp, .timestamp _ => True
  | _, _ => False

/-- What some value becomes for a type is of that type. -/
theorem Literal.Fits.isOf {good : Timestamp → Prop} {type : Option ScalarType} {value : Literal}
    (h : value.Fits good type) : value.IsOf type := by
  cases type with
  | none =>
    obtain ⟨text, rfl⟩ := h
    trivial
  | some type =>
    obtain ⟨raw, -, hraw⟩ := h
    cases type with
    | text | binary =>
      obtain rfl := Option.some.inj hraw
      trivial
    | integer =>
      obtain ⟨n, -, hn⟩ := Option.bind_eq_some_iff.mp hraw
      obtain ⟨-, hn⟩ := Option.ite_none_right_eq_some.mp hn
      obtain rfl := Option.some.inj hn
      exact (Decimal.whole_of_scale rfl).1
    | float | boolean | timestamp =>
      obtain ⟨_, -, rfl⟩ := Option.map_eq_some_iff.mp hraw
      trivial

theorem Schema.LeadsTo.unique {s : Schema} {table name target other : String}
    (h : s.LeadsTo table name target) (hother : s.LeadsTo table name other) : target = other :=
  Option.some.inj (h.2.symm.trans hother.2)

namespace Query

/-! ## Where nodes are read -/

/--
`Reads schema table q place node` says that `node` stands in `q`, and that it is read against
`place` when `q` is read against `table`.
-/
inductive Reads (schema : Schema) : String → Query → String → Query → Prop
  | here {table : String} (q : Query) : Reads schema table q table q
  | conjunct {table place : String} {children : List Query} {child node : Query}
    (hchild : child ∈ children) (h : Reads schema table child place node) :
    Reads schema table (.allOf children) place node
  | disjunct {table place : String} {children : List Query} {child node : Query}
    (hchild : child ∈ children) (h : Reads schema table child place node) :
    Reads schema table (.anyOf children) place node
  | negated {table place : String} {inner node : Query} (h : Reads schema table inner place node) :
    Reads schema table (.negated inner) place node
  | value {table place : String} {quantifier : Quantifier} {inner node : Query}
    (h : Reads schema table inner place node) :
    Reads schema table (.multiValue quantifier inner) place node
  | filter {table target place name : String} {quantifier : Quantifier} {filter node : Query}
    {inner : Option Query} (hlead : schema.LeadsTo table name target)
    (h : Reads schema target filter place node) :
    Reads schema table (.link quantifier name (some filter) inner) place node
  | behind {table target place name : String} {quantifier : Quantifier} {filter : Option Query}
    {inner node : Query} (hlead : schema.LeadsTo table name target)
    (h : Reads schema target inner place node) :
    Reads schema table (.link quantifier name filter (some inner)) place node
  | repeated {table target place name : String} {depth : Option Nat} {inner node : Query}
    (hlead : schema.LeadsTo table name target) (h : Reads schema target inner place node) :
    Reads schema table (.transitiveLink name depth (some inner)) place node
  | counted {table target place name : String} {op : CompareOp} {count : Nat} {filter node : Query}
    (hlead : schema.LeadsTo table name target) (h : Reads schema target filter place node) :
    Reads schema table (.linkCount name (some filter) op count) place node
  | countedWithin {table target place name : String} {range : Interval Nat} {filter node : Query}
    (hlead : schema.LeadsTo table name target) (h : Reads schema target filter place node) :
    Reads schema table (.linkCountRange name (some filter) range) place node

/-! ## Sound nodes -/

/-- The field holds values of the type, several of them perhaps; system fields have no type. -/
def HoldsValues (schema : Schema) (table field : String) (type : Option ScalarType) : Prop :=
  ∃ several, schema.valueType? table field = some (type, several)

/--
The names of the node itself mean what it needs when it is read against the table, its literals are
of the type of their field, and it is needed.
-/
def Sound (schema : Schema) (table : String) : Query → Prop
  | .everything => True
  | .nothing => True
  | .allOf children => 2 ≤ children.length ∧
      ∀ child ∈ children, child ≠ .everything ∧ ∀ nested, child ≠ .allOf nested
  | .anyOf children => 2 ≤ children.length ∧
      ∀ child ∈ children, child ≠ .nothing ∧ ∀ nested, child ≠ .anyOf nested
  | .negated inner => inner ≠ .everything ∧ inner ≠ .nothing ∧ ∀ nested, inner ≠ .negated nested
  | .comparison field _ value => ∃ type, HoldsValues schema table field type ∧ value.IsOf type
  | .interval field range =>
    ∃ type, HoldsValues schema table field type ∧ range.Bounds (Literal.IsOf type)
  | .multiValue quantifier _ => quantifier ≠ .count
  | .link quantifier name _ _ => quantifier ≠ .count ∧ ∃ target, schema.LeadsTo table name target
  | .transitiveLink name _ _ => schema.LeadsTo table name table
  | .linkId quantifier name _ => quantifier ≠ .count ∧ ∃ target, schema.LeadsTo table name target
  | .objectId _ => True
  | .linkCount name _ _ _ => ∃ target, schema.LeadsTo table name target
  | .linkCountRange name _ _ => ∃ target, schema.LeadsTo table name target
  | .fieldCount field _ _ => ∃ type, HoldsValues schema table field type
  | .fieldCountRange field _ => ∃ type, HoldsValues schema table field type
  | .pathCountRange path _ => ∃ roles, schema.Along table path roles
  | .pathComparison _ left right =>
    (∃ roles, schema.Along table left roles) ∧ ∃ roles, schema.Along table right roles

variable {schema : Schema} {good : Timestamp → Prop} {table place : String} {q node : Query}

theorem isConjunct_iff : q.isConjunct = true ↔ q ≠ .everything ∧ ∀ nested, q ≠ .allOf nested := by
  cases q <;> simp [isConjunct]

theorem isDisjunct_iff : q.isDisjunct = true ↔ q ≠ .nothing ∧ ∀ nested, q ≠ .anyOf nested := by
  cases q <;> simp [isDisjunct]

theorem isNegatable_iff : q.isNegatable = true ↔
    q ≠ .everything ∧ q ≠ .nothing ∧ ∀ nested, q ≠ .negated nested := by
  cases q <;> simp [isNegatable]

theorem holdsValues_of_valueType {field : String}
    (h : (schema.valueType? table field).isSome = true) :
    ∃ type, HoldsValues schema table field type := by
  obtain ⟨⟨type, several⟩, hvalue⟩ := Option.isSome_iff_exists.mp h
  exact ⟨type, several, hvalue⟩

/-- A test of single values is sound. -/
theorem TestsValues.sound (h : q.TestsValues schema good table) : q.Sound schema table := by
  cases q with
  | comparison field op value =>
    obtain ⟨type, several, hvalue, hfits⟩ := h
    exact ⟨type, ⟨several, hvalue⟩, hfits.isOf⟩
  | interval field range =>
    obtain ⟨type, several, hvalue, hfits⟩ := h
    exact ⟨type, ⟨several, hvalue⟩, hfits.mono fun _ hbound => hbound.isOf⟩
  | objectId id => trivial
  | _ => exact h.elim

/-- The root of a well-formed tree is sound. -/
theorem WellFormed.sound_root (h : q.WellFormed schema good table) : q.Sound schema table := by
  cases q with
  | everything | nothing | objectId id => trivial
  | allOf children => exact ⟨h.1, fun child hchild => isConjunct_iff.mp (h.2.1 child hchild)⟩
  | anyOf children => exact ⟨h.1, fun child hchild => isDisjunct_iff.mp (h.2.1 child hchild)⟩
  | negated inner => exact isNegatable_iff.mp h.1
  | comparison field op value =>
    obtain ⟨type, hvalue, hfits⟩ := h
    exact ⟨type, ⟨false, hvalue⟩, hfits.isOf⟩
  | interval field range =>
    obtain ⟨type, hvalue, hfits⟩ := h
    exact ⟨type, ⟨false, hvalue⟩, hfits.mono fun _ hbound => hbound.isOf⟩
  | multiValue quantifier inner => exact h.1
  | link quantifier name filter inner =>
    obtain ⟨hquantifier, target, hlead, -⟩ := h
    exact ⟨hquantifier, target, hlead⟩
  | transitiveLink name depth inner => exact h.1
  | linkId quantifier name id => exact h
  | linkCount name filter op count =>
    obtain ⟨-, -, target, hlead, -⟩ := h
    exact ⟨target, hlead⟩
  | linkCountRange name filter range =>
    obtain ⟨-, target, hlead, -⟩ := h
    exact ⟨target, hlead⟩
  | fieldCount field op count => exact holdsValues_of_valueType h.2.2
  | fieldCountRange field range => exact holdsValues_of_valueType h.2
  | pathCountRange path range =>
    obtain ⟨-, roles, halong, -⟩ := h
    exact ⟨roles, halong⟩
  | pathComparison op left right => exact h

/-- A test of single values is its only node. -/
theorem TestsValues.reads_sound (h : q.TestsValues schema good table)
    (hread : Reads schema table q place node) : node.Sound schema place := by
  cases hread with
  | here => exact h.sound
  | _ => exact h.elim

/-- Every node of a well-formed tree is sound where it is read. -/
theorem WellFormed.sound (h : q.WellFormed schema good table)
    (hread : Reads schema table q place node) : node.Sound schema place := by
  induction hread with
  | here q => exact h.sound_root
  | conjunct hchild _ ih => exact ih (allWellFormed_iff.mp h.2.2 _ hchild)
  | disjunct hchild _ ih => exact ih (allWellFormed_iff.mp h.2.2 _ hchild)
  | negated _ ih => exact ih h.2
  | value hread _ => exact h.2.reads_sound hread
  | filter hlead _ ih =>
    obtain ⟨-, target, htarget, hfilter, -⟩ := h
    obtain rfl := hlead.unique htarget
    exact ih hfilter
  | behind hlead _ ih =>
    obtain ⟨-, target, htarget, -, hinner⟩ := h
    obtain rfl := hlead.unique htarget
    exact ih hinner
  | repeated hlead _ ih =>
    obtain ⟨htarget, -, hinner⟩ := h
    obtain rfl := hlead.unique htarget
    exact ih hinner
  | counted hlead _ ih =>
    obtain ⟨-, -, target, htarget, hfilter⟩ := h
    obtain rfl := hlead.unique htarget
    exact ih hfilter
  | countedWithin hlead _ ih =>
    obtain ⟨-, target, htarget, hfilter⟩ := h
    obtain rfl := hlead.unique htarget
    exact ih hfilter

end Query

namespace Compiler

/--
Every node of a compiled filter is sound against the table that it is read against, which is the
table of the filter at its root.
-/
theorem filter_sound {c : Compiler} {table input place : String} {q node : Query}
    (h : c.filter table input = .ok (some q)) (hread : q.Reads c.schema table place node) :
    node.Sound c.schema place :=
  (filter_wellFormed (fun scope _ => scope.clock.shows_any) h).sound hread

/-- The tree is the opposite of a boss whose name is Ann. -/
def isNoBossAnn (q : Query) : Bool :=
  match q with
  | .negated (.link .any "Boss" none (some (.comparison "Name" .eq (.text "Ann")))) => true
  | _ => false

/-- The condition on a boss is read against persons, whose names are texts. -/
theorem filter_sound_boss : ∃ q, staff.filter "Person" "NOT Boss.Name = 'Ann'" = .ok (some q) ∧
    q.Reads staff.schema "Person" "Person" (.comparison "Name" .eq (.text "Ann")) ∧
    Query.Sound staff.schema "Person" (.comparison "Name" .eq (.text "Ann")) := by
  have hrun : (staff.filter "Person" "NOT Boss.Name = 'Ann'").toOption.bind
      (·.map isNoBossAnn) = some true := by decide +kernel
  obtain ⟨found, hcompile, hrun⟩ := Option.bind_eq_some_iff.mp hrun
  obtain ⟨q, rfl, hshape⟩ := Option.map_eq_some_iff.mp hrun
  have hcompile := toOption_eq_some hcompile
  obtain rfl : q = .negated (.link .any "Boss" none
      (some (.comparison "Name" .eq (.text "Ann")))) := by
    unfold isNoBossAnn at hshape
    split at hshape
    · rfl
    · cases hshape
  have hlead : staff.schema.LeadsTo "Person" "Boss" "Person" := ⟨by decide, by decide⟩
  exact ⟨_, hcompile, .negated (.behind hlead (.here _)),
    filter_sound hcompile (.negated (.behind hlead (.here _)))⟩

end Compiler

end LinkQuery
