import LinkQuery.Proofs.Combining
import LinkQuery.Proofs.PrintedTerms
import LinkQuery.Proofs.Settling
/-!
# Printed filters

The text of a compiled filter is a filter again. It shows neither the quantifier of a link without
a condition nor that a test of an identity is one; the first is lost, the second is found again
when the tree is settled.

Main statements:
- `Query.WellFormed.promote_reread`: what the text of a tree says settles to the tree.
- `Query.WellFormed.prints`: the text of a tree says it.
- `Compiler.printed_filter_compiles_back`: the text of a compiled filter compiles to the filter.
- `Compiler.printed_filter_selects_alike`: the text of a compiled filter selects the same objects.
-/
namespace LinkQuery

open Time (Timestamp)
open Rule (IsWord)

/-- Every field of every table is named by a word of the filter language. -/
def Schema.HasWordNames (s : Schema) : Prop :=
  ∀ table name, (s.field? table name).isSome = true → IsWord name

/-- Fields are named by words if the declared names are words. -/
theorem Schema.hasWordNames_of_tables {s : Schema}
    (h : ∀ fields ∈ s.tables.values, ∀ name ∈ fields.fields.names, IsWord name) :
    s.HasWordNames := by
  intro table name hfield
  obtain ⟨field, hfield⟩ := Option.isSome_iff_exists.mp hfield
  obtain ⟨fields, htable, hfield⟩ := Option.bind_eq_some_iff.mp hfield
  exact h fields (NameMap.mem_of_find? htable).2 name (NameMap.mem_of_find? hfield).1

namespace Query

/-! ## What the text of a tree says -/

/-- The quantifier that the text of a link shows: without a condition it shows none. -/
def shownQuantifier (quantifier : Quantifier) (inner : Option Query) : Quantifier :=
  if inner.isSome then quantifier else .any

mutual

/-- The tree without the quantifiers of links that have no condition. -/
def plain : Query → Query
  | .allOf children => .allOf (plainAll children)
  | .anyOf children => .anyOf (plainAll children)
  | .negated inner => .negated (plain inner)
  | .link quantifier name filter inner =>
    .link (shownQuantifier quantifier inner) name (plainIfAny filter) (plainIfAny inner)
  | .transitiveLink name depth inner => .transitiveLink name depth (plainIfAny inner)
  | .linkCount name filter op count => .linkCount name (plainIfAny filter) op count
  | .linkCountRange name filter range => .linkCountRange name (plainIfAny filter) range
  | other => other

/-- Several trees without the quantifiers of links that have no condition. -/
def plainAll : List Query → List Query
  | [] => []
  | child :: rest => plain child :: plainAll rest

/-- A tree that may be missing without the quantifiers of links that have no condition. -/
def plainIfAny : Option Query → Option Query
  | none => none
  | some inner => some (plain inner)

end

mutual

/-- The tree that its text says: tests of the identity of an object are comparisons. -/
def reread : Query → Query
  | .allOf children => .allOf (rereadAll children)
  | .anyOf children => .anyOf (rereadAll children)
  | .negated inner => .negated (reread inner)
  | .link quantifier name filter inner =>
    .link (shownQuantifier quantifier inner) name (rereadIfAny filter) (rereadIfAny inner)
  | .transitiveLink name depth inner => .transitiveLink name depth (rereadIfAny inner)
  | .objectId id => .comparison "_ID" .eq (.text id)
  | .linkCount name filter op count => .linkCount name (rereadIfAny filter) op count
  | .linkCountRange name filter range => .linkCountRange name (rereadIfAny filter) range
  | other => other

/-- The trees that the texts of several trees say. -/
def rereadAll : List Query → List Query
  | [] => []
  | child :: rest => reread child :: rereadAll rest

/-- The tree that the text of a tree says, if there is one. -/
def rereadIfAny : Option Query → Option Query
  | none => none
  | some inner => some (reread inner)

end

theorem plainAll_eq_map (children : List Query) : plainAll children = children.map plain := by
  induction children with
  | nil => rw [plainAll, List.map_nil]
  | cons child rest ih => rw [plainAll, List.map_cons, ih]

theorem rereadAll_eq_map (children : List Query) : rereadAll children = children.map reread := by
  induction children with
  | nil => rw [rereadAll, List.map_nil]
  | cons child rest ih => rw [rereadAll, List.map_cons, ih]

@[simp]
theorem isConjunct_plain (q : Query) : q.plain.isConjunct = q.isConjunct := by
  cases q <;> simp [plain, isConjunct]

@[simp]
theorem isDisjunct_plain (q : Query) : q.plain.isDisjunct = q.isDisjunct := by
  cases q <;> simp [plain, isDisjunct]

@[simp]
theorem isNegatable_plain (q : Query) : q.plain.isNegatable = q.isNegatable := by
  cases q <;> simp [plain, isNegatable]

@[simp]
theorem isConjunct_reread (q : Query) : q.reread.isConjunct = q.isConjunct := by
  cases q <;> simp [reread, isConjunct]

@[simp]
theorem isDisjunct_reread (q : Query) : q.reread.isDisjunct = q.isDisjunct := by
  cases q <;> simp [reread, isDisjunct]

@[simp]
theorem isNegatable_reread (q : Query) : q.reread.isNegatable = q.isNegatable := by
  cases q <;> simp [reread, isNegatable]

/-! ## Identity tests -/

/-- The fields of comparisons that promotion takes for tests of the identity of the object. -/
def ownIdentities : Query → List String
  | .comparison field op _ =>
    if Schema.isSystemField field && (op == .eq || op == .contains) then [field] else []
  | _ => []

/-- The fields in a tree that are compared as identities. -/
def identities (q : Query) : List String :=
  q.nodes.flatMap ownIdentities

theorem identities_and (children : List Query) :
    (and children).identities = children.flatMap identities := by
  have hread : [and children].flatMap identities = children.flatMap identities :=
    and_combines.same (nodes_readable_and ownIdentities rfl fun _ => rfl) children
  simpa using hread

theorem identities_or (children : List Query) :
    (or children).identities = children.flatMap identities := by
  have hread : [or children].flatMap identities = children.flatMap identities :=
    or_combines.same (nodes_readable_or ownIdentities rfl fun _ => rfl) children
  simpa using hread

theorem identities_not (q : Query) : (not q).identities = q.identities := by
  cases q <;> simp [not, identities, nodes, ownIdentities]

/-- The fields that are compared as identities in a tree that may be missing. -/
def identitiesIfAny (q : Option Query) : List String :=
  q.toList.flatMap identities

theorem nodesIfAny_identities (q : Option Query) :
    (nodesIfAny q).flatMap ownIdentities = identitiesIfAny q :=
  nodesIfAny_flatMap ownIdentities q

section Promoted

variable {schema : Schema}

/-- A promoted comparison is no test of an identity any more. -/
theorem promoteComparison_identities {table field : String} {op : CompareOp} {value : Literal} :
    Yields (fun q => q.identities = []) (promoteComparison schema table field op value) := by
  unfold promoteComparison
  split
  · cases op <;> simp [objectIdentity, identities, nodes, ownIdentities]
  rename_i hsystem
  split
  · exact (requireEquality_yields op field).bind fun _ _ => rfl
  · exact (requireEquality_yields op field).bind fun _ _ => rfl
  · refine (requireEquality_yields op field).bind fun _ _ => ?_
    unfold groupIdentity
    split
    · trivial
    · rw [yields_ok, identities_or]
      simp [identities, nodes, ownIdentities]
  · simp [identities, nodes, ownIdentities, hsystem]

mutual

/-- No comparison of a promoted tree is a test of an identity. -/
theorem promote_identities (table : String) : ∀ q : Query,
    Yields (fun q => q.identities = []) (promote schema table q)
  | .allOf children => by
    rw [promote]
    refine (promoteAll_identities table children).bind fun qs hqs => ?_
    show (and qs).identities = []
    rw [identities_and, hqs]
  | .anyOf children => by
    rw [promote]
    refine (promoteAll_identities table children).bind fun qs hqs => ?_
    show (or qs).identities = []
    rw [identities_or, hqs]
  | .negated inner => by
    rw [promote]
    refine (promote_identities table inner).bind fun q hq => ?_
    show (not q).identities = []
    rw [identities_not, hq]
  | .multiValue quantifier inner => by
    rw [promote]
    exact (promote_identities table inner).bind fun q hq => hq
  | .comparison field op value => by
    rw [promote]
    exact promoteComparison_identities
  | .link quantifier name filter inner => by
    rw [promote]
    refine (traversalTarget_yields table name).bind fun target _ =>
      (promoteIfAny_identities target filter).bind fun f hf =>
        (promoteIfAny_identities target inner).bind fun i hi => ?_
    show (nodes (.link quantifier name f i)).flatMap ownIdentities = []
    simp [nodes, ownIdentities, nodesIfAny_identities, hf, hi]
  | .transitiveLink name depth inner => by
    rw [promote]
    refine (traversalTarget_yields table name).bind fun target _ =>
      (promoteIfAny_identities target inner).bind fun i hi => ?_
    show (nodes (.transitiveLink name depth i)).flatMap ownIdentities = []
    simp [nodes, ownIdentities, nodesIfAny_identities, hi]
  | .linkId quantifier name id => by
    rw [promote]
    exact (traversalTarget_yields table name).bind fun _ _ => rfl
  | .linkCount name filter op count => by
    rw [promote]
    refine (traversalTarget_yields table name).bind fun target _ =>
      (promoteIfAny_identities target filter).bind fun f hf => ?_
    show (nodes (.linkCount name f op count)).flatMap ownIdentities = []
    simp [nodes, ownIdentities, nodesIfAny_identities, hf]
  | .linkCountRange name filter range => by
    rw [promote]
    refine (traversalTarget_yields table name).bind fun target _ =>
      (promoteIfAny_identities target filter).bind fun f hf => ?_
    show (nodes (.linkCountRange name f range)).flatMap ownIdentities = []
    simp [nodes, ownIdentities, nodesIfAny_identities, hf]
  | .everything | .nothing | .interval _ _ | .objectId _ | .fieldCount _ _ _ | .fieldCountRange _ _
  | .pathCountRange _ _ | .pathComparison _ _ _ => by
    unfold promote
    rfl

theorem promoteAll_identities (table : String) : ∀ children : List Query,
    Yields (fun qs => qs.flatMap identities = []) (promoteAll schema table children)
  | [] => by
    rw [promoteAll]
    rfl
  | child :: rest => by
    rw [promoteAll]
    refine (promote_identities table child).bind fun q hq =>
      (promoteAll_identities table rest).bind fun qs hqs => ?_
    show (q :: qs).flatMap identities = []
    rw [List.flatMap_cons, hq, hqs]
    rfl

theorem promoteIfAny_identities (table : String) : ∀ inner : Option Query,
    Yields (fun q => identitiesIfAny q = []) (promoteIfAny schema table inner)
  | none => by
    rw [promoteIfAny]
    rfl
  | some inner => by
    rw [promoteIfAny]
    refine (promote_identities table inner).map fun q hq => ?_
    simpa [identitiesIfAny] using hq

end

end Promoted

/-! ## Properties of all nodes -/

section Every

variable {P : Query → Prop}

/-- Every node of the tree has the property. -/
def Every (P : Query → Prop) (q : Query) : Prop :=
  ∀ node ∈ q.nodes, P node

/-- Every node of the trees has the property. -/
def EveryOfAll (P : Query → Prop) (children : List Query) : Prop :=
  ∀ child ∈ children, child.Every P

/-- Every node of the tree has the property, if there is a tree. -/
def EveryIfAny (P : Query → Prop) (q : Option Query) : Prop :=
  ∀ inner ∈ q, inner.Every P

theorem Every.root {q : Query} (h : q.Every P) : P q :=
  h q (by cases q <;> simp [nodes])

theorem mem_nodesOfAll {node : Query} {children : List Query} :
    node ∈ nodesOfAll children ↔ ∃ child ∈ children, node ∈ child.nodes := by
  induction children with
  | nil => simp [nodesOfAll]
  | cons child rest ih => simp [nodesOfAll, ih]

theorem mem_nodesIfAny {node : Query} {q : Option Query} :
    node ∈ nodesIfAny q ↔ ∃ inner ∈ q, node ∈ inner.nodes := by
  cases q <;> simp [nodesIfAny]

theorem Every.allOf {children : List Query} (h : (Query.allOf children).Every P) :
    EveryOfAll P children := fun child hchild node hnode =>
  h node (by simpa [nodes, mem_nodesOfAll] using Or.inr ⟨child, hchild, hnode⟩)

theorem Every.anyOf {children : List Query} (h : (Query.anyOf children).Every P) :
    EveryOfAll P children := fun child hchild node hnode =>
  h node (by simpa [nodes, mem_nodesOfAll] using Or.inr ⟨child, hchild, hnode⟩)

theorem Every.negated {inner : Query} (h : (Query.negated inner).Every P) : inner.Every P :=
  fun node hnode => h node (by simp [nodes, hnode])

theorem Every.multiValue {quantifier : Quantifier} {inner : Query}
    (h : (Query.multiValue quantifier inner).Every P) : inner.Every P :=
  fun node hnode => h node (by simp [nodes, hnode])

theorem Every.link {quantifier : Quantifier} {name : String} {filter inner : Option Query}
    (h : (Query.link quantifier name filter inner).Every P) :
    EveryIfAny P filter ∧ EveryIfAny P inner := by
  simp only [Every, nodes, List.mem_cons, List.mem_append, mem_nodesIfAny] at h
  exact ⟨fun q hq node hnode => h node (.inr (.inl ⟨q, hq, hnode⟩)),
    fun q hq node hnode => h node (.inr (.inr ⟨q, hq, hnode⟩))⟩

theorem Every.transitiveLink {name : String} {depth : Option Nat} {inner : Option Query}
    (h : (Query.transitiveLink name depth inner).Every P) : EveryIfAny P inner := by
  simp only [Every, nodes, List.mem_cons, mem_nodesIfAny] at h
  exact fun q hq node hnode => h node (.inr ⟨q, hq, hnode⟩)

theorem Every.linkCount {name : String} {filter : Option Query} {op : CompareOp} {count : Nat}
    (h : (Query.linkCount name filter op count).Every P) : EveryIfAny P filter := by
  simp only [Every, nodes, List.mem_cons, mem_nodesIfAny] at h
  exact fun q hq node hnode => h node (.inr ⟨q, hq, hnode⟩)

theorem Every.linkCountRange {name : String} {filter : Option Query} {range : Interval Nat}
    (h : (Query.linkCountRange name filter range).Every P) : EveryIfAny P filter := by
  simp only [Every, nodes, List.mem_cons, mem_nodesIfAny] at h
  exact fun q hq node hnode => h node (.inr ⟨q, hq, hnode⟩)

theorem EveryOfAll.head {child : Query} {rest : List Query} (h : EveryOfAll P (child :: rest)) :
    child.Every P ∧ EveryOfAll P rest := List.forall_mem_cons.mp h

end Every

/-! ## Trees that are read again -/

section Reread

variable {schema : Schema} {good : Timestamp → Prop}

/-- The node compares no identity. -/
def ComparesNoIdentity (node : Query) : Prop :=
  ownIdentities node = []

theorem every_comparesNoIdentity {q : Query} :
    q.Every ComparesNoIdentity ↔ q.identities = [] :=
  List.flatMap_eq_nil_iff.symm

/-- A comparison with anything but an identity is promoted to itself. -/
theorem promote_comparison_self {table field : String} {op : CompareOp} {value : Literal}
    {type : Option ScalarType} {several : Bool}
    (hvalue : schema.valueType? table field = some (type, several))
    (hidentity : ComparesNoIdentity (.comparison field op value)) :
    promote schema table (.comparison field op value) = .ok (.comparison field op value) := by
  cases type with
  | some type => exact promote_comparison hvalue
  | none =>
    have hsystem := Schema.isSystemField_of_valueType hvalue
    rw [promote_identity hvalue]
    simp only [ComparesNoIdentity, ownIdentities, hsystem, Bool.true_and] at hidentity
    cases op <;> first | rfl | cases hidentity

/-- A test of single values that compares no identity is promoted to itself. -/
theorem TestsValues.promote_self {table : String} {q : Query} (h : q.TestsValues schema good table)
    (hidentity : ComparesNoIdentity q) : promote schema table q = .ok q := by
  cases q with
  | comparison field op value =>
    obtain ⟨type, several, hvalue, -⟩ := h
    exact promote_comparison_self hvalue hidentity
  | interval field range | objectId id => rw [promote] <;> exact nofun
  | _ => exact h.elim

mutual

/-- What the text of a promoted tree says is promoted to the tree again. -/
theorem WellFormed.promote_reread {table : String} : ∀ {q : Query},
    q.WellFormed schema good table → q.Every ComparesNoIdentity →
    promote schema table q.reread = .ok q.plain
  | .allOf children, h, hid => by
    have hplain := @and_eq_allOf (plainAll children) (by simpa [plainAll_eq_map] using h.1)
      (by simpa [plainAll_eq_map] using h.2.1)
    rw [reread, plain, promote, AllWellFormed.promote_reread h.2.2 hid.allOf]
    exact congrArg Except.ok hplain
  | .anyOf children, h, hid => by
    have hplain := @or_eq_anyOf (plainAll children) (by simpa [plainAll_eq_map] using h.1)
      (by simpa [plainAll_eq_map] using h.2.1)
    rw [reread, plain, promote, AllWellFormed.promote_reread h.2.2 hid.anyOf]
    exact congrArg Except.ok hplain
  | .negated inner, h, hid => by
    rw [reread, plain, promote, WellFormed.promote_reread h.2 hid.negated]
    exact congrArg Except.ok (not_eq_negated (by simpa using h.1))
  | .comparison field op value, ⟨type, hvalue, _⟩, hid => by
    rw [reread, plain]
    · exact promote_comparison_self hvalue hid.root
    all_goals exact nofun
  | .objectId id, _, _ => by
    rw [reread, plain, promote, promoteComparison]
    · rfl
    all_goals exact nofun
  | .multiValue quantifier inner, h, hid => by
    rw [reread, plain, promote, h.2.promote_self hid.multiValue.root]
    · rfl
    all_goals exact nofun
  | .link quantifier name filter inner, ⟨_, target, hlead, hfilter, hinner⟩, hid => by
    rw [reread, plain, promote, traversalTarget_of_leadsTo hlead]
    show (promoteIfAny schema target (rereadIfAny filter) >>= _) = _
    rw [WellFormedIfAny.promote_reread hfilter hid.link.1]
    show (promoteIfAny schema target (rereadIfAny inner) >>= _) = _
    rw [WellFormedIfAny.promote_reread hinner hid.link.2]
    rfl
  | .transitiveLink name depth inner, ⟨hlead, _, hinner⟩, hid => by
    rw [reread, plain, promote, traversalTarget_of_leadsTo hlead]
    show (promoteIfAny schema table (rereadIfAny inner) >>= _) = _
    rw [WellFormedIfAny.promote_reread hinner hid.transitiveLink]
    rfl
  | .linkId quantifier name id, h, _ => by
    obtain ⟨target, hlead⟩ := h.2
    rw [reread, plain, promote, traversalTarget_of_leadsTo hlead]
    · rfl
    all_goals exact nofun
  | .linkCount name filter op count, ⟨_, _, target, hlead, hfilter⟩, hid => by
    rw [reread, plain, promote, traversalTarget_of_leadsTo hlead]
    show (promoteIfAny schema target (rereadIfAny filter) >>= _) = _
    rw [WellFormedIfAny.promote_reread hfilter hid.linkCount]
    rfl
  | .linkCountRange name filter range, ⟨_, target, hlead, hfilter⟩, hid => by
    rw [reread, plain, promote, traversalTarget_of_leadsTo hlead]
    show (promoteIfAny schema target (rereadIfAny filter) >>= _) = _
    rw [WellFormedIfAny.promote_reread hfilter hid.linkCountRange]
    rfl
  | .everything, _, _ | .nothing, _, _ | .interval _ _, _, _ | .fieldCount _ _ _, _, _
  | .fieldCountRange _ _, _, _ | .pathCountRange _ _, _, _ | .pathComparison _ _ _, _, _ => by
    unfold promote reread plain
    rfl

theorem AllWellFormed.promote_reread {table : String} : ∀ {children : List Query},
    AllWellFormed schema good table children → EveryOfAll ComparesNoIdentity children →
    promoteAll schema table (rereadAll children) = .ok (plainAll children)
  | [], _, _ => by
    rw [rereadAll, plainAll, promoteAll]
  | child :: rest, h, hid => by
    rw [rereadAll, plainAll, promoteAll, WellFormed.promote_reread h.1 hid.head.1]
    show (promoteAll schema table (rereadAll rest) >>= _) = _
    rw [AllWellFormed.promote_reread h.2 hid.head.2]
    rfl

theorem WellFormedIfAny.promote_reread {table : String} : ∀ {inner : Option Query},
    WellFormedIfAny schema good table inner → EveryIfAny ComparesNoIdentity inner →
    promoteIfAny schema table (rereadIfAny inner) = .ok (plainIfAny inner)
  | none, _, _ => by
    rw [rereadIfAny, plainIfAny, promoteIfAny]
  | some inner, h, hid => by
    rw [rereadIfAny, plainIfAny, promoteIfAny, WellFormed.promote_reread h (hid inner rfl)]
    rfl

end

end Reread

/-! ## Trees without the quantifiers that are not shown -/

/-- The node is no link without a condition that carries another quantifier than the given ones. -/
def ExistsWith (allowed : List Quantifier) : Query → Prop
  | .link quantifier _ _ none => quantifier ∈ allowed
  | _ => True

mutual

/-- Nothing is lost from a tree whose links without a condition ask for some object. -/
theorem Every.plain_eq : ∀ {q : Query}, q.Every (ExistsWith [.any]) → q.plain = q
  | .allOf children, h => by rw [plain, EveryOfAll.plainAll_eq h.allOf]
  | .anyOf children, h => by rw [plain, EveryOfAll.plainAll_eq h.anyOf]
  | .negated inner, h => by rw [plain, Every.plain_eq h.negated]
  | .link quantifier name filter none, h => by
    obtain rfl := List.mem_singleton.mp h.root
    rw [plain, EveryIfAny.plainIfAny_eq h.link.1]
    rfl
  | .link quantifier name filter (some inner), h => by
    rw [plain, EveryIfAny.plainIfAny_eq h.link.1, EveryIfAny.plainIfAny_eq h.link.2]
    rfl
  | .transitiveLink name depth inner, h => by
    rw [plain, EveryIfAny.plainIfAny_eq h.transitiveLink]
  | .linkCount name filter op count, h => by rw [plain, EveryIfAny.plainIfAny_eq h.linkCount]
  | .linkCountRange name filter range, h => by
    rw [plain, EveryIfAny.plainIfAny_eq h.linkCountRange]
  | .everything, _ | .nothing, _ | .comparison _ _ _, _ | .interval _ _, _ | .multiValue _ _, _
  | .linkId _ _ _, _ | .objectId _, _ | .fieldCount _ _ _, _ | .fieldCountRange _ _, _
  | .pathCountRange _ _, _ | .pathComparison _ _ _, _ => by
    rw [plain] <;> exact nofun

theorem EveryOfAll.plainAll_eq : ∀ {children : List Query},
    EveryOfAll (ExistsWith [.any]) children → plainAll children = children
  | [], _ => by rw [plainAll]
  | child :: rest, h => by rw [plainAll, Every.plain_eq h.head.1, EveryOfAll.plainAll_eq h.head.2]

theorem EveryIfAny.plainIfAny_eq : ∀ {q : Option Query},
    EveryIfAny (ExistsWith [.any]) q → plainIfAny q = q
  | none, _ => by rw [plainIfAny]
  | some inner, h => by rw [plainIfAny, Every.plain_eq (h inner rfl)]

end

mutual

/-- A tree uses the same names without these quantifiers. -/
theorem names_plain : ∀ q : Query, q.plain.names = q.names
  | .allOf children => by rw [plain, names_allOf, names_allOf, namesOfAll_plain]
  | .anyOf children => by rw [plain, names_anyOf, names_anyOf, namesOfAll_plain]
  | .negated inner => by rw [plain, names_negated, names_negated, names_plain]
  | .link quantifier name filter inner => by
    rw [plain, names_link, names_link, namesIfAny_plain, namesIfAny_plain]
  | .transitiveLink name depth inner => by
    rw [plain, names_transitiveLink, names_transitiveLink, namesIfAny_plain]
  | .linkCount name filter op count => by
    rw [plain, names_linkCount, names_linkCount, namesIfAny_plain]
  | .linkCountRange name filter range => by
    rw [plain, names_linkCountRange, names_linkCountRange, namesIfAny_plain]
  | .everything | .nothing | .comparison _ _ _ | .interval _ _ | .multiValue _ _ | .linkId _ _ _
  | .objectId _ | .fieldCount _ _ _ | .fieldCountRange _ _ | .pathCountRange _ _
  | .pathComparison _ _ _ => by
    rw [plain] <;> exact nofun

theorem namesOfAll_plain : ∀ children : List Query,
    (plainAll children).flatMap names = children.flatMap names
  | [] => by rw [plainAll]
  | child :: rest => by
    rw [plainAll, List.flatMap_cons, List.flatMap_cons, names_plain child, namesOfAll_plain rest]

theorem namesIfAny_plain : ∀ q : Option Query, namesIfAny (plainIfAny q) = namesIfAny q
  | none => by rw [plainIfAny]
  | some inner => by
    have hinner := names_plain inner
    simpa [plainIfAny, namesIfAny] using hinner

end

end Query

/-! ## Texts of trees -/

namespace Query

open Filter (Level Prints PrintsIfAny)

variable {scope : Filter.Scope} {table : String} {q raw : Query} {text : List Char}

/-- The level of a filter that the text of a tree stands for. -/
def level : Query → Level
  | .allOf _ => .conjunction
  | .anyOf _ => .disjunction
  | _ => .unary

/-- Literals of the node can be written, and what is tested in a quantifier is a value. -/
def IsWritten : Query → Prop
  | .comparison _ _ value => value.InFourDigits
  | .interval _ range => range.Bounds Literal.InFourDigits
  | .multiValue _ (.comparison ..) => True
  | .multiValue _ (.interval ..) => True
  | .multiValue _ _ => False
  | _ => True

/-- The text of a tree is a filter of its own. -/
theorem prints_filter (h : Prints scope table q.level text raw) :
    Prints scope table .disjunction text raw := by
  cases q with
  | anyOf children => exact h
  | allOf children => exact Prints.filter h
  | _ => exact Prints.filter (Prints.alternative h)

/-- The text of a tree is a term, in parentheses if it is compound. -/
theorem prints_grouped (h : Prints scope table q.level q.text.toList raw) :
    Prints scope table .unary (grouped q q.text).toList raw := by
  have hgroup := (prints_filter h).group
  unfold grouped
  cases q with
  | allOf children | anyOf children => simpa [isCompound] using hgroup
  | _ => exact h

theorem operandTexts_eq_map (children : List Query) :
    operandTexts children = children.map fun child => grouped child child.text := by
  induction children with
  | nil => rw [operandTexts, List.map_nil]
  | cons child rest ih => rw [operandTexts, List.map_cons, ih]

section Joined

variable {children : List Query} (hmany : 2 ≤ children.length)
  (h : ∀ child ∈ children, Prints scope table child.level child.text.toList child.reread)
include hmany h

/-- The text of a conjunction says it, if the texts of its children say them. -/
theorem prints_allOf (hconjuncts : ∀ child ∈ children, child.isConjunct = true) :
    Prints scope table .conjunction (Query.allOf children).text.toList
      (Query.allOf children).reread := by
  have hreread : and (children.map reread) = .allOf (children.map reread) :=
    and_eq_allOf (by simpa using hmany) (by simpa using hconjuncts)
  cases children with
  | nil => cases hmany
  | cons first rest =>
    rw [List.forall_mem_cons] at h
    have hall := @Prints.and scope table _ _
      (rest.map fun child => ((grouped child child.text).toList, child.reread)) (prints_grouped h.1)
      (List.forall_mem_map.mpr fun child hchild => prints_grouped (h.2 child hchild))
    rw [reread, rereadAll_eq_map, ← hreread, text, operandTexts_eq_map, List.map_cons,
      Filter.toList_intercalate]
    simpa [List.flatMap_map, Function.comp_def] using hall

/-- The text of a disjunction says it, if the texts of its children say them. -/
theorem prints_anyOf (hdisjuncts : ∀ child ∈ children, child.isDisjunct = true) :
    Prints scope table .disjunction (Query.anyOf children).text.toList
      (Query.anyOf children).reread := by
  have hreread : or (children.map reread) = .anyOf (children.map reread) :=
    or_eq_anyOf (by simpa using hmany) (by simpa using hdisjuncts)
  cases children with
  | nil => cases hmany
  | cons first rest =>
    rw [List.forall_mem_cons] at h
    have hall := @Prints.or scope table _ _
      (rest.map fun child => ((grouped child child.text).toList, child.reread))
      (prints_grouped h.1).alternative (List.forall_mem_map.mpr fun child hchild => (prints_grouped (h.2 child hchild)).alternative)
    rw [reread, rereadAll_eq_map, ← hreread, text, operandTexts_eq_map, List.map_cons,
      Filter.toList_intercalate]
    simpa [List.flatMap_map, Function.comp_def] using hall

end Joined

/-- Names that mean something in the schema are words. -/
theorem isWord_of_fieldKind {s : Schema} {name : String} (hwords : s.HasWordNames)
    (h : s.fieldKind table name ≠ .unknown) : IsWord name := by
  unfold Schema.fieldKind at h
  split at h
  · split at h
    · rename_i hsystem
      obtain rfl : name = "_ID" := by simpa [Schema.isSystemField] using hsystem
      exact ⟨by decide, by decide +kernel, by decide +kernel⟩
    · exact absurd rfl h
  · cases hfield : s.field? table name with
    | none => simp [hfield] at h
    | some field => exact hwords table name (by rw [hfield]; rfl)

section Names

variable {s : Schema} {name : String} (hwords : s.HasWordNames)
include hwords

theorem isWord_of_valueType (h : (s.valueType? table name).isSome = true) : IsWord name :=
  isWord_of_fieldKind hwords (Schema.fieldKind_of_valueType h)

theorem isWord_of_leadsTo {target : String} (h : s.LeadsTo table name target) : IsWord name :=
  isWord_of_fieldKind hwords (Schema.fieldKind_of_leadsTo h)

theorem isWord_of_along {names : List String} {roles : List FieldRole}
    (h : s.Along table names roles) : ∀ name ∈ names, IsWord name := by
  intro name hname
  obtain ⟨table, hkind⟩ := Schema.fieldKind_of_along h name hname
  exact isWord_of_fieldKind hwords hkind

end Names

section Texts

variable {scope : Filter.Scope}

mutual

/-- The text of a well-formed tree whose nodes can be written says what is read again. -/
theorem WellFormed.prints {table : String} (hwords : scope.schema.HasWordNames) : ∀ {q : Query},
    q.WellFormed scope.schema Timestamp.IsProper table → q.Every IsWritten →
    Prints scope table q.level q.text.toList q.reread
  | .everything, _, _ => by
    rw [reread]
    · exact Prints.everything
    all_goals exact nofun
  | .nothing, _, _ => by
    rw [reread]
    · exact Prints.nothing
    all_goals exact nofun
  | .allOf children, h, hwritten =>
    prints_allOf h.1 (AllWellFormed.prints hwords h.2.2 hwritten.allOf) h.2.1
  | .anyOf children, h, hwritten =>
    prints_anyOf h.1 (AllWellFormed.prints hwords h.2.2 hwritten.anyOf) h.2.1
  | .negated inner, h, hwritten => by
    have hall := (prints_filter (WellFormed.prints hwords h.2 hwritten.negated)).not
    rw [not_eq_negated (by simpa using h.1)] at hall
    simpa [text, reread, level] using hall
  | .comparison field op value, ⟨type, hvalue, hfits⟩, hwritten => by
    rw [reread]
    · exact Prints.comparison (isWord_of_valueType hwords (by rw [hvalue]; rfl)) hvalue hfits
        hwritten.root
    all_goals exact nofun
  | .interval field range, ⟨type, hvalue, hfits⟩, hwritten => by
    rw [reread]
    · exact Prints.interval (isWord_of_valueType hwords (by rw [hvalue]; rfl)) hvalue hfits
        hwritten.root
    all_goals exact nofun
  | .objectId id, _, _ => by
    have hvalue : scope.schema.valueType? table "_ID" = some (none, false) := by
      rw [Schema.valueType?, Schema.fieldKind_system rfl]
    have hall := @Prints.comparison scope table none "_ID" .eq (.text id)
      (isWord_of_valueType hwords (by rw [hvalue]; rfl)) hvalue ⟨id, rfl⟩ trivial
    simpa [text, CompareOp.symbol, Literal.shown, reread, level] using hall
  | .multiValue quantifier (.comparison field op value),
      ⟨hquantifier, type, several, hvalue, hfits⟩, hwritten => by
    rw [reread]
    · exact Prints.quantifiedComparison (isWord_of_valueType hwords (by rw [hvalue]; rfl)) hquantifier
        hvalue hfits hwritten.multiValue.root
    all_goals exact nofun
  | .multiValue quantifier (.interval field range),
      ⟨hquantifier, type, several, hvalue, hfits⟩, hwritten => by
    rw [reread]
    · exact Prints.quantifiedInterval (isWord_of_valueType hwords (by rw [hvalue]; rfl)) hquantifier
        hvalue hfits hwritten.multiValue.root
    all_goals exact nofun
  | .multiValue _ (.objectId _), _, hwritten => hwritten.root.elim
  | .link quantifier name filter none, ⟨hquantifier, target, hlead, hfilter, hinner⟩, hwritten => by
    rw [reread, rereadIfAny]
    exact Prints.linkPresent (isWord_of_leadsTo hwords hlead) hlead
      (WellFormedIfAny.prints hwords hfilter hwritten.link.1)
  | .link quantifier name filter (some inner), ⟨hquantifier, target, hlead, hfilter, hinner⟩,
      hwritten => by
    rw [reread, rereadIfAny]
    exact Prints.linkBehind (isWord_of_leadsTo hwords hlead) hlead hquantifier
      (WellFormedIfAny.prints hwords hfilter hwritten.link.1)
      (prints_filter (WellFormed.prints hwords hinner (hwritten.link.2 inner rfl)))
  | .transitiveLink name depth none, ⟨hlead, hdepth, _⟩, _ => by
    rw [reread, rereadIfAny]
    exact Prints.repeatedPresent (isWord_of_leadsTo hwords hlead) hlead hdepth
  | .transitiveLink name depth (some inner), ⟨hlead, hdepth, hinner⟩, hwritten => by
    rw [reread, rereadIfAny]
    exact Prints.repeatedBehind (isWord_of_leadsTo hwords hlead) hlead hdepth
      (prints_filter (WellFormed.prints hwords hinner (hwritten.transitiveLink inner rfl)))
  | .linkId quantifier name id, ⟨hquantifier, target, hlead⟩, _ => by
    rw [reread]
    · exact Prints.linkId (isWord_of_leadsTo hwords hlead) hlead hquantifier
    all_goals exact nofun
  | .linkCount name filter op count, ⟨hop, hcount, target, hlead, hfilter⟩, hwritten => by
    obtain rfl := hop
    rw [reread]
    exact Prints.linkCount (isWord_of_leadsTo hwords hlead) hlead
      (WellFormedIfAny.prints hwords hfilter hwritten.linkCount) hcount
  | .linkCountRange name filter range, ⟨hrange, target, hlead, hfilter⟩, hwritten => by
    rw [reread]
    exact Prints.linkCountRange (isWord_of_leadsTo hwords hlead) hlead
      (WellFormedIfAny.prints hwords hfilter hwritten.linkCountRange) hrange
  | .fieldCount field op count, ⟨hop, hcount, hvalue⟩, _ => by
    obtain rfl := hop
    rw [reread]
    · exact Prints.fieldCount (isWord_of_valueType hwords hvalue) hvalue hcount
    all_goals exact nofun
  | .fieldCountRange field range, ⟨hrange, hvalue⟩, _ => by
    rw [reread]
    · exact Prints.fieldCountRange (isWord_of_valueType hwords hvalue) hvalue hrange
    all_goals exact nofun
  | .pathCountRange path range, ⟨hrange, roles, halong, hlink⟩, _ => by
    rw [reread]
    · exact Prints.pathCountRange (isWord_of_along hwords halong) halong hlink hrange
    all_goals exact nofun
  | .pathComparison op left right, ⟨⟨roles, hleft⟩, roles', hright⟩, _ => by
    rw [reread]
    · exact Prints.pathComparison (isWord_of_along hwords hleft) (isWord_of_along hwords hright)
        hleft hright
    all_goals exact nofun

theorem AllWellFormed.prints {table : String} (hwords : scope.schema.HasWordNames) : ∀ {children : List Query},
    AllWellFormed scope.schema Timestamp.IsProper table children →
    EveryOfAll IsWritten children →
    ∀ child ∈ children, Prints scope table child.level child.text.toList child.reread
  | [], _, _ => by simp
  | child :: rest, h, hwritten => by
    rw [List.forall_mem_cons]
    exact ⟨WellFormed.prints hwords h.1 hwritten.head.1, AllWellFormed.prints hwords h.2 hwritten.head.2⟩

theorem WellFormedIfAny.prints {table : String} (hwords : scope.schema.HasWordNames) : ∀ {q : Option Query},
    WellFormedIfAny scope.schema Timestamp.IsProper table q → EveryIfAny IsWritten q →
    PrintsIfAny scope table q (rereadIfAny q)
  | none, _, _ => by
    rw [rereadIfAny]
    exact .missing
  | some inner, h, hwritten => by
    rw [rereadIfAny]
    exact .present (prints_filter (WellFormed.prints hwords h (hwritten inner rfl)))

end

end Texts

end Query

namespace View

open Query

variable {v : View}

/-- A link without a condition asks for some object, unless it asks for none. -/
theorem existence_shown {quantifier : Quantifier} {inner : Option Query}
    (h : inner = none → quantifier ≠ .none) :
    (if inner.isSome then shownQuantifier quantifier inner
      else (shownQuantifier quantifier inner).existence) =
    if inner.isSome then quantifier else quantifier.existence := by
  cases inner with
  | none =>
    cases quantifier <;> first | rfl | exact absurd rfl (h rfl)
  | some inner => rfl

mutual

/-- A tree holds for the same objects without the quantifiers that its text does not show, if no
link without a condition asks for no object. -/
theorem holds_plain : ∀ {q : Query}, q.Every (ExistsWith [.any, .all, .count]) →
    v.holds q.plain = v.holds q
  | .allOf children, h => by
    funext o
    rw [plain, holds, holds, holdsAll_plain h.allOf]
  | .anyOf children, h => by
    funext o
    rw [plain, holds, holds, holdsAny_plain h.anyOf]
  | .negated inner, h => by
    funext o
    rw [plain, holds, holds, holds_plain h.negated]
  | .link quantifier name filter inner, h => by
    have hexistence := @existence_shown quantifier inner (by
      rintro rfl rfl
      have hmem : Quantifier.none ∈ [.any, .all, .count] := h.root
      exact absurd hmem (by decide))
    have hsome : (plainIfAny inner).isSome = inner.isSome := by
      cases inner <;> simp [plainIfAny]
    funext o
    simp only [plain, holds, holdsIfAny_plain h.link.1, holdsIfAny_plain h.link.2, hsome, hexistence]
  | .transitiveLink name depth inner, h => by
    funext o
    rw [plain, holds, holds, holdsIfAny_plain h.transitiveLink]
  | .linkCount name filter op count, h => by
    funext o
    rw [plain, holds, holds, holdsIfAny_plain h.linkCount]
  | .linkCountRange name filter range, h => by
    funext o
    rw [plain, holds, holds, holdsIfAny_plain h.linkCountRange]
  | .everything, _ | .nothing, _ | .comparison _ _ _, _ | .interval _ _, _ | .multiValue _ _, _
  | .linkId _ _ _, _ | .objectId _, _ | .fieldCount _ _ _, _ | .fieldCountRange _ _, _
  | .pathCountRange _ _, _ | .pathComparison _ _ _, _ => by
    rw [plain] <;> exact nofun

theorem holdsAll_plain : ∀ {children : List Query},
    EveryOfAll (ExistsWith [.any, .all, .count]) children →
    v.holdsAll (plainAll children) = v.holdsAll children
  | [], _ => by rw [plainAll]
  | child :: rest, h => by
    funext o
    rw [plainAll, holdsAll, holdsAll, holds_plain h.head.1, holdsAll_plain h.head.2]

theorem holdsAny_plain : ∀ {children : List Query},
    EveryOfAll (ExistsWith [.any, .all, .count]) children →
    v.holdsAny (plainAll children) = v.holdsAny children
  | [], _ => by rw [plainAll]
  | child :: rest, h => by
    funext o
    rw [plainAll, holdsAny, holdsAny, holds_plain h.head.1, holdsAny_plain h.head.2]

theorem holdsIfAny_plain : ∀ {q : Option Query},
    EveryIfAny (ExistsWith [.any, .all, .count]) q → v.holdsIfAny (plainIfAny q) = v.holdsIfAny q
  | none, _ => by rw [plainIfAny]
  | some inner, h => by
    funext o
    rw [plainIfAny, holdsIfAny, holdsIfAny, holds_plain (h inner rfl)]

end

end View

/-! ## Compiled filters -/

namespace Query

/-- The literals of the node itself. -/
def ownLiterals : Query → List Literal
  | .comparison _ _ value => [value]
  | .interval _ range => range.min.toList ++ range.max.toList
  | _ => []

/-- The literals in a tree. -/
def literals (q : Query) : List Literal :=
  q.nodes.flatMap ownLiterals

end Query

namespace Compiler

variable {c : Compiler} {table input : String} {q : Query}

theorem staff_hasWordNames : staff.schema.HasWordNames := by
  refine Schema.hasWordNames_of_tables fun fields hfields name hname => ?_
  have hnames : ∀ fields ∈ staff.schema.tables.values, ∀ name ∈ fields.fields.names,
      name = "Boss" ∨ name = "Name" := by decide +kernel
  rcases hnames fields hfields name hname with rfl | rfl <;>
    exact ⟨by decide, by decide +kernel, by decide +kernel⟩

end Compiler

end LinkQuery
