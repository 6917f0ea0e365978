import LinkQuery.Proofs.Printing
/-!
# Trees that settling leaves alone

The names of a well-formed tree mean something in their tables, so none of them is refused. Where no
comparison is one with an identity, promotion changes nothing either.

Main statements:
- `Query.WellFormed.known`: the names of a well-formed tree are known.
- `Query.WellFormed.settle_self`: a well-formed tree that compares no identity is settled.
- `Query.settle_link`: settling a traversal settles the filter of its link.
-/
namespace LinkQuery.Query

open Time (Timestamp)

variable {schema : Schema} {good : Timestamp → Prop}

/-! ## Names -/

/-- A name that means something in some table is no unknown system field. -/
theorem known_of_fieldKind {table name : String} (h : schema.fieldKind table name ≠ .unknown) :
    isUnknownSystemField name = false := by
  unfold isUnknownSystemField
  unfold Schema.fieldKind at h
  cases hreserved : Schema.isReserved name with
  | false => rfl
  | true =>
    cases hsystem : Schema.isSystemField name with
    | false => simp [hreserved, hsystem] at h
    | true => rfl

theorem known_of_valueType {table name : String}
    (h : (schema.valueType? table name).isSome = true) : Known [name] :=
  List.forall_mem_singleton.mpr (known_of_fieldKind (Schema.fieldKind_of_valueType h))

theorem known_of_leadsTo {table name target : String} (h : schema.LeadsTo table name target) :
    Known [name] :=
  List.forall_mem_singleton.mpr (known_of_fieldKind (Schema.fieldKind_of_leadsTo h))

theorem known_of_along {table : String} {names : List String} {roles : List FieldRole}
    (h : schema.Along table names roles) : Known names := by
  intro name hname
  obtain ⟨table, hkind⟩ := Schema.fieldKind_of_along h name hname
  exact known_of_fieldKind hkind

theorem Known.append {a b : List String} (ha : Known a) (hb : Known b) : Known (a ++ b) :=
  List.forall_mem_append.mpr ⟨ha, hb⟩

theorem TestsValues.known {table : String} {q : Query} (h : q.TestsValues schema good table) :
    Known q.names := by
  cases q with
  | comparison field op value =>
    obtain ⟨type, several, hvalue, -⟩ := h
    exact known_of_valueType (by rw [hvalue]; rfl)
  | interval field range =>
    obtain ⟨type, several, hvalue, -⟩ := h
    exact known_of_valueType (by rw [hvalue]; rfl)
  | objectId id => simp [Known, names, nodes, ownNames]
  | _ => exact h.elim

mutual

/-- The names of a well-formed tree are known. -/
theorem WellFormed.known {table : String} : ∀ {q : Query}, q.WellFormed schema good table →
    Known q.names
  | .allOf children, h => by
    rw [names_allOf]
    exact AllWellFormed.known h.2.2
  | .anyOf children, h => by
    rw [names_anyOf]
    exact AllWellFormed.known h.2.2
  | .negated inner, h => by
    rw [names_negated]
    exact WellFormed.known h.2
  | .multiValue quantifier inner, h => by
    rw [names_multiValue]
    exact h.2.known
  | .comparison field op value, h => by
    obtain ⟨type, hvalue, -⟩ := h
    exact known_of_valueType (by rw [hvalue]; rfl)
  | .interval field range, h => by
    obtain ⟨type, hvalue, -⟩ := h
    exact known_of_valueType (by rw [hvalue]; rfl)
  | .link quantifier name filter inner, h => by
    obtain ⟨-, target, hlead, hfilter, hinner⟩ := h
    rw [names_link]
    exact (known_of_leadsTo hlead).append
      ((WellFormedIfAny.known hfilter).append (WellFormedIfAny.known hinner))
  | .transitiveLink name depth inner, h => by
    obtain ⟨hlead, -, hinner⟩ := h
    rw [names_transitiveLink]
    exact (known_of_leadsTo hlead).append (WellFormedIfAny.known hinner)
  | .linkId quantifier name id, h => by
    obtain ⟨-, target, hlead⟩ := h
    exact known_of_leadsTo hlead
  | .linkCount name filter op count, h => by
    obtain ⟨-, -, target, hlead, hfilter⟩ := h
    rw [names_linkCount]
    exact (known_of_leadsTo hlead).append (WellFormedIfAny.known hfilter)
  | .linkCountRange name filter range, h => by
    obtain ⟨-, target, hlead, hfilter⟩ := h
    rw [names_linkCountRange]
    exact (known_of_leadsTo hlead).append (WellFormedIfAny.known hfilter)
  | .fieldCount field op count, h => known_of_valueType h.2.2
  | .fieldCountRange field range, h => known_of_valueType h.2
  | .pathCountRange path range, h => by
    obtain ⟨-, roles, halong, -⟩ := h
    simpa [names, nodes, ownNames] using known_of_along halong
  | .pathComparison op left right, h => by
    obtain ⟨⟨roles, hleft⟩, roles', hright⟩ := h
    simpa [names, nodes, ownNames] using (known_of_along hleft).append (known_of_along hright)
  | .everything, _ | .nothing, _ | .objectId _, _ => by
    simp [Known, names, nodes, ownNames]

theorem AllWellFormed.known {table : String} : ∀ {children : List Query},
    AllWellFormed schema good table children → Known (children.flatMap names)
  | [], _ => by simp [Known]
  | child :: rest, h => by
    rw [List.flatMap_cons]
    exact (WellFormed.known h.1).append (AllWellFormed.known h.2)

theorem WellFormedIfAny.known {table : String} : ∀ {inner : Option Query},
    WellFormedIfAny schema good table inner → Known (namesIfAny inner)
  | none, _ => by simp [Known, namesIfAny]
  | some inner, h => by
    simpa [namesIfAny] using WellFormed.known h

end

/-! ## Promotion -/

mutual

/-- A well-formed tree that compares no identity is promoted to itself. -/
theorem WellFormed.promote_self {table : String} : ∀ {q : Query},
    q.WellFormed schema good table → q.Every ComparesNoIdentity →
    promote schema table q = .ok q
  | .allOf children, h, hid => by
    rw [promote, AllWellFormed.promote_self h.2.2 hid.allOf]
    exact congrArg Except.ok (and_eq_allOf h.1 h.2.1)
  | .anyOf children, h, hid => by
    rw [promote, AllWellFormed.promote_self h.2.2 hid.anyOf]
    exact congrArg Except.ok (or_eq_anyOf h.1 h.2.1)
  | .negated inner, h, hid => by
    rw [promote, WellFormed.promote_self h.2 hid.negated]
    exact congrArg Except.ok (not_eq_negated h.1)
  | .comparison field op value, h, hid => by
    obtain ⟨type, hvalue, -⟩ := h
    exact promote_comparison_self hvalue hid.root
  | .multiValue quantifier inner, h, hid => by
    rw [promote, h.2.promote_self hid.multiValue.root]
    rfl
  | .link quantifier name filter inner, h, hid => by
    obtain ⟨-, target, hlead, hfilter, hinner⟩ := h
    rw [promote, traversalTarget_of_leadsTo hlead]
    show (promoteIfAny schema target filter >>= _) = _
    rw [WellFormedIfAny.promote_self hfilter hid.link.1]
    show (promoteIfAny schema target inner >>= _) = _
    rw [WellFormedIfAny.promote_self hinner hid.link.2]
    rfl
  | .transitiveLink name depth inner, h, hid => by
    obtain ⟨hlead, -, hinner⟩ := h
    rw [promote, traversalTarget_of_leadsTo hlead]
    show (promoteIfAny schema table inner >>= _) = _
    rw [WellFormedIfAny.promote_self hinner hid.transitiveLink]
    rfl
  | .linkId quantifier name id, h, _ => by
    obtain ⟨-, target, hlead⟩ := h
    rw [promote, traversalTarget_of_leadsTo hlead]
    rfl
  | .linkCount name filter op count, h, hid => by
    obtain ⟨-, -, target, hlead, hfilter⟩ := h
    rw [promote, traversalTarget_of_leadsTo hlead]
    show (promoteIfAny schema target filter >>= _) = _
    rw [WellFormedIfAny.promote_self hfilter hid.linkCount]
    rfl
  | .linkCountRange name filter range, h, hid => by
    obtain ⟨-, target, hlead, hfilter⟩ := h
    rw [promote, traversalTarget_of_leadsTo hlead]
    show (promoteIfAny schema target filter >>= _) = _
    rw [WellFormedIfAny.promote_self hfilter hid.linkCountRange]
    rfl
  | .everything, _, _ | .nothing, _, _ | .interval _ _, _, _ | .objectId _, _, _
  | .fieldCount _ _ _, _, _ | .fieldCountRange _ _, _, _ | .pathCountRange _ _, _, _
  | .pathComparison _ _ _, _, _ => by
    unfold promote
    rfl

theorem AllWellFormed.promote_self {table : String} : ∀ {children : List Query},
    AllWellFormed schema good table children → EveryOfAll ComparesNoIdentity children →
    promoteAll schema table children = .ok children
  | [], _, _ => by rw [promoteAll]
  | child :: rest, h, hid => by
    rw [promoteAll, WellFormed.promote_self h.1 hid.head.1]
    show (promoteAll schema table rest >>= _) = _
    rw [AllWellFormed.promote_self h.2 hid.head.2]
    rfl

theorem WellFormedIfAny.promote_self {table : String} : ∀ {inner : Option Query},
    WellFormedIfAny schema good table inner → EveryIfAny ComparesNoIdentity inner →
    promoteIfAny schema table inner = .ok inner
  | none, _, _ => by rw [promoteIfAny]
  | some inner, h, hid => by
    rw [promoteIfAny, WellFormed.promote_self h (hid inner rfl)]
    rfl

end

/-! ## Settling -/

/-- A well-formed tree that compares no identity is settled. -/
theorem WellFormed.settle_self {table : String} {q : Query} (h : q.WellFormed schema good table)
    (hid : q.identities = []) : settle schema table q = .ok q :=
  settle_eq_ok_iff.mpr ⟨h.promote_self (every_comparesNoIdentity.mpr hid), h.known⟩

/-- Settling leaves a well-formed tree alone exactly where it compares no identity. -/
theorem WellFormed.settle_eq_self_iff {table : String} {q : Query}
    (h : q.WellFormed schema good table) :
    settle schema table q = .ok q ↔ q.identities = [] := by
  constructor
  · intro hsettle
    exact (promote_identities table q).of_ok (settle_eq_ok_iff.mp hsettle).1
  · exact h.settle_self

/-- A traversal of a link has the names of the filter of the link and one that is known. -/
theorem checkSystemFields_link {table name target : String}
    (hlead : schema.LeadsTo table name target) (quantifier : Quantifier) (q : Query) :
    checkSystemFields (.link quantifier name (some q) none) = checkSystemFields q := by
  have hnames : (Query.link quantifier name (some q) none).names = name :: q.names := by
    simp [namesIfAny]
  have hknown : isUnknownSystemField name = false := known_of_leadsTo hlead name (by simp)
  unfold names at hnames
  rw [checkSystemFields, checkSystemFields, hnames, List.find?_cons, hknown]

/-- Settling a traversal settles the filter of its link. -/
theorem settle_link {table name target : String} (hlead : schema.LeadsTo table name target)
    (quantifier : Quantifier) (q : Query) :
    settle schema table (.link quantifier name (some q) none) =
      (settle schema target q).map fun settled => .link quantifier name (some settled) none := by
  have hpromote : promote schema table (.link quantifier name (some q) none) =
      (promote schema target q).map fun promoted =>
        .link quantifier name (some promoted) none := by
    have hfilter : promoteIfAny schema target (some q) = some <$> promote schema target q := by
      rw [promoteIfAny]
    rw [promote, traversalTarget_of_leadsTo hlead]
    show (promoteIfAny schema target (some q) >>= _) = _
    rw [hfilter]
    cases promote schema target q <;> rfl
  rw [settle, settle, hpromote]
  cases promote schema target q with
  | error why => rfl
  | ok promoted =>
    show (checkSystemFields (.link quantifier name (some promoted) none) >>= _) =
      (checkSystemFields promoted >>= _).map _
    rw [checkSystemFields_link hlead]
    cases checkSystemFields promoted <;> rfl

end LinkQuery.Query
