import LinkQuery.Proofs.PromotedMeaning
/-!
# Promoting twice

A tree that promotion returns has no needless connective, and below its connectives stand trees
that promotion leaves alone: identity tests where there were comparisons, and traversals whose names
have been checked. So promotion leaves all of it alone. A schema in which a link leads nowhere is
left out, for there a comparison with the link becomes a traversal that is refused.

Main statements:
- `Query.Promoted.promote_self`: a tree of that form is its own promotion.
- `Query.promote_promoted`: what promotion returns has that form.
- `Query.promote_idempotent`: a second promotion changes nothing.
-/
namespace LinkQuery

/-- Every link that is declared has a target. -/
def Schema.LinksHaveTargets (s : Schema) : Prop :=
  ∀ table ∈ s.tables.values, ∀ field ∈ table.fields.values,
    field.type = .link ∨ field.type = .crossLink → field.target.isSome = true

/-- Then a link leads somewhere. -/
theorem Schema.LinksHaveTargets.leadsTo {s : Schema} (h : s.LinksHaveTargets) {table name : String}
    (hkind : (s.fieldKind table name).isLink = true) : ∃ target, s.LeadsTo table name target := by
  obtain ⟨field, hfield, htype⟩ : ∃ field, s.field? table name = some field ∧
      (field.type = .link ∨ field.type = .crossLink) := by
    unfold fieldKind at hkind
    split at hkind
    · split at hkind <;> cases hkind
    · split at hkind
      · cases hkind
      · rename_i field hfield
        refine ⟨field, hfield, ?_⟩
        unfold kindOf at hkind
        split at hkind
        · split at hkind <;> cases hkind
        · exact Or.inl ‹_›
        · exact Or.inr ‹_›
        · cases hkind
  obtain ⟨fields, htable, hname⟩ := Option.bind_eq_some_iff.mp hfield
  obtain ⟨target, htarget⟩ := Option.isSome_iff_exists.mp
    (h fields (NameMap.mem_of_find? htable).2 field (NameMap.mem_of_find? hname).2 htype)
  refine ⟨target, hkind, ?_⟩
  rw [linkTarget?, hfield]
  rcases htype with htype | htype <;> simp [htype, htarget]

namespace Query

variable {schema : Schema} {table : String} {q p : Query} {children : List Query}

/-! ## What promotion returns -/

/-- The tree joins or negates others. -/
def isConnective : Query → Bool
  | .allOf _ | .anyOf _ | .negated _ => true
  | _ => false

/-- No connective of the tree is needless, and promotion leaves the trees below them alone. -/
inductive Promoted (schema : Schema) (table : String) : Query → Prop
  | allOf {children : List Query} (hmany : 2 ≤ children.length)
    (hparts : ∀ child ∈ children, child.isConjunct = true)
    (h : ∀ child ∈ children, Promoted schema table child) : Promoted schema table (.allOf children)
  | anyOf {children : List Query} (hmany : 2 ≤ children.length)
    (hparts : ∀ child ∈ children, child.isDisjunct = true)
    (h : ∀ child ∈ children, Promoted schema table child) : Promoted schema table (.anyOf children)
  | negated {inner : Query} (hinner : inner.isNegatable = true)
    (h : Promoted schema table inner) : Promoted schema table (.negated inner)
  | node {q : Query} (hnode : q.isConnective = false) (h : promote schema table q = .ok q) :
    Promoted schema table q

theorem promoteAll_self (h : ∀ child ∈ children, promote schema table child = .ok child) :
    promoteAll schema table children = .ok children := by
  rw [promoteAll_eq_mapM, mapM_eq_map h, List.map_id']

theorem Promoted.promote_self (h : q.Promoted schema table) : promote schema table q = .ok q := by
  induction h with
  | allOf hmany hparts _ ih =>
    rw [promote, promoteAll_self ih]
    exact congrArg Except.ok (and_eq_allOf hmany hparts)
  | anyOf hmany hparts _ ih =>
    rw [promote, promoteAll_self ih]
    exact congrArg Except.ok (or_eq_anyOf hmany hparts)
  | negated hinner _ ih =>
    rw [promote, ih]
    exact congrArg Except.ok (not_eq_negated hinner)
  | node _ h => exact h

theorem promoted_conjoins : Conjoins (Promoted schema table) where
  everything := .node rfl (by simp [promote])
  parts children h child hchild := by
    cases h with
    | allOf _ hparts h => exact ⟨h child hchild, hparts child hchild⟩
    | node hnode _ => cases hnode
  whole _ hmany hparts h := .allOf hmany hparts h

theorem promoted_disjoins : Disjoins (Promoted schema table) where
  nothing := .node rfl (by simp [promote])
  parts children h child hchild := by
    cases h with
    | anyOf _ hparts h => exact ⟨h child hchild, hparts child hchild⟩
    | node hnode _ => cases hnode
  whole _ hmany hparts h := .anyOf hmany hparts h

theorem Promoted.not (h : q.Promoted schema table) : (Query.not q).Promoted schema table := by
  cases q with
  | everything => exact promoted_disjoins.nothing
  | nothing => exact promoted_conjoins.everything
  | negated inner =>
    cases h with
    | negated _ h => exact h
    | node hnode _ => cases hnode
  | _ => exact .negated rfl h

/-! ## Nodes -/

section Nodes

variable (htargets : schema.LinksHaveTargets)
include htargets

theorem promoted_linkId {name : String} (hkind : (schema.fieldKind table name).isLink = true)
    (quantifier : Quantifier) (id : String) :
    (linkId quantifier name id).Promoted schema table := by
  obtain ⟨target, hlead⟩ := htargets.leadsTo hkind
  refine .node rfl ?_
  rw [promote, traversalTarget_of_leadsTo hlead]
  rfl

theorem promoted_groupIdentity {group id : String}
    (h : groupIdentity schema table group id = .ok p) : p.Promoted schema table := by
  unfold groupIdentity at h
  split at h
  · cases h
  · rename_i links _
    obtain rfl := Except.ok.inj h
    refine promoted_disjoins.or fun child hchild => ?_
    obtain ⟨link, hlink, rfl⟩ := List.mem_map.mp hchild
    exact promoted_linkId htargets (Schema.groupLinks_isLink hlink) _ _

theorem promoteComparison_promoted {field : String} {op : CompareOp} {value : Literal}
    (h : promoteComparison schema table field op value = .ok p) : p.Promoted schema table := by
  -- A comparison that is returned is promoted once more as it was the first time.
  have hself : promoteComparison schema table field op value = .ok (.comparison field op value) →
      (comparison field op value).Promoted schema table := fun h => .node rfl (by rw [promote, h])
  have hp := h
  unfold promoteComparison objectIdentity at h
  split at h
  · split at h
    · obtain rfl := Except.ok.inj h
      exact .node rfl (by simp [promote])
    · cases h
    · obtain rfl := Except.ok.inj h
      exact hself hp
  · split at h
    · rename_i hkind
      obtain ⟨_, _, h⟩ := bind_eq_ok h
      obtain rfl := Except.ok.inj h
      exact promoted_linkId htargets (by rw [hkind]; rfl) _ _
    · rename_i hkind
      obtain ⟨_, _, h⟩ := bind_eq_ok h
      obtain rfl := Except.ok.inj h
      exact promoted_linkId htargets (by rw [hkind]; rfl) _ _
    · obtain ⟨_, _, h⟩ := bind_eq_ok h
      exact promoted_groupIdentity htargets h
    · obtain rfl := Except.ok.inj h
      exact hself hp

end Nodes

mutual

/-- What promotion returns is promoted. -/
theorem promote_promoted (htargets : schema.LinksHaveTargets) {table : String} :
    ∀ {q p : Query}, promote schema table q = .ok p → p.Promoted schema table
  | .allOf children, p, h => by
    rw [promote] at h
    obtain ⟨parts, hparts, h⟩ := bind_eq_ok h
    obtain rfl := Except.ok.inj h
    exact promoted_conjoins.and (promoteAll_promoted htargets hparts)
  | .anyOf children, p, h => by
    rw [promote] at h
    obtain ⟨parts, hparts, h⟩ := bind_eq_ok h
    obtain rfl := Except.ok.inj h
    exact promoted_disjoins.or (promoteAll_promoted htargets hparts)
  | .negated inner, p, h => by
    rw [promote] at h
    obtain ⟨found, hfound, h⟩ := bind_eq_ok h
    obtain rfl := Except.ok.inj h
    exact (promote_promoted htargets hfound).not
  | .multiValue quantifier inner, p, h => by
    rw [promote] at h
    obtain ⟨found, hfound, h⟩ := bind_eq_ok h
    obtain rfl := Except.ok.inj h
    refine .node rfl ?_
    rw [promote, (promote_promoted htargets hfound).promote_self]
    rfl
  | .comparison field op value, p, h => by
    rw [promote] at h
    exact promoteComparison_promoted htargets h
  | .link quantifier name filter inner, p, h => by
    rw [promote] at h
    obtain ⟨target, htarget, h⟩ := bind_eq_ok h
    obtain ⟨filter', hfilter, h⟩ := bind_eq_ok h
    obtain ⟨inner', hinner, h⟩ := bind_eq_ok h
    obtain rfl := Except.ok.inj h
    refine .node rfl ?_
    rw [promote, htarget]
    show (promoteIfAny schema target filter' >>= _) = _
    rw [promoteIfAny_promoted htargets hfilter]
    show (promoteIfAny schema target inner' >>= _) = _
    rw [promoteIfAny_promoted htargets hinner]
    rfl
  | .transitiveLink name depth inner, p, h => by
    rw [promote] at h
    obtain ⟨target, htarget, h⟩ := bind_eq_ok h
    obtain ⟨inner', hinner, h⟩ := bind_eq_ok h
    obtain rfl := Except.ok.inj h
    refine .node rfl ?_
    rw [promote, htarget]
    show (promoteIfAny schema target inner' >>= _) = _
    rw [promoteIfAny_promoted htargets hinner]
    rfl
  | .linkId quantifier name id, p, h => by
    have hp := h
    rw [promote] at h
    obtain ⟨target, -, h⟩ := bind_eq_ok h
    obtain rfl := Except.ok.inj h
    exact .node rfl hp
  | .linkCount name filter op count, p, h => by
    rw [promote] at h
    obtain ⟨target, htarget, h⟩ := bind_eq_ok h
    obtain ⟨filter', hfilter, h⟩ := bind_eq_ok h
    obtain rfl := Except.ok.inj h
    refine .node rfl ?_
    rw [promote, htarget]
    show (promoteIfAny schema target filter' >>= _) = _
    rw [promoteIfAny_promoted htargets hfilter]
    rfl
  | .linkCountRange name filter range, p, h => by
    rw [promote] at h
    obtain ⟨target, htarget, h⟩ := bind_eq_ok h
    obtain ⟨filter', hfilter, h⟩ := bind_eq_ok h
    obtain rfl := Except.ok.inj h
    refine .node rfl ?_
    rw [promote, htarget]
    show (promoteIfAny schema target filter' >>= _) = _
    rw [promoteIfAny_promoted htargets hfilter]
    rfl
  | .everything, p, h | .nothing, p, h | .interval _ _, p, h | .objectId _, p, h
  | .fieldCount _ _ _, p, h | .fieldCountRange _ _, p, h | .pathCountRange _ _, p, h
  | .pathComparison _ _ _, p, h => by
    have hp := h
    unfold promote at h
    obtain rfl := Except.ok.inj h
    exact .node rfl hp

theorem promoteAll_promoted (htargets : schema.LinksHaveTargets) {table : String} :
    ∀ {children parts : List Query},
    promoteAll schema table children = .ok parts → ∀ part ∈ parts, part.Promoted schema table
  | [], parts, h => by
    rw [promoteAll] at h
    obtain rfl := Except.ok.inj h
    simp
  | child :: rest, parts, h => by
    rw [promoteAll] at h
    obtain ⟨first, hfirst, h⟩ := bind_eq_ok h
    obtain ⟨others, hothers, h⟩ := bind_eq_ok h
    obtain rfl := Except.ok.inj h
    exact List.forall_mem_cons.mpr
      ⟨promote_promoted htargets hfirst, promoteAll_promoted htargets hothers⟩

theorem promoteIfAny_promoted (htargets : schema.LinksHaveTargets) {table : String} :
    ∀ {inner found : Option Query},
    promoteIfAny schema table inner = .ok found → promoteIfAny schema table found = .ok found
  | none, found, h => by
    rw [promoteIfAny] at h
    obtain rfl := Except.ok.inj h
    rw [promoteIfAny]
  | some inner, found, h => by
    rw [promoteIfAny] at h
    obtain ⟨p, hp, rfl⟩ := map_eq_ok h
    rw [promoteIfAny, (promote_promoted htargets hp).promote_self]
    rfl

end

/-! ## The second promotion -/

/-- A tree that has been promoted is its own promotion, and one that has been settled is settled. -/
theorem promote_idempotent (htargets : schema.LinksHaveTargets)
    (h : promote schema table q = .ok p) :
    promote schema table p = .ok p ∧
      (settle schema table q = .ok p → settle schema table p = .ok p) := by
  have hself := (promote_promoted htargets h).promote_self
  exact ⟨hself, fun hsettle => settle_eq_ok_iff.mpr ⟨hself, (settle_eq_ok_iff.mp hsettle).2⟩⟩

/-- A comparison with a group inside a disjunction, and one with the identity below two
negations. -/
theorem promote_idempotent_peers :
    View.firm.schema.LinksHaveTargets ∧
    promote View.firm.schema "Person" (.anyOf [.comparison "Peers" .eq (.text "a"),
      .anyOf [.nothing, .negated (.negated (.comparison "_ID" .eq (.text "b")))]]) =
      .ok (.anyOf [.linkId .any "Boss" "a", .linkId .any "Deputy" "a", .objectId "b"]) ∧
    promote View.firm.schema "Person"
      (.anyOf [.linkId .any "Boss" "a", .linkId .any "Deputy" "a", .objectId "b"]) =
      .ok (.anyOf [.linkId .any "Boss" "a", .linkId .any "Deputy" "a", .objectId "b"]) := by
  have htargets : View.firm.schema.LinksHaveTargets := by
    unfold Schema.LinksHaveTargets
    decide
  have hpromote : promote View.firm.schema "Person" (.anyOf [.comparison "Peers" .eq (.text "a"),
      .anyOf [.nothing, .negated (.negated (.comparison "_ID" .eq (.text "b")))]]) =
      .ok (.anyOf [.linkId .any "Boss" "a", .linkId .any "Deputy" "a", .objectId "b"]) := by
    rfl
  exact ⟨htargets, hpromote, (promote_idempotent htargets hpromote).1⟩

end Query

end LinkQuery
