import LinkQuery.Proofs.SharedTargets
/-!
# What promotion keeps

Trees are evaluated with their comparisons read in a given way: as tests of stored values, which is
how they are evaluated otherwise, or as the identity tests that they stand for. Promotion rebuilds a
tree node by node, so that what it returns is related to the tree as its comparisons are.

Main statements:
- `View.evaluate_values`: evaluation with comparisons read as tests of stored values.
- `View.promote_carries`: promotion carries a relation between results from comparisons to trees.
- `View.promote_keeps_meaning`: promoted trees hold where the trees do, identities read as such.
-/
namespace LinkQuery

namespace Query

/-! ## Where nodes are read -/

/-- The trees inside a node that are read in the table of the node. -/
def beside : Query → List Query
  | .allOf children => children
  | .anyOf children => children
  | .negated inner => [inner]
  | .multiValue _ inner => [inner]
  | _ => []

/-- The traversal of a node, with the trees that are read in the table it leads to. -/
def behind? : Query → Option (String × List Query)
  | .link _ name filter inner => some (name, filter.toList ++ inner.toList)
  | .transitiveLink name _ inner => some (name, inner.toList)
  | .linkCount name filter _ _ => some (name, filter.toList)
  | .linkCountRange name filter _ => some (name, filter.toList)
  | _ => none

/--
`Visits schema table q place node` says that `node` stands in `q`, and that it is read in `place`
when `q` is read in `table`; a group leads where promotion goes behind it.
-/
inductive Visits (schema : Schema) : String → Query → String → Query → Prop
  | here {table : String} (q : Query) : Visits schema table q table q
  | beside {table place : String} {q child node : Query} (hchild : child ∈ q.beside)
    (h : Visits schema table child place node) : Visits schema table q place node
  | behind {table target place name : String} {q child node : Query} {children : List Query}
    (hbehind : q.behind? = some (name, children))
    (htarget : traversalTarget? schema table name = some target) (hchild : child ∈ children)
    (h : Visits schema target child place node) : Visits schema table q place node

/-- Every node of the tree has a property in the table where it is read. -/
def EveryVisited (schema : Schema) (P : String → Query → Prop) (table : String) (q : Query) :
    Prop :=
  ∀ place node, q.Visits schema table place node → P place node

section EveryVisited

variable {schema : Schema} {P : String → Query → Prop} {table target name : String}
  {q child : Query} {children : List Query}

theorem EveryVisited.root (h : q.EveryVisited schema P table) : P table q :=
  h table q (.here q)

theorem EveryVisited.beside (h : q.EveryVisited schema P table) (hchild : child ∈ q.beside) :
    child.EveryVisited schema P table :=
  fun place node hvisit => h place node (.beside hchild hvisit)

theorem EveryVisited.behind (h : q.EveryVisited schema P table)
    (hbehind : q.behind? = some (name, children))
    (htarget : traversalTarget? schema table name = some target) (hchild : child ∈ children) :
    child.EveryVisited schema P target :=
  fun place node hvisit => h place node (.behind hbehind htarget hchild hvisit)

/-- A node is visited first, and then what stands in it. -/
theorem everyVisited_iff : q.EveryVisited schema P table ↔ P table q ∧
    (∀ child ∈ q.beside, child.EveryVisited schema P table) ∧
    ∀ name children, q.behind? = some (name, children) →
      ∀ target, traversalTarget? schema table name = some target →
        ∀ child ∈ children, child.EveryVisited schema P target := by
  constructor
  · intro h
    exact ⟨h.root, fun _ => h.beside, fun _ _ hbehind _ htarget _ => h.behind hbehind htarget⟩
  · intro ⟨hroot, hbeside, hbehind⟩ place node hvisit
    cases hvisit with
    | here => exact hroot
    | beside hchild hvisit => exact hbeside _ hchild place node hvisit
    | behind htraversal htarget hchild hvisit =>
      exact hbehind _ _ htraversal _ htarget _ hchild place node hvisit

/-- In a tree without others inside it, the node itself is visited. -/
theorem everyVisited_of_leaf (hbeside : q.beside = []) (hbehind : q.behind? = none)
    (h : P table q) : q.EveryVisited schema P table := by
  refine everyVisited_iff.mpr ⟨h, by simp [hbeside], fun name children hsome => ?_⟩
  rw [hbehind] at hsome
  cases hsome

end EveryVisited

theorem traversalTarget_eq_ok {schema : Schema} {table name target : String}
    (h : traversalTarget schema table name = .ok target) :
    traversalTarget? schema table name = some target := by
  unfold traversalTarget at h
  split at h
  · rename_i found hfound
    rw [hfound, Except.ok.inj h]
  · split at h <;> cases h

theorem promoteIfAny_isSome {schema : Schema} {table : String} {inner promoted : Option Query}
    (h : promoteIfAny schema table inner = .ok promoted) : inner.isSome = promoted.isSome := by
  cases inner with
  | none =>
    rw [promoteIfAny] at h
    cases h
    rfl
  | some q =>
    rw [promoteIfAny] at h
    obtain ⟨p, -, rfl⟩ := map_eq_ok h
    rfl

end Query

namespace View

/-! ## Reading comparisons -/

/-- A way to read the comparison of a field of an object with a literal. -/
abbrev Comparing := Located → String → CompareOp → Literal → Except EvalError Bool

mutual

/-- An object satisfies a tree, its comparisons being read in a given way. -/
def evaluate (v : View) (compares : Comparing) : Query → Located → Except EvalError Bool
  | .comparison field op expected, o => compares o field op expected
  | .allOf children, o => evaluateAll v compares children o
  | .anyOf children, o => evaluateAny v compares children o
  | .negated inner, o => do return !(← evaluate v compares inner o)
  | .link quantifier name filter inner, o => do
    let targets ← passing (evaluateIfAny v compares filter) (← v.linked o name)
    let hits ← passing (evaluateIfAny v compares inner) targets
    let quantifier := if inner.isSome then quantifier else quantifier.existence
    return quantifier.holds hits.length targets.length
  | .transitiveLink name depth inner, o => do
    let hits ← passing (evaluateIfAny v compares inner) (← v.reached o name depth)
    return !hits.isEmpty
  | .linkCount name filter op count, o => do
    let targets ← passing (evaluateIfAny v compares filter) (← v.linked o name)
    op.holdsForCount targets.length count
  | .linkCountRange name filter range, o => do
    let targets ← passing (evaluateIfAny v compares filter) (← v.linked o name)
    return range.hasCount targets.length
  | leaf, o => v.holds leaf o

/-- An object satisfies all trees, their comparisons being read in a given way. -/
def evaluateAll (v : View) (compares : Comparing) : List Query → Located → Except EvalError Bool
  | [], _ => .ok true
  | child :: rest, o => do
    if ← evaluate v compares child o then evaluateAll v compares rest o else return false

/-- An object satisfies some tree, their comparisons being read in a given way. -/
def evaluateAny (v : View) (compares : Comparing) : List Query → Located → Except EvalError Bool
  | [], _ => .ok false
  | child :: rest, o => do
    if ← evaluate v compares child o then return true else evaluateAny v compares rest o

/-- An object satisfies a tree that may be missing, its comparisons being read in a given way. -/
def evaluateIfAny (v : View) (compares : Comparing) :
    Option Query → Located → Except EvalError Bool
  | none, _ => .ok true
  | some inner, o => evaluate v compares inner o

end

attribute [local simp] evaluate evaluateAll evaluateAny evaluateIfAny

/-- The comparison of stored values. -/
def comparesValues : Comparing :=
  fun o field op expected => .ok (hasValue o.object field (op.holds · expected))

/-- The comparison of identities where the field is one: of the object, or of those behind a link
or a group. -/
def comparesIdentities (v : View) : Comparing :=
  fun o field op expected =>
    let kind := v.schema.fieldKind o.table field
    if op = .eq ∧ Schema.isSystemField field then .ok (o.object.id == expected.asText)
    else if op = .eq ∧ (kind.isLink ∨ kind = .group) then do
      return (← v.linked o field).any (·.object.id == expected.asText)
    else comparesValues o field op expected

/-! ## Relations between results -/

/-- The relation is kept by steps in order. -/
structure Carries (R : {α : Type} → Except EvalError α → Except EvalError α → Prop) : Prop where
  refl : ∀ {α : Type} (r : Except EvalError α), R r r
  bind : ∀ {α β : Type} {r r' : Except EvalError α} {f f' : α → Except EvalError β}, R r r' →
    (∀ a, r = .ok a → R (f a) (f' a)) → R (r >>= f) (r' >>= f')

/-- Where the first result is there, so is the second, and they are the same. -/
def Below {α : Type} (r r' : Except EvalError α) : Prop :=
  ∀ a, r = .ok a → r' = .ok a

theorem below_carries : Carries Below where
  refl _ _ h := h
  bind h hf b hb := by
    obtain ⟨a, ha, hb⟩ := bind_eq_ok hb
    rw [h a ha]
    exact hf a ha b hb

theorem above_carries : Carries fun r r' => Below r' r where
  refl _ _ h := h
  bind h hf b hb := by
    obtain ⟨a, ha, hb⟩ := bind_eq_ok hb
    have ha := h a ha
    rw [ha]
    exact hf a ha b hb

section Carrying

variable {R : {α : Type} → Except EvalError α → Except EvalError α → Prop}

/-- Tests that are related keep lists that are related. -/
theorem Carries.passing (hR : Carries R) {test test' : Located → Except EvalError Bool}
    {objects : List Located} (h : ∀ o ∈ objects, R (test o) (test' o)) :
    R (passing test objects) (passing test' objects) := by
  induction objects with
  | nil => exact hR.refl _
  | cons first rest ih =>
    obtain ⟨hfirst, hrest⟩ := List.forall_mem_cons.mp h
    rw [View.passing, View.passing]
    exact hR.bind hfirst fun _ _ => hR.bind (ih hrest) fun _ _ => hR.refl _

end Carrying

/-! ## Comparisons read as tests of values -/

variable {v : View} {o : Located}

theorem passing_congr {test test' : Located → Except EvalError Bool} {objects : List Located}
    (h : ∀ o, test o = test' o) : passing test objects = passing test' objects := by
  rw [funext h]

mutual

/-- A tree whose comparisons are read as tests of values is satisfied where it holds. -/
theorem evaluate_values : ∀ (q : Query) (o : Located), v.evaluate comparesValues q o = v.holds q o
  | .comparison field op expected, o => by
    rw [evaluate, holds, comparesValues]
  | .allOf children, o => by
    rw [evaluate, holds, evaluateAll_values children o]
  | .anyOf children, o => by
    rw [evaluate, holds, evaluateAny_values children o]
  | .negated inner, o => by
    rw [evaluate, holds, evaluate_values inner o]
  | .link quantifier name filter inner, o => by
    rw [evaluate, holds]
    simp only [passing_congr (evaluateIfAny_values filter), passing_congr (evaluateIfAny_values inner)]
  | .transitiveLink name depth inner, o => by
    rw [evaluate, holds]
    simp only [passing_congr (evaluateIfAny_values inner)]
  | .linkCount name filter op count, o => by
    rw [evaluate, holds]
    simp only [passing_congr (evaluateIfAny_values filter)]
  | .linkCountRange name filter range, o => by
    rw [evaluate, holds]
    simp only [passing_congr (evaluateIfAny_values filter)]
  | .everything, _ | .nothing, _ | .interval _ _, _ | .multiValue _ _, _ | .linkId _ _ _, _
  | .objectId _, _ | .fieldCount _ _ _, _ | .fieldCountRange _ _, _ | .pathCountRange _ _, _
  | .pathComparison _ _ _, _ => by
    simp

theorem evaluateAll_values : ∀ (children : List Query) (o : Located),
    v.evaluateAll comparesValues children o = v.holdsAll children o
  | [], _ => by
    rw [evaluateAll, holdsAll]
  | child :: rest, o => by
    rw [evaluateAll, holdsAll, evaluate_values child o, evaluateAll_values rest o]

theorem evaluateAny_values : ∀ (children : List Query) (o : Located),
    v.evaluateAny comparesValues children o = v.holdsAny children o
  | [], _ => by
    rw [evaluateAny, holdsAny]
  | child :: rest, o => by
    rw [evaluateAny, holdsAny, evaluate_values child o, evaluateAny_values rest o]

theorem evaluateIfAny_values : ∀ (inner : Option Query) (o : Located),
    v.evaluateIfAny comparesValues inner o = v.holdsIfAny inner o
  | none, _ => by
    rw [evaluateIfAny, holdsIfAny]
  | some inner, o => by
    rw [evaluateIfAny, holdsIfAny, evaluate_values inner o]

end

/-! ## Promotion -/

open Query (traversalTarget? traversalTarget promote promoteAll promoteIfAny promoteComparison
  EveryVisited)

/--
Promotion carries the relation over from the node itself: comparisons and quantified tests are
related to their promotions, and repeated steps stay in one table.
-/
def CarriedOver (v : View) (compares : Comparing)
    (R : {α : Type} → Except EvalError α → Except EvalError α → Prop) (place : String) :
    Query → Prop
  | .comparison field op expected => ∀ q, promoteComparison v.schema place field op expected = .ok q →
      ∀ o : Located, o.table = place → R (compares o field op expected) (v.holds q o)
  | .multiValue quantifier inner => ∀ q, promote v.schema place inner = .ok q → ∀ o : Located,
      o.table = place → R (quantified quantifier o.object inner) (quantified quantifier o.object q)
  | .transitiveLink name _ _ => traversalTarget? v.schema place name = some place
  | _ => True

section Carrying

variable {R : {α : Type} → Except EvalError α → Except EvalError α → Prop} {compares : Comparing}

mutual

/-- Promotion carries a relation between results from the nodes of a tree to the whole tree. -/
theorem promote_carries (hR : Carries R) (hshare : v.schema.GroupsShareTargets) :
    ∀ {table : String} {q p : Query} {o : Located},
    q.EveryVisited v.schema (v.CarriedOver compares R) table →
    promote v.schema table q = .ok p → o.table = table →
    R (v.evaluate compares q o) (v.holds p o)
  | table, .comparison field op expected, p, o, h, hp, ho => by
    have hroot := h.root
    simp only [CarriedOver] at hroot
    rw [promote] at hp
    rw [evaluate]
    exact hroot p hp o ho
  | table, .multiValue quantifier inner, p, o, h, hp, ho => by
    rw [promote] at hp
    obtain ⟨q, hq, hp⟩ := bind_eq_ok hp
    cases hp
    have hroot := h.root
    simp only [CarriedOver] at hroot
    simpa [holds] using hroot q hq o ho
  | table, .allOf children, p, o, h, hp, ho => by
    rw [promote] at hp
    obtain ⟨parts, hparts, hp⟩ := bind_eq_ok hp
    cases hp
    rw [evaluate, holds_and]
    exact promoteAll_carries hR hshare (fun child hchild => h.beside hchild) hparts ho
  | table, .anyOf children, p, o, h, hp, ho => by
    rw [promote] at hp
    obtain ⟨parts, hparts, hp⟩ := bind_eq_ok hp
    cases hp
    rw [evaluate, holds_or]
    exact promoteAny_carries hR hshare (fun child hchild => h.beside hchild) hparts ho
  | table, .negated inner, p, o, h, hp, ho => by
    rw [promote] at hp
    obtain ⟨q, hq, hp⟩ := bind_eq_ok hp
    cases hp
    rw [evaluate, holds_not]
    exact hR.bind (promote_carries hR hshare (h.beside (.head _)) hq ho) fun _ _ => hR.refl _
  | table, .link quantifier name filter inner, p, o, h, hp, ho => by
    rw [promote] at hp
    obtain ⟨target, htarget, hp⟩ := bind_eq_ok hp
    obtain ⟨filter', hfilter, hp⟩ := bind_eq_ok hp
    obtain ⟨inner', hinner, hp⟩ := bind_eq_ok hp
    cases hp
    have htarget := Query.traversalTarget_eq_ok htarget
    obtain ⟨behind, hbehind, htable⟩ := linked_table hshare (ho ▸ htarget)
    rw [evaluate, holds, hbehind]
    refine hR.bind (hR.refl _) fun found hfound => ?_
    cases hfound
    refine hR.bind (hR.passing fun t ht => ?_) fun targets htargets => ?_
    · exact promoteIfAny_carries hR hshare (fun f hf => h.behind rfl htarget
        (List.mem_append_left _ (Option.mem_toList.mpr hf))) hfilter (htable t ht)
    refine hR.bind (hR.passing fun t ht => ?_) fun hits _ => ?_
    · exact promoteIfAny_carries hR hshare (fun i hi => h.behind rfl htarget
        (List.mem_append_right _ (Option.mem_toList.mpr hi))) hinner (htable t (((passing_ok htargets).1 t).mp ht).1)
    · rw [Query.promoteIfAny_isSome hinner]
      exact hR.refl _
  | table, .transitiveLink name depth inner, p, o, h, hp, ho => by
    rw [promote] at hp
    obtain ⟨target, htarget, hp⟩ := bind_eq_ok hp
    obtain ⟨inner', hinner, hp⟩ := bind_eq_ok hp
    cases hp
    have htarget := Query.traversalTarget_eq_ok htarget
    obtain rfl : target = table := Option.some.inj (htarget.symm.trans h.root)
    subst ho
    obtain ⟨reached, hreached, htable⟩ : ∃ found, v.reached o name depth = .ok found ∧
        ∀ b ∈ found, b.table = o.table := reached_table hshare htarget
    rw [evaluate, holds, hreached]
    refine hR.bind (hR.refl _) fun found hfound => ?_
    cases hfound
    refine hR.bind (hR.passing fun t ht => ?_) fun hits _ => hR.refl _
    exact promoteIfAny_carries hR hshare (fun i hi => h.behind rfl htarget (Option.mem_toList.mpr hi)) hinner
      (htable t ht)
  | table, .linkCount name filter op count, p, o, h, hp, ho => by
    rw [promote] at hp
    obtain ⟨target, htarget, hp⟩ := bind_eq_ok hp
    obtain ⟨filter', hfilter, hp⟩ := bind_eq_ok hp
    cases hp
    have htarget := Query.traversalTarget_eq_ok htarget
    obtain ⟨behind, hbehind, htable⟩ := linked_table hshare (ho ▸ htarget)
    rw [evaluate, holds, hbehind]
    refine hR.bind (hR.refl _) fun found hfound => ?_
    cases hfound
    refine hR.bind (hR.passing fun t ht => ?_) fun targets _ => hR.refl _
    exact promoteIfAny_carries hR hshare (fun f hf => h.behind rfl htarget (Option.mem_toList.mpr hf)) hfilter
      (htable t ht)
  | table, .linkCountRange name filter range, p, o, h, hp, ho => by
    rw [promote] at hp
    obtain ⟨target, htarget, hp⟩ := bind_eq_ok hp
    obtain ⟨filter', hfilter, hp⟩ := bind_eq_ok hp
    cases hp
    have htarget := Query.traversalTarget_eq_ok htarget
    obtain ⟨behind, hbehind, htable⟩ := linked_table hshare (ho ▸ htarget)
    rw [evaluate, holds, hbehind]
    refine hR.bind (hR.refl _) fun found hfound => ?_
    cases hfound
    refine hR.bind (hR.passing fun t ht => ?_) fun targets _ => hR.refl _
    exact promoteIfAny_carries hR hshare (fun f hf => h.behind rfl htarget (Option.mem_toList.mpr hf)) hfilter
      (htable t ht)
  | table, .linkId quantifier name id, p, o, h, hp, ho => by
    rw [promote] at hp
    obtain ⟨target, -, hp⟩ := bind_eq_ok hp
    cases hp
    simpa using hR.refl _
  | table, .everything, p, o, h, hp, ho | table, .nothing, p, o, h, hp, ho
  | table, .interval _ _, p, o, h, hp, ho | table, .objectId _, p, o, h, hp, ho
  | table, .fieldCount _ _ _, p, o, h, hp, ho | table, .fieldCountRange _ _, p, o, h, hp, ho
  | table, .pathCountRange _ _, p, o, h, hp, ho
  | table, .pathComparison _ _ _, p, o, h, hp, ho => by
    unfold promote at hp
    cases hp
    simpa using hR.refl _
termination_by structural _ q => q

theorem promoteAll_carries (hR : Carries R) (hshare : v.schema.GroupsShareTargets) :
    ∀ {table : String} {children parts : List Query} {o : Located},
    (∀ child ∈ children, child.EveryVisited v.schema (v.CarriedOver compares R) table) →
    promoteAll v.schema table children = .ok parts → o.table = table →
    R (v.evaluateAll compares children o) (v.holdsAll parts o)
  | table, [], parts, o, h, hp, ho => by
    rw [promoteAll] at hp
    cases hp
    rw [evaluateAll, holdsAll]
    exact hR.refl _
  | table, child :: rest, parts, o, h, hp, ho => by
    rw [promoteAll] at hp
    obtain ⟨first, hfirst, hp⟩ := bind_eq_ok hp
    obtain ⟨others, hothers, hp⟩ := bind_eq_ok hp
    cases hp
    obtain ⟨hchild, hrest⟩ := List.forall_mem_cons.mp h
    rw [evaluateAll, holdsAll]
    refine hR.bind (promote_carries hR hshare hchild hfirst ho) fun passes _ => ?_
    cases passes with
    | false => exact hR.refl _
    | true => exact promoteAll_carries hR hshare hrest hothers ho
termination_by structural _ children => children

theorem promoteAny_carries (hR : Carries R) (hshare : v.schema.GroupsShareTargets) :
    ∀ {table : String} {children parts : List Query} {o : Located},
    (∀ child ∈ children, child.EveryVisited v.schema (v.CarriedOver compares R) table) →
    promoteAll v.schema table children = .ok parts → o.table = table →
    R (v.evaluateAny compares children o) (v.holdsAny parts o)
  | table, [], parts, o, h, hp, ho => by
    rw [promoteAll] at hp
    cases hp
    rw [evaluateAny, holdsAny]
    exact hR.refl _
  | table, child :: rest, parts, o, h, hp, ho => by
    rw [promoteAll] at hp
    obtain ⟨first, hfirst, hp⟩ := bind_eq_ok hp
    obtain ⟨others, hothers, hp⟩ := bind_eq_ok hp
    cases hp
    obtain ⟨hchild, hrest⟩ := List.forall_mem_cons.mp h
    rw [evaluateAny, holdsAny]
    refine hR.bind (promote_carries hR hshare hchild hfirst ho) fun passes _ => ?_
    cases passes with
    | false => exact promoteAny_carries hR hshare hrest hothers ho
    | true => exact hR.refl _
termination_by structural _ children => children

theorem promoteIfAny_carries (hR : Carries R) (hshare : v.schema.GroupsShareTargets) :
    ∀ {table : String} {inner p : Option Query} {o : Located},
    (∀ q ∈ inner, q.EveryVisited v.schema (v.CarriedOver compares R) table) →
    promoteIfAny v.schema table inner = .ok p → o.table = table →
    R (v.evaluateIfAny compares inner o) (v.holdsIfAny p o)
  | table, none, p, o, h, hp, ho => by
    rw [promoteIfAny] at hp
    cases hp
    rw [evaluateIfAny, holdsIfAny]
    exact hR.refl _
  | table, some inner, p, o, h, hp, ho => by
    rw [promoteIfAny] at hp
    obtain ⟨q, hq, rfl⟩ := map_eq_ok hp
    rw [evaluateIfAny, holdsIfAny]
    exact promote_carries hR hshare (h inner rfl) hq ho
termination_by structural _ inner => inner

end

end Carrying

/-! ## Identity tests -/

open Query (requireEquality objectIdentity groupIdentity)

theorem any_eraseDupsBy {α : Type} {same : α → α → Bool} {p : α → Bool}
    (hsame : ∀ a b, same a b = true → p a = p b) (as : List α) :
    (as.eraseDupsBy same).any p = as.any p := by
  induction hlength : as.length using Nat.strongRecOn generalizing as with
  | ind n ih =>
    cases as with
    | nil => simp
    | cons first rest =>
      subst hlength
      rw [List.eraseDupsBy_cons, List.any_cons, List.any_cons,
        ih _ (Nat.lt_succ_of_le (List.length_filter_le _ rest)) _ rfl]
      cases hfirst : p first with
      | true => rfl
      | false =>
        rw [Bool.false_or, Bool.false_or, List.any_filter]
        refine List.any_congr rfl fun a => ?_
        cases ha : same a first with
        | false => rfl
        | true => simp [hsame a first ha, hfirst]

/-- Some object behind the links of an object has an identity. -/
theorem linked_any {links : List String} {name id : String}
    (hlinks : v.linksOf o.table name = .ok links) :
    (do return (← v.linked o name).any (·.object.id == id)) =
      (.ok (links.any fun link => (v.behindLink o link).any (·.object.id == id)) :
        Except EvalError Bool) := by
  have hsame : ∀ a b : Located, a.same b = true →
      (a.object.id == id) = (b.object.id == id) := by
    intro a b h
    simp only [Located.same, Bool.and_eq_true, beq_iff_eq] at h
    rw [h.2]
  rw [linked, hlinks]
  exact congrArg Except.ok ((any_eraseDupsBy hsame _).trans List.any_flatMap)

theorem linksOf_link {name : String} (h : (v.schema.fieldKind o.table name).isLink = true) :
    v.linksOf o.table name = .ok [name] := by
  unfold linksOf
  cases hkind : v.schema.fieldKind o.table name <;> rw [hkind] at h <;> first | rfl | cases h

/-- An identity test of a link looks for an object behind it. -/
theorem holds_linkId {name id : String} :
    v.holds (.linkId .any name id) o = do return (← v.linked o name).any (·.object.id == id) := by
  rw [holds]
  refine bind_congr fun targets => congrArg pure ?_
  rw [Quantifier.holds, Bool.eq_iff_iff, decide_eq_true_eq, List.countP_pos_iff, List.any_eq_true]

/-- An identity test of a group looks for an object behind one of its links. -/
theorem holds_groupIdentity {group id : String} {q : Query}
    (hkind : v.schema.fieldKind o.table group = .group)
    (hq : groupIdentity v.schema o.table group id = .ok q) :
    v.holds q o = do return (← v.linked o group).any (·.object.id == id) := by
  obtain rfl : Query.or ((v.schema.groupLinks o.table group).map (.linkId .any · id)) = q := by
    unfold groupIdentity at hq
    split at hq
    · cases hq
    · exact Except.ok.inj hq
  have hlinks : v.linksOf o.table group = .ok (v.schema.groupLinks o.table group) := by
    rw [linksOf, hkind]
  rw [linked_any hlinks, holds_or]
  have hall : ∀ link ∈ v.schema.groupLinks o.table group,
      (v.schema.fieldKind o.table link).isLink = true := fun _ => Schema.groupLinks_isLink
  generalize v.schema.groupLinks o.table group = links at hall
  induction links with
  | nil => rw [List.map_nil, holdsAny]; rfl
  | cons link rest ih =>
    obtain ⟨hlink, hrest⟩ := List.forall_mem_cons.mp hall
    rw [List.map_cons, holdsAny, holds_linkId, linked_any (linksOf_link hlink), ih hrest]
    simp only [List.any_cons, List.any_nil, Bool.or_false]
    cases (v.behindLink o link).any (·.object.id == id) <;> rfl

theorem eq_of_requireEquality {op : CompareOp} {field : String}
    (h : requireEquality op field = .ok ()) : op = .eq := by
  unfold requireEquality at h
  split at h
  · assumption
  · cases h

/-- A comparison promoted is satisfied like the comparison, read as one of identities. -/
theorem comparesIdentities_promoted {field : String} {op : CompareOp} {expected : Literal}
    {q : Query} (hq : promoteComparison v.schema o.table field op expected = .ok q) :
    v.comparesIdentities o field op expected = v.holds q o := by
  unfold promoteComparison at hq
  unfold comparesIdentities
  split at hq
  · rename_i hsystem
    have hkind : v.schema.fieldKind o.table field = .system := Schema.fieldKind_system hsystem
    unfold objectIdentity at hq
    split at hq
    · cases hq
      simp [hsystem, holds]
    · cases hq
    · rename_i hequal _
      have hequal : op ≠ .eq := hequal
      cases hq
      simp [hequal, holds, comparesValues]
  · rename_i hsystem
    split at hq
    · rename_i hkind
      obtain ⟨_, hequal, hq⟩ := bind_eq_ok hq
      cases hq
      simp [eq_of_requireEquality hequal, hsystem, hkind, FieldKind.isLink, holds_linkId]
    · rename_i hkind
      obtain ⟨_, hequal, hq⟩ := bind_eq_ok hq
      cases hq
      simp [eq_of_requireEquality hequal, hsystem, hkind, FieldKind.isLink, holds_linkId]
    · rename_i hkind
      obtain ⟨_, hequal, hq⟩ := bind_eq_ok hq
      simp [eq_of_requireEquality hequal, hsystem, hkind, holds_groupIdentity hkind hq]
    · rename_i hlink hcross hgroup
      cases hq
      have hgroup : v.schema.fieldKind o.table field ≠ .group := hgroup
      have hnolink : (v.schema.fieldKind o.table field).isLink = false := by
        unfold FieldKind.isLink
        split <;> simp_all
      simp [hsystem, hnolink, hgroup, holds, comparesValues]

end View

namespace Query

/-- The comparison of the field of a table is one of identities. -/
def ComparesIdentity (schema : Schema) (table : String) : Query → Prop
  | .comparison field _ _ => Schema.isSystemField field = true ∨
      (schema.fieldKind table field).isLink = true ∨ schema.fieldKind table field = .group
  | _ => False

/-- The node tests no identities value by value, and leads back to its table if it repeats steps. -/
def IsPromotable (schema : Schema) (place : String) : Query → Prop
  | .multiValue _ inner => ¬inner.ComparesIdentity schema place
  | .transitiveLink name _ _ => traversalTarget? schema place name = some place
  | _ => True

theorem promote_value {schema : Schema} {place field : String} {op : CompareOp} {expected : Literal}
    {q : Query} (hplain : ¬ComparesIdentity schema place (.comparison field op expected))
    (hq : promote schema place (.comparison field op expected) = .ok q) :
    q = .comparison field op expected := by
  simp only [ComparesIdentity, not_or] at hplain
  obtain ⟨hsystem, hlink, hgroup⟩ := hplain
  rw [promote, promoteComparison, if_neg hsystem] at hq
  split at hq
  · simp_all [FieldKind.isLink]
  · simp_all [FieldKind.isLink]
  · exact absurd ‹_› hgroup
  · exact (Except.ok.inj hq).symm

end Query

namespace View

open Query (promote traversalTarget? EveryVisited IsPromotable)

variable {v : View} {o : Located} {table : String} {q promoted : Query} {b : Bool}

/--
An object for which a tree has a truth value, comparisons of the object, of a link or of a group
being read as comparisons of identities, has the same truth value for the promoted tree.
-/
theorem promote_keeps_meaning (hshare : v.schema.GroupsShareTargets)
    (hq : q.EveryVisited v.schema (IsPromotable v.schema) table)
    (hpromote : promote v.schema table q = .ok promoted) (ho : o.table = table)
    (hmeans : v.evaluate v.comparesIdentities q o = .ok b) : v.holds promoted o = .ok b := by
  refine promote_carries below_carries hshare (fun place node hvisit => ?_) hpromote ho b hmeans
  have hnode := hq place node hvisit
  cases node with
  | comparison field op expected =>
    intro p hp o ho b hb
    subst ho
    rwa [← comparesIdentities_promoted hp]
  | multiValue quantifier inner =>
    intro p hp o ho b hb
    cases inner with
    | comparison field op expected => rwa [Query.promote_value hnode hp]
    | interval field range =>
      unfold promote at hp
      cases hp
      exact hb
    | _ => cases hb
  | transitiveLink name depth inner => exact hnode
  | _ => trivial

/-! ### A schema with a group -/

/-- Persons with links to other persons, and a group of these links. -/
def firm : View :=
  ⟨⟨.ofList [("Person", ⟨.ofList [("Boss", .link "Person"), ("Deputy", .link "Person"),
    ("Name", .scalar .text), ("Peers", .group ["Boss", "Deputy"])]⟩)]⟩, Compiler.staffStore⟩

theorem firm_sharesTargets : firm.schema.GroupsShareTargets := by
  have htargets : ∀ fields ∈ firm.schema.tables.values, ∀ field ∈ fields.fields.values,
      ∀ found ∈ field.target, found = "Person" := by decide
  exact Schema.groupsShareTargets_of_targets htargets

/-- Nobody above the person has it as a peer, a peer of it is stored as `a`, and all its names are
Bob. -/
def peerless : Query :=
  .allOf [.transitiveLink "Boss" none (some (.negated (.comparison "Peers" .eq (.text "b")))),
    .link .any "Peers" (some (.comparison "_ID" .eq (.text "a"))) none,
    .multiValue .all (.comparison "Name" .eq (.text "Bob"))]

theorem peerless_promotable :
    peerless.EveryVisited firm.schema (IsPromotable firm.schema) "Person" := by
  have hboss : traversalTarget? firm.schema "Person" "Boss" = some "Person" := by decide
  have hleaf : ∀ table field op expected, Query.EveryVisited firm.schema
      (IsPromotable firm.schema) table (.comparison field op expected) := fun _ _ _ _ =>
    Query.everyVisited_of_leaf rfl rfl trivial
  refine Query.everyVisited_iff.mpr ⟨trivial, ?_, by simp [peerless, Query.behind?]⟩
  simp only [peerless, Query.beside, List.forall_mem_cons]
  refine ⟨?_, ?_, ?_, by simp⟩
  · refine Query.everyVisited_iff.mpr ⟨hboss, by simp [Query.beside], ?_⟩
    intro name children hbehind target _ child hchild
    obtain ⟨rfl, rfl⟩ := Prod.ext_iff.mp (Option.some.inj hbehind)
    obtain rfl := List.mem_singleton.mp hchild
    exact Query.everyVisited_iff.mpr ⟨trivial, by simpa [Query.beside] using hleaf _ _ _ _,
      by simp [Query.behind?]⟩
  · refine Query.everyVisited_iff.mpr ⟨trivial, by simp [Query.beside], ?_⟩
    intro name children hbehind target _ child hchild
    obtain ⟨rfl, rfl⟩ := Prod.ext_iff.mp (Option.some.inj hbehind)
    obtain rfl := List.mem_singleton.mp hchild
    exact hleaf _ _ _ _
  · have hname : ¬(Schema.isSystemField "Name" = true ∨
        (firm.schema.fieldKind "Person" "Name").isLink = true ∨
          firm.schema.fieldKind "Person" "Name" = .group) := by decide
    exact Query.everyVisited_iff.mpr ⟨hname, by simpa [Query.beside] using hleaf _ _ _ _,
      by simp [Query.behind?]⟩

/-- The tree is promoted inside a repeated link, a group and a negation, and Bob satisfies it. -/
theorem promote_keeps_meaning_peers : ∃ promoted,
    promote firm.schema "Person" peerless = .ok promoted ∧
      firm.evaluate firm.comparesIdentities peerless ⟨"Person", Compiler.bob⟩ = .ok true ∧
      firm.holds promoted ⟨"Person", Compiler.bob⟩ = .ok true := by
  have hrun : (promote firm.schema "Person" peerless).toOption.isSome = true := by decide +kernel
  have hmeans : (firm.evaluate firm.comparesIdentities peerless
      ⟨"Person", Compiler.bob⟩).toOption = some true := by decide +kernel
  obtain ⟨promoted, hpromote⟩ := Option.isSome_iff_exists.mp hrun
  have hpromote := Compiler.toOption_eq_some hpromote
  have hmeans := Compiler.toOption_eq_some hmeans
  exact ⟨promoted, hpromote, hmeans,
    promote_keeps_meaning firm_sharesTargets peerless_promotable hpromote rfl hmeans⟩

end View

end LinkQuery
