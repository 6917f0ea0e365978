import LinkQuery.Proofs.WellFormed
import LinkQuery.Query.Promotion
import LinkQuery.Store.Evaluation
/-!
# What combinations of trees mean

A conjunction or a disjunction flattens its parts. Whatever can be read off a list of trees part by
part does not see the flattening: a combination holds like the list of its parts, it uses their
names, and its promotion is the combination of their promotions.

Main statements:
- `Query.Combines.of_parts`: what the parts have, their combination has.
- `Query.Combines.same`: a combination is read like its parts.
- `Query.Combines.promote`: promoting a combination promotes its parts.
- `View.holds_and`, `View.holds_or`: evaluation in order.
-/
namespace LinkQuery

namespace Query

/-! ## Flattening -/

/-- The trees without their nesting in one kind of node and without its trivial tree. -/
inductive Flattens (compound : List Query → Query) (trivial : Query) :
    List Query → List Query → Prop where
  | nil : Flattens compound trivial [] []
  | nested {children flat : List Query} (parts : List Query)
      (rest : Flattens compound trivial children flat) :
      Flattens compound trivial (compound parts :: children) (parts ++ flat)
  | trivial {children flat : List Query} (rest : Flattens compound trivial children flat) :
      Flattens compound trivial (trivial :: children) flat
  | other {children flat : List Query} (first : Query)
      (rest : Flattens compound trivial children flat) :
      Flattens compound trivial (first :: children) (first :: flat)

/-- A way to combine trees into one node, flattened. -/
def Combines (compound : List Query → Query) (trivial : Query) (combine : List Query → Query) :
    Prop :=
  ∀ children, ∃ flat, Flattens compound trivial children flat ∧
    (flat = [] ∧ combine children = trivial ∨ flat = [combine children] ∨
      combine children = compound flat)

theorem and_combines : Combines .allOf .everything and := by
  intro children
  refine ⟨conjuncts children, ?_, ?_⟩
  · fun_induction conjuncts children with
    | case1 => exact .nil
    | case2 nested rest ih => exact .nested nested ih
    | case3 rest ih => exact .trivial ih
    | case4 first rest _ _ ih => exact .other first ih
  · unfold and
    split
    · rename_i hparts
      exact Or.inl ⟨hparts, rfl⟩
    · rename_i only hparts
      exact Or.inr (Or.inl hparts)
    · exact Or.inr (Or.inr rfl)

theorem or_combines : Combines .anyOf .nothing or := by
  intro children
  refine ⟨disjuncts children, ?_, ?_⟩
  · fun_induction disjuncts children with
    | case1 => exact .nil
    | case2 nested rest ih => exact .nested nested ih
    | case3 rest ih => exact .trivial ih
    | case4 first rest _ _ ih => exact .other first ih
  · unfold or
    split
    · rename_i hparts
      exact Or.inl ⟨hparts, rfl⟩
    · rename_i only hparts
      exact Or.inr (Or.inl hparts)
    · exact Or.inr (Or.inr rfl)

/-! ## Properties of parts -/

section Parts

variable {compound : List Query → Query} {trivial : Query} {combine : List Query → Query}
  {children flat : List Query} {P Q : Query → Prop}

/-- Flattening keeps what nodes pass on to their parts. -/
theorem Flattens.forall_mem (hflat : Flattens compound trivial children flat)
    (hparts : ∀ parts, P (compound parts) → ∀ part ∈ parts, P part)
    (h : ∀ child ∈ children, P child) : ∀ part ∈ flat, P part := by
  induction hflat with
  | nil => exact h
  | nested parts _ ih =>
    obtain ⟨hfirst, hrest⟩ := List.forall_mem_cons.mp h
    exact List.forall_mem_append.mpr ⟨hparts parts hfirst, ih hrest⟩
  | trivial _ ih => exact ih (List.forall_mem_cons.mp h).2
  | other first _ ih =>
    obtain ⟨hfirst, hrest⟩ := List.forall_mem_cons.mp h
    exact List.forall_mem_cons.mpr ⟨hfirst, ih hrest⟩

/-- A combination is the trivial tree, one of the flat parts or the node of all of them. -/
theorem Combines.of_parts (hcombine : Combines compound trivial combine)
    (hparts : ∀ parts, P (compound parts) → ∀ part ∈ parts, P part) (htrivial : Q trivial)
    (hone : ∀ q, P q → Q q) (hmany : ∀ flat, (∀ part ∈ flat, P part) → Q (compound flat))
    (h : ∀ child ∈ children, P child) : Q (combine children) := by
  obtain ⟨flat, hflat, hcases⟩ := hcombine children
  have hmembers := hflat.forall_mem hparts h
  rcases hcases with ⟨-, heq⟩ | rfl | heq
  · rwa [heq]
  · exact hone _ (hmembers _ (.head _))
  · rw [heq]
    exact hmany flat hmembers

end Parts

/-! ## Reading a list part by part -/

/-- A reading of lists of trees part by part that sees through one kind of node. -/
structure Readable {β : Type} (compound : List Query → Query) (trivial : Query)
    (read : List Query → β) : Prop where
  append : ∃ join : β → β → β, ∀ front back, read (front ++ back) = join (read front) (read back)
  trivial : read [trivial] = read []
  compound : ∀ parts, read [compound parts] = read parts

section Readable

variable {β : Type} {compound : List Query → Query} {trivial : Query}
  {combine : List Query → Query} {read : List Query → β}

theorem Readable.congr (h : Readable compound trivial read) {front front' back back' : List Query}
    (hfront : read front = read front') (hback : read back = read back') :
    read (front ++ back) = read (front' ++ back') := by
  obtain ⟨join, happend⟩ := h.append
  rw [happend, happend, hfront, hback]

theorem Readable.cons (h : Readable compound trivial read) (first : Query)
    {back back' : List Query} (hback : read back = read back') :
    read (first :: back) = read (first :: back') := by
  simpa using h.congr (show read [first] = read [first] from rfl) hback

theorem Readable.skip (h : Readable compound trivial read) {back back' : List Query}
    (hback : read back = read back') : read back = read (trivial :: back') := by
  simpa using h.congr h.trivial.symm hback

theorem Flattens.same (h : Readable compound trivial read) {children flat : List Query}
    (hflat : Flattens compound trivial children flat) : read flat = read children := by
  induction hflat with
  | nil => rfl
  | nested parts _ ih => exact h.congr (h.compound parts).symm ih
  | trivial _ ih => exact h.skip ih
  | other first _ ih => exact h.cons first ih

/-- A combination is read like its parts. -/
theorem Combines.same (hcombine : Combines compound trivial combine)
    (h : Readable compound trivial read) (children : List Query) :
    read [combine children] = read children := by
  obtain ⟨flat, hflat, ⟨rfl, htrivial⟩ | hone | hcompound⟩ := hcombine children
  · rw [htrivial, h.trivial, hflat.same h]
  · rw [← hone, hflat.same h]
  · rw [hcompound, h.compound, hflat.same h]

end Readable

/-! ## Nodes -/

theorem nodesOfAll_flatMap {α : Type} (f : Query → List α) (children : List Query) :
    (nodesOfAll children).flatMap f = children.flatMap fun child => child.nodes.flatMap f := by
  induction children with
  | nil => rfl
  | cons child rest ih => rw [nodesOfAll, List.flatMap_append, ih, List.flatMap_cons]

theorem nodesIfAny_flatMap {α : Type} (f : Query → List α) (q : Option Query) :
    (nodesIfAny q).flatMap f = q.toList.flatMap fun inner => inner.nodes.flatMap f := by
  cases q <;> simp [nodesIfAny]

/-- What the nodes hold is read part by part, if conjunctions themselves hold nothing. -/
theorem nodes_readable_and {α : Type} (f : Query → List α) (htrivial : f .everything = [])
    (hcompound : ∀ parts, f (.allOf parts) = []) :
    Readable .allOf .everything (List.flatMap fun q => q.nodes.flatMap f) where
  append := ⟨_, fun _ _ => List.flatMap_append⟩
  trivial := by simp [nodes, htrivial]
  compound parts := by simp [nodes, hcompound, nodesOfAll_flatMap]

/-- What the nodes hold is read part by part, if disjunctions themselves hold nothing. -/
theorem nodes_readable_or {α : Type} (f : Query → List α) (htrivial : f .nothing = [])
    (hcompound : ∀ parts, f (.anyOf parts) = []) :
    Readable .anyOf .nothing (List.flatMap fun q => q.nodes.flatMap f) where
  append := ⟨_, fun _ _ => List.flatMap_append⟩
  trivial := by simp [nodes, htrivial]
  compound parts := by simp [nodes, hcompound, nodesOfAll_flatMap]

/-- The names that a tree uses, in the order of its nodes. -/
def names (q : Query) : List String :=
  q.nodes.flatMap ownNames

theorem names_readable_and : Readable .allOf .everything (List.flatMap names) :=
  nodes_readable_and ownNames rfl fun _ => rfl

theorem names_readable_or : Readable .anyOf .nothing (List.flatMap names) :=
  nodes_readable_or ownNames rfl fun _ => rfl

/-! ## Promotion -/

section Promotion

variable {schema : Schema} {table : String}

theorem promoteAll_eq_mapM (children : List Query) :
    promoteAll schema table children = children.mapM (promote schema table) := by
  induction children with
  | nil => rw [promoteAll, List.mapM_nil]; rfl
  | cons first rest ih => rw [promoteAll, List.mapM_cons, ih]

theorem promoteAll_append {front back qs : List Query}
    (h : promoteAll schema table (front ++ back) = .ok qs) :
    ∃ first second, promoteAll schema table front = .ok first ∧
      promoteAll schema table back = .ok second ∧ qs = first ++ second := by
  induction front generalizing qs with
  | nil => exact ⟨[], qs, by rw [promoteAll], h, rfl⟩
  | cons child rest ih =>
    rw [List.cons_append, promoteAll] at h
    obtain ⟨q, hq, h⟩ := bind_eq_ok h
    obtain ⟨others, hothers, h⟩ := bind_eq_ok h
    cases h
    obtain ⟨first, second, hfirst, hsecond, rfl⟩ := ih hothers
    refine ⟨q :: first, second, ?_, hsecond, rfl⟩
    rw [promoteAll, hq, hfirst]
    rfl

/-- Promoting a combination promotes its parts, and the promotion is read like theirs. -/
theorem Combines.promote {compound : List Query → Query} {trivial : Query}
    {combine : List Query → Query} (hcombine : Combines compound trivial combine)
    (htrivial : promote schema table trivial = .ok trivial)
    (hcompound : ∀ parts, promote schema table (compound parts) =
      (promoteAll schema table parts).map combine)
    {children : List Query} {q : Query} (h : promote schema table (combine children) = .ok q) :
    ∃ parts, promoteAll schema table children = .ok parts ∧
      ∀ {β : Type} {read : List Query → β}, Readable compound trivial read →
        read [q] = read parts := by
  have hparts : ∀ {children flat qs : List Query}, Flattens compound trivial children flat →
      promoteAll schema table flat = .ok qs →
      ∃ parts, promoteAll schema table children = .ok parts ∧
        ∀ {β : Type} {read : List Query → β}, Readable compound trivial read →
          read qs = read parts := by
    intro children flat qs hflat
    induction hflat generalizing qs with
    | nil => exact fun h => ⟨qs, h, fun _ => rfl⟩
    | nested nested _ ih =>
      intro h
      obtain ⟨first, second, hfirst, hsecond, rfl⟩ := promoteAll_append h
      obtain ⟨parts, hparts, hread⟩ := ih hsecond
      refine ⟨combine first :: parts, ?_, fun hr => ?_⟩
      · rw [promoteAll, hcompound, hfirst, hparts]
        rfl
      · exact hr.congr (hcombine.same hr first).symm (hread hr)
    | trivial _ ih =>
      intro h
      obtain ⟨parts, hparts, hread⟩ := ih h
      refine ⟨trivial :: parts, ?_, fun hr => ?_⟩
      · rw [promoteAll, htrivial, hparts]
        rfl
      · exact hr.skip (hread hr)
    | other first _ ih =>
      intro h
      rw [promoteAll] at h
      obtain ⟨p, hp, h⟩ := bind_eq_ok h
      obtain ⟨others, hothers, h⟩ := bind_eq_ok h
      cases h
      obtain ⟨parts, hparts, hread⟩ := ih hothers
      refine ⟨p :: parts, ?_, fun hr => ?_⟩
      · rw [promoteAll, hp, hparts]
        rfl
      · exact hr.cons p (hread hr)
  obtain ⟨flat, hflat, ⟨rfl, heq⟩ | hone | heq⟩ := hcombine children
  · rw [heq, htrivial] at h
    cases h
    obtain ⟨parts, hpromote, hread⟩ := hparts hflat (by rw [promoteAll])
    exact ⟨parts, hpromote, fun hr => hr.trivial.trans (hread hr)⟩
  · subst hone
    have hpromote : promoteAll schema table [combine children] = .ok [q] := by
      rw [promoteAll, h, promoteAll]
      rfl
    exact hparts hflat hpromote
  · rw [heq, hcompound] at h
    obtain ⟨qs, hqs, rfl⟩ := map_eq_ok h
    obtain ⟨parts, hpromote, hread⟩ := hparts hflat hqs
    exact ⟨parts, hpromote, fun hr => (hcombine.same hr qs).trans (hread hr)⟩

end Promotion

end Query

/-! ## Evaluation -/

namespace View

variable (v : View) (o : Located)

theorem holdsAll_append (front back : List Query) :
    v.holdsAll (front ++ back) o =
      (v.holdsAll front o >>= fun passes => if passes then v.holdsAll back o else .ok false) := by
  induction front with
  | nil =>
    rw [List.nil_append, holdsAll]
    rfl
  | cons first rest ih =>
    rw [List.cons_append, holdsAll, holdsAll]
    cases v.holds first o with
    | error why => rfl
    | ok passes =>
      cases passes with
      | false => rfl
      | true => exact ih

theorem holdsAny_append (front back : List Query) :
    v.holdsAny (front ++ back) o =
      (v.holdsAny front o >>= fun passes => if passes then .ok true else v.holdsAny back o) := by
  induction front with
  | nil =>
    rw [List.nil_append, holdsAny]
    rfl
  | cons first rest ih =>
    rw [List.cons_append, holdsAny, holdsAny]
    cases v.holds first o with
    | error why => rfl
    | ok passes =>
      cases passes with
      | false => exact ih
      | true => rfl

theorem holdsAll_singleton (q : Query) : v.holdsAll [q] o = v.holds q o := by
  rw [holdsAll]
  cases v.holds q o with
  | error why => rfl
  | ok passes => cases passes <;> rfl

theorem holdsAny_singleton (q : Query) : v.holdsAny [q] o = v.holds q o := by
  rw [holdsAny]
  cases v.holds q o with
  | error why => rfl
  | ok passes => cases passes <;> rfl

/-- Whether all trees hold is read part by part. -/
theorem holdsAll_readable : Query.Readable .allOf .everything (v.holdsAll · o) where
  append := ⟨fun r s => r >>= fun passes => if passes then s else .ok false, v.holdsAll_append o⟩
  trivial := by
    rw [holdsAll_singleton, holds, holdsAll]
  compound parts := by
    rw [holdsAll_singleton, holds]

/-- Whether some tree holds is read part by part. -/
theorem holdsAny_readable : Query.Readable .anyOf .nothing (v.holdsAny · o) where
  append := ⟨fun r s => r >>= fun passes => if passes then .ok true else s, v.holdsAny_append o⟩
  trivial := by
    rw [holdsAny_singleton, holds, holdsAny]
  compound parts := by
    rw [holdsAny_singleton, holds]

/-- A conjunction holds like its parts in order. -/
theorem holds_and (children : List Query) :
    v.holds (Query.and children) o = v.holdsAll children o := by
  rw [← holdsAll_singleton]
  exact Query.and_combines.same (v.holdsAll_readable o) children

/-- A disjunction holds like its parts in order. -/
theorem holds_or (children : List Query) :
    v.holds (Query.or children) o = v.holdsAny children o := by
  rw [← holdsAny_singleton]
  exact Query.or_combines.same (v.holdsAny_readable o) children

/-- All trees hold exactly if each of them does. -/
theorem holdsAll_iff {children : List Query} :
    v.holdsAll children o = .ok true ↔ ∀ child ∈ children, v.holds child o = .ok true := by
  induction children with
  | nil => simp [holdsAll]
  | cons first rest ih =>
    rw [holdsAll, List.forall_mem_cons, ← ih]
    cases v.holds first o with
    | error why => simp [Bind.bind, Except.bind]
    | ok passes => cases passes <;> simp [Bind.bind, Except.bind, Pure.pure, Except.pure]

theorem holdsAll_false {children : List Query} (h : v.holdsAll children o = .ok false) :
    ∃ child ∈ children, v.holds child o = .ok false := by
  induction children with
  | nil =>
    rw [holdsAll] at h
    cases h
  | cons first rest ih =>
    rw [holdsAll] at h
    obtain ⟨passes, hfirst, h⟩ := bind_eq_ok h
    cases passes with
    | false => exact ⟨first, .head _, hfirst⟩
    | true =>
      obtain ⟨child, hchild, hholds⟩ := ih h
      exact ⟨child, .tail _ hchild, hholds⟩

theorem holdsAny_true {children : List Query} (h : v.holdsAny children o = .ok true) :
    ∃ child ∈ children, v.holds child o = .ok true := by
  induction children with
  | nil =>
    rw [holdsAny] at h
    cases h
  | cons first rest ih =>
    rw [holdsAny] at h
    obtain ⟨passes, hfirst, h⟩ := bind_eq_ok h
    cases passes with
    | true => exact ⟨first, .head _, hfirst⟩
    | false =>
      obtain ⟨child, hchild, hholds⟩ := ih h
      exact ⟨child, .tail _ hchild, hholds⟩

theorem holdsAny_false {children : List Query} (h : v.holdsAny children o = .ok false) :
    ∀ child ∈ children, v.holds child o = .ok false := by
  induction children with
  | nil => simp
  | cons first rest ih =>
    rw [holdsAny] at h
    obtain ⟨passes, hfirst, h⟩ := bind_eq_ok h
    cases passes with
    | true => cases h
    | false => exact List.forall_mem_cons.mpr ⟨hfirst, ih h⟩

/-- The opposite of a tree holds where the tree does not. -/
theorem holds_not (q : Query) :
    v.holds (Query.not q) o = do return !(← v.holds q o) := by
  cases q with
  | everything => rw [Query.not, holds, holds]; rfl
  | nothing => rw [Query.not, holds, holds]; rfl
  | negated inner =>
    rw [Query.not, holds]
    cases v.holds inner o with
    | error why => rfl
    | ok b => cases b <;> rfl
  | _ =>
    show v.holds (.negated _) o = _
    conv => lhs; rw [holds]

end View

/-! ## Promoted combinations -/

namespace Query

variable {schema : Schema} {table : String} {children : List Query} {q : Query}

/-- The promotion of a conjunction holds like the promotions of its parts and uses their names. -/
theorem promote_and (h : promote schema table (and children) = .ok q) :
    ∃ parts, promoteAll schema table children = .ok parts ∧ q.names = parts.flatMap names ∧
      ∀ (v : View) (o : Located), v.holds q o = v.holdsAll parts o := by
  obtain ⟨parts, hparts, hread⟩ := and_combines.promote (by simp [promote])
    (fun parts => by rw [promote]; rfl) h
  refine ⟨parts, hparts, ?_, fun v o => ?_⟩
  · simpa using hread names_readable_and
  · rw [← View.holdsAll_singleton]
    exact hread (v.holdsAll_readable o)

/-- The promotion of a disjunction holds like the promotions of its parts and uses their names. -/
theorem promote_or (h : promote schema table (or children) = .ok q) :
    ∃ parts, promoteAll schema table children = .ok parts ∧ q.names = parts.flatMap names ∧
      ∀ (v : View) (o : Located), v.holds q o = v.holdsAny parts o := by
  obtain ⟨parts, hparts, hread⟩ := or_combines.promote (by simp [promote])
    (fun parts => by rw [promote]; rfl) h
  refine ⟨parts, hparts, ?_, fun v o => ?_⟩
  · simpa using hread names_readable_or
  · rw [← View.holdsAny_singleton]
    exact hread (v.holdsAny_readable o)

/-- The names that a tree uses, if there is one. -/
def namesIfAny (q : Option Query) : List String :=
  q.toList.flatMap names

/-! ## Names of nodes -/

section Names

variable (quantifier : Quantifier) (name : String) (children : List Query)
  (filter inner : Option Query)

@[simp]
theorem names_allOf : (allOf children).names = children.flatMap names :=
  nodesOfAll_flatMap ownNames children

@[simp]
theorem names_anyOf : (anyOf children).names = children.flatMap names :=
  nodesOfAll_flatMap ownNames children

@[simp]
theorem names_negated (inner : Query) : (negated inner).names = inner.names := rfl

@[simp]
theorem names_multiValue (inner : Query) : (multiValue quantifier inner).names = inner.names := rfl

@[simp]
theorem names_not (q : Query) : (Query.not q).names = q.names := by
  cases q <;> rfl

theorem nodesIfAny_names : (nodesIfAny inner).flatMap ownNames = namesIfAny inner :=
  nodesIfAny_flatMap ownNames inner

@[simp]
theorem names_link : (link quantifier name filter inner).names =
    name :: (namesIfAny filter ++ namesIfAny inner) := by
  simp [names, nodes, ownNames, nodesIfAny_names]

@[simp]
theorem names_transitiveLink (depth : Option Nat) :
    (transitiveLink name depth inner).names = name :: namesIfAny inner := by
  simp [names, nodes, ownNames, nodesIfAny_names]

@[simp]
theorem names_linkCount (op : CompareOp) (count : Nat) :
    (linkCount name filter op count).names = name :: namesIfAny filter := by
  simp [names, nodes, ownNames, nodesIfAny_names]

@[simp]
theorem names_linkCountRange (range : Interval Nat) :
    (linkCountRange name filter range).names = name :: namesIfAny filter := by
  simp [names, nodes, ownNames, nodesIfAny_names]

end Names

/-- The opposite of a tree is promoted to the opposite of its promotion, which uses its names. -/
theorem promote_not {p : Query} (h : promote schema table (not q) = .ok p) :
    ∃ inner, promote schema table q = .ok inner ∧ inner.names = p.names ∧
      ∀ (v : View) (o : Located), v.holds inner o = do return !(← v.holds p o) := by
  have hopposite : ∀ inner, promote schema table q = .ok inner → inner = not p →
      ∃ inner, promote schema table q = .ok inner ∧ inner.names = p.names ∧
        ∀ (v : View) (o : Located), v.holds inner o = do return !(← v.holds p o) := by
    intro inner hinner hp
    exact ⟨inner, hinner, hp ▸ names_not p, fun v o => hp ▸ View.holds_not v o p⟩
  cases q with
  | everything =>
    obtain rfl : .nothing = p := by simpa [not, promote] using h
    exact hopposite .everything (by simp [promote]) rfl
  | nothing =>
    obtain rfl : .everything = p := by simpa [not, promote] using h
    exact hopposite .nothing (by simp [promote]) rfl
  | negated inner =>
    have h : promote schema table inner = .ok p := h
    exact hopposite (not p) (by rw [promote, h]; rfl) rfl
  | _ =>
    replace h : promote schema table (.negated _) = .ok p := h
    rw [promote] at h
    obtain ⟨inner, hinner, h⟩ := bind_eq_ok h
    obtain rfl := Except.ok.inj h
    refine ⟨inner, hinner, (names_not inner).symm, fun v o => ?_⟩
    rw [View.holds_not]
    cases v.holds inner o with
    | error why => rfl
    | ok b => cases b <;> rfl

theorem holdsAll_toList (v : View) (o : Located) (q : Option Query) :
    v.holdsAll q.toList o = v.holdsIfAny q o := by
  cases q with
  | none => rw [Option.toList_none, View.holdsAll, View.holdsIfAny]
  | some q => rw [Option.toList_some, View.holdsAll_singleton, View.holdsIfAny]

theorem promoteAll_toList {q : Option Query} {qs : List Query}
    (h : promoteAll schema table q.toList = .ok qs) :
    ∃ p, promoteIfAny schema table q = .ok p ∧ p.toList = qs := by
  cases q with
  | none =>
    obtain rfl : [] = qs := Except.ok.inj h
    exact ⟨none, rfl, rfl⟩
  | some q =>
    obtain ⟨p, hp, hrest⟩ := bind_eq_ok h
    obtain rfl : [p] = qs := Except.ok.inj hrest
    refine ⟨some p, ?_, rfl⟩
    rw [promoteIfAny, hp]
    rfl

/-- The promotion of all parts that are there holds like the promotions of the parts. -/
theorem promote_andAll {parts : List (Option Query)} {q : Option Query}
    (h : promoteIfAny schema table (andAll parts) = .ok q) :
    ∃ qs, promoteAll schema table (parts.filterMap id) = .ok qs ∧
      namesIfAny q = qs.flatMap names ∧
      ∀ (v : View) (o : Located), v.holdsIfAny q o = v.holdsAll qs o := by
  unfold andAll at h
  cases hparts : parts.filterMap id with
  | nil =>
    rw [hparts, promoteIfAny] at h
    obtain rfl := Except.ok.inj h
    refine ⟨[], by rw [promoteAll], rfl, fun v o => ?_⟩
    rw [View.holdsIfAny, View.holdsAll]
  | cons first rest =>
    rw [hparts, promoteIfAny] at h
    obtain ⟨combined, hcombined, rfl⟩ := map_eq_ok h
    obtain ⟨qs, hqs, hnames, hholds⟩ := promote_and hcombined
    exact ⟨qs, hqs, by simpa [namesIfAny] using hnames, fun v o => by
      rw [View.holdsIfAny, hholds]⟩

/-! ## System fields -/

/-- None of the names is reserved without being a system field. -/
def Known (names : List String) : Prop :=
  ∀ name ∈ names, isUnknownSystemField name = false

theorem checkSystemFields_ok_iff : checkSystemFields q = .ok () ↔ Known q.names := by
  have hfind : (q.names.find? isUnknownSystemField = none) ↔ Known q.names := by
    simp [Known]
  rw [← hfind, names, checkSystemFields]
  cases (q.nodes.flatMap ownNames).find? isUnknownSystemField <;> simp [invalid]

/-- A settled tree is its promotion, where all names are known. -/
theorem settle_eq_ok_iff {raw : Query} :
    settle schema table raw = .ok q ↔ promote schema table raw = .ok q ∧ Known q.names := by
  rw [← checkSystemFields_ok_iff, settle]
  constructor
  · intro h
    obtain ⟨promoted, hpromoted, h⟩ := bind_eq_ok h
    obtain ⟨_, hcheck, h⟩ := bind_eq_ok h
    obtain rfl : promoted = q := Except.ok.inj h
    exact ⟨hpromoted, hcheck⟩
  · rintro ⟨hpromoted, hcheck⟩
    rw [hpromoted]
    show (checkSystemFields q >>= _) = _
    rw [hcheck]
    rfl

end Query

end LinkQuery
