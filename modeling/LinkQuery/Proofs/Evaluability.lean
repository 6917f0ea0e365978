import LinkQuery.Proofs.Typing
/-!
# Filters that can be evaluated

A compiled filter is evaluated on every store without an error, unless it asks for the identity of
the object under a quantifier, which is compiled and ends in an error, or for the values at the end
of a path that leaves a group for more than one table.

Main statements:
- `View.WellFormed.holds_total`: supported trees have a truth value for each object.
- `Compiler.supported_filter_selects`: supported compiled filters select objects on every store.
- `Compiler.identity_under_quantifier_fails`: an identity under a quantifier.
-/
namespace LinkQuery

open Time (Timestamp)

/-! ## Supported trees -/

namespace Schema

/-- The links that are followed for a name. -/
def followed (s : Schema) (table name : String) : List String :=
  match s.fieldKind table name with
  | .link | .crossLink => [name]
  | .group => s.groupLinks table name
  | _ => []

/-- Each name of the path but the last leads to objects of a single table. -/
def KeepsTogether (s : Schema) : String → List String → Prop
  | table, name :: next :: rest => ∃ target,
      (∀ link ∈ s.followed table name, ∀ found ∈ s.linkTarget? table link, found = target) ∧
        s.KeepsTogether target (next :: rest)
  | _, _ => True

end Schema

/-- The evaluation of the node itself, read against the table, does not end in an error. -/
def Query.Supported (schema : Schema) (table : String) : Query → Prop
  | .multiValue _ (.objectId _) => False
  | .pathCountRange path _ => schema.KeepsTogether table path
  | .pathComparison _ left right =>
    schema.KeepsTogether table left ∧ schema.KeepsTogether table right
  | _ => True

/-! ## Lists -/

theorem mapM_total {ε α β : Type} {f : α → Except ε β} {P : β → Prop} {as : List α}
    (h : ∀ a ∈ as, ∃ b, f a = .ok b ∧ P b) : ∃ bs, as.mapM f = .ok bs ∧ ∀ b ∈ bs, P b := by
  induction as with
  | nil => exact ⟨[], rfl, by simp⟩
  | cons a as ih =>
    simp only [List.mem_cons, forall_eq_or_imp] at h
    obtain ⟨⟨b, hb, hP⟩, hrest⟩ := h
    obtain ⟨bs, hbs, hall⟩ := ih hrest
    refine ⟨b :: bs, ?_, List.forall_mem_cons.mpr ⟨hP, hall⟩⟩
    rw [List.mapM_cons, hb, hbs]
    rfl

/-- Steps in order have a result where each of them has one. -/
theorem bind_total {ε α β : Type} {r : Except ε α} {f : α → Except ε β} {P : α → Prop}
    (h : ∃ a, r = .ok a ∧ P a) (hf : ∀ a, P a → ∃ b, f a = .ok b) : ∃ b, (r >>= f) = .ok b := by
  obtain ⟨a, rfl, ha⟩ := h
  exact hf a ha

namespace View

variable {v : View} {a : Located} {table name target : String}

/-- Objects are kept without an error where none of the tests ends in one. -/
theorem passing_total {test : Located → Except EvalError Bool} {objects : List Located}
    (h : ∀ o ∈ objects, ∃ b, test o = .ok b) :
    ∃ found, passing test objects = .ok found ∧ ∀ o ∈ found, o ∈ objects := by
  induction objects with
  | nil => exact ⟨[], by rw [passing], by simp⟩
  | cons first rest ih =>
    simp only [List.mem_cons, forall_eq_or_imp] at h
    obtain ⟨⟨passes, hfirst⟩, hrest⟩ := h
    obtain ⟨others, hothers, hsub⟩ := ih hrest
    refine ⟨if passes then first :: others else others, by rw [passing, hfirst, hothers]; rfl, ?_⟩
    intro o ho
    split at ho
    · rcases List.mem_cons.mp ho with rfl | ho
      · exact .head _
      · exact .tail _ (hsub o ho)
    · exact .tail _ (hsub o ho)

/-! ## Steps -/

/-- A name is followed from every object of a table where it is a link or a group. -/
theorem linked_total {links : List String} (hlinks : v.linksOf a.table name = .ok links) :
    ∃ found, v.linked a name = .ok found ∧ ∀ b ∈ found, ∃ link ∈ links, v.Follows link a b := by
  refine ⟨_, by rw [linked, hlinks]; rfl, fun b hb => ?_⟩
  obtain ⟨link, hlink, hb⟩ := List.mem_flatMap.mp (mem_of_mem_eraseDupsBy hb)
  exact ⟨link, hlink, mem_behindLink.mp hb⟩

theorem linksOf_followed
    (h : (v.schema.fieldKind table name).isLink = true ∨ v.schema.fieldKind table name = .group) :
    v.linksOf table name = .ok (v.schema.followed table name) := by
  unfold linksOf Schema.followed
  cases hkind : v.schema.fieldKind table name <;> rw [hkind] at h <;>
    first | rfl | simp [FieldKind.isLink] at h

/-- A link leads to objects of its target. -/
theorem linked_of_leadsTo (hlead : v.schema.LeadsTo table name target) (ha : a.table = table) :
    ∃ found, v.linked a name = .ok found ∧ ∀ b ∈ found, b.table = target := by
  subst ha
  obtain ⟨found, hfound, hfollows⟩ := linked_total (linksOf_followed (Or.inl hlead.1))
  refine ⟨found, hfound, fun b hb => ?_⟩
  obtain ⟨link, hlink, hb⟩ := hfollows b hb
  have hname : link = name := by
    have hkind := hlead.1
    unfold Schema.followed at hlink
    split at hlink
    · exact List.mem_singleton.mp hlink
    · exact List.mem_singleton.mp hlink
    · rename_i hgroup
      rw [hgroup] at hkind
      cases hkind
    · cases hlink
  subst hname
  exact Option.some.inj (hb.1.symm.trans hlead.2)

theorem mem_of_mem_fresh {unseen : List String} {found : List Located}
    (h : a ∈ (fresh unseen found).1) : a ∈ found := by
  induction found generalizing unseen with
  | nil => cases h
  | cons first rest ih =>
    unfold fresh at h
    split at h
    · rcases List.mem_cons.mp h with rfl | h
      · exact .head _
      · exact .tail _ (ih h)
    · exact .tail _ (ih h)

/-- Repeated steps along a name that is followed within a table stay in this table. -/
theorem reached_total {limit : Option Nat}
    (hlinked : ∀ a : Located, a.table = table →
      ∃ found, v.linked a name = .ok found ∧ ∀ b ∈ found, b.table = table)
    (ha : a.table = table) :
    ∃ found, v.reached a name limit = .ok found ∧ ∀ b ∈ found, b.table = table := by
  have hsearch : ∀ (unseen : List String) (queue : List (Located × Nat)),
      (∀ entry ∈ queue, entry.1.table = table) →
      ∃ found, v.reachedFrom name limit unseen queue = .ok found ∧ ∀ b ∈ found, b.table = table := by
    intro unseen queue hqueue
    induction unseen, queue using reachedFrom.induct v name limit with
    | case1 unseen => exact ⟨[], by rw [reachedFrom], by simp⟩
    | case2 unseen start steps queue hlimit ih =>
      rw [reachedFrom, if_pos hlimit]
      exact ih fun entry hentry => hqueue entry (.tail _ hentry)
    | case3 unseen start steps queue hlimit why hwhy =>
      obtain ⟨found, hfound, -⟩ := hlinked start (hqueue _ (.head _))
      rw [hfound] at hwhy
      cases hwhy
    | case4 unseen start steps queue hlimit found hfound new left ih =>
      obtain ⟨found', hfound', htable⟩ := hlinked start (hqueue _ (.head _))
      obtain rfl : found' = found := Except.ok.inj (hfound'.symm.trans hfound)
      have hnew : ∀ b ∈ new, b.table = table := fun b hb => htable b (mem_of_mem_fresh hb)
      obtain ⟨others, hothers, hall⟩ := ih fun entry hentry => by
        rcases List.mem_append.mp hentry with hentry | hentry
        · exact hqueue entry (.tail _ hentry)
        · obtain ⟨b, hb, rfl⟩ := List.mem_map.mp hentry
          exact hnew b hb
      refine ⟨new ++ others, ?_, fun b hb => ?_⟩
      · rw [reachedFrom, if_neg hlimit]
        simp only [hfound', new, left] at hothers ⊢
        rw [hothers]
        rfl
      · rcases List.mem_append.mp hb with hb | hb
        · exact hnew b hb
        · exact hall b hb
  exact hsearch _ _ (by simpa using ha)

/-! ## Paths -/

/-- What is behind a name of any of the objects. -/
theorem linkedFromAll_total {starts : List Located} {P : Located → Prop}
    (h : ∀ a ∈ starts, ∃ found, v.linked a name = .ok found ∧ ∀ b ∈ found, P b) :
    ∃ found, v.linkedFromAll starts name = .ok found ∧ ∀ b ∈ found, P b := by
  obtain ⟨found, hfound, hall⟩ := mapM_total h
  refine ⟨_, by rw [linkedFromAll, hfound]; rfl, fun b hb => ?_⟩
  obtain ⟨part, hpart, hb⟩ := List.mem_flatten.mp (mem_of_mem_eraseDupsBy hb)
  exact hall part hpart b hb

/-- A path that keeps to single tables has values at its end. -/
theorem pathValues_total {path : List String} {starts : List Located}
    (hpath : v.schema.KeepsTogether table path) (hstarts : ∀ a ∈ starts, a.table = table) :
    ∃ values, v.pathValues starts path = .ok values := by
  induction path generalizing table starts with
  | nil => exact ⟨[], by rw [pathValues]⟩
  | cons name rest ih =>
    rw [pathValues]
    split
    · rename_i hstep
      have hlinks : v.linksOf table name = .ok (v.schema.followed table name) := by
        refine linksOf_followed ?_
        unfold isStep at hstep
        split at hstep
        · cases hstep
        · rename_i first hfirst
          rw [hstarts first (List.mem_of_mem_head? hfirst)] at hstep
          simpa using hstep
      cases rest with
      | nil =>
        obtain ⟨found, hfound, -⟩ := linkedFromAll_total (P := fun _ => True) fun a ha => by
          obtain ⟨found, hfound, -⟩ := linked_total (hstarts a ha ▸ hlinks)
          exact ⟨found, hfound, fun _ _ => trivial⟩
        exact ⟨_, by rw [hfound]; rfl⟩
      | cons next rest =>
        obtain ⟨target, htarget, hrest⟩ := hpath
        obtain ⟨found, hfound, htable⟩ := linkedFromAll_total (P := fun b => b.table = target)
          fun a ha => by
            obtain ⟨found, hfound, hfollows⟩ := linked_total (hstarts a ha ▸ hlinks)
            refine ⟨found, hfound, fun b hb => ?_⟩
            obtain ⟨link, hlink, hb⟩ := hfollows b hb
            rw [hstarts a ha] at hlink
            exact htarget link hlink b.table (hstarts a ha ▸ hb.1)
        obtain ⟨values, hvalues⟩ := ih hrest htable
        refine ⟨values, ?_⟩
        rw [hfound]
        exact hvalues
    · exact ⟨_, rfl⟩

theorem pathValues_of_object {path : List String} {o : Located}
    (hpath : v.schema.KeepsTogether table path) (ho : o.table = table) :
    ∃ values, v.pathValues [o] path = .ok values :=
  pathValues_total hpath (List.forall_mem_singleton.mpr ho)

end View

/-! ## Trees -/

namespace Query

variable {schema : Schema} {good : Timestamp → Prop} {table : String}

/-- Every node of the tree is supported where it is read. -/
def AllSupported (schema : Schema) (table : String) (q : Query) : Prop :=
  ∀ place node, q.Reads schema table place node → node.Supported schema place

end Query

namespace View

open Query

variable {v : View} {good : Timestamp → Prop}

/-- The values of a field are tested one by one. -/
theorem quantified_total {quantifier : Quantifier} {inner : Query} {o : StoredObject}
    {table : String} (h : inner.TestsValues v.schema good table)
    (hsupported : ∀ id, inner ≠ .objectId id) : ∃ b, quantified quantifier o inner = .ok b := by
  cases inner with
  | comparison | interval => exact ⟨_, rfl⟩
  | objectId id => exact absurd rfl (hsupported id)
  | _ => exact h.elim

mutual

/-- A well-formed tree of supported nodes has a truth value for each object of its table. -/
theorem holds_total {table : String} {o : Located} (ho : o.table = table) : ∀ {q : Query},
    q.WellFormed v.schema good table → q.AllSupported v.schema table → ∃ b, v.holds q o = .ok b
  | .everything, _, _ => ⟨true, by rw [holds]⟩
  | .nothing, _, _ => ⟨false, by rw [holds]⟩
  | .allOf children, h, hs => by
    rw [holds]
    exact holdsAll_total ho h.2.2 fun child hchild place node hread =>
      hs place node (.conjunct hchild hread)
  | .anyOf children, h, hs => by
    rw [holds]
    exact holdsAny_total ho h.2.2 fun child hchild place node hread =>
      hs place node (.disjunct hchild hread)
  | .negated inner, h, hs => by
    obtain ⟨b, hb⟩ := holds_total ho h.2 fun place node hread => hs place node (.negated hread)
    exact ⟨!b, by rw [holds, hb]; rfl⟩
  | .comparison field op value, _, _ => ⟨_, by rw [holds]⟩
  | .interval field range, _, _ => ⟨_, by rw [holds]⟩
  | .multiValue quantifier inner, h, hs => by
    rw [holds]
    refine quantified_total h.2 fun id hid => ?_
    subst hid
    exact hs table _ (.here _)
  | .link quantifier name filter inner, ⟨_, target, hlead, hfilter, hinner⟩, hs => by
    rw [holds]
    refine bind_total (linked_of_leadsTo hlead ho) fun found htable => ?_
    refine bind_total (passing_total fun x hx => ?_) fun targets hsub => ?_
    · exact holdsIfAny_total (htable x hx) hfilter fun q hq place node hread =>
        hs place node (by subst hq; exact .filter hlead hread)
    refine bind_total (passing_total fun x hx => ?_) fun hits _ => ⟨_, rfl⟩
    exact holdsIfAny_total (htable x (hsub x hx)) hinner fun q hq place node hread =>
      hs place node (by subst hq; exact .behind hlead hread)
  | .transitiveLink name depth inner, ⟨hlead, _, hinner⟩, hs => by
    rw [holds]
    refine bind_total (reached_total (fun _ => linked_of_leadsTo hlead) ho) fun found htable => ?_
    refine bind_total (passing_total fun x hx => ?_) fun hits _ => ⟨_, rfl⟩
    exact holdsIfAny_total (htable x hx) hinner fun q hq place node hread =>
      hs place node (by subst hq; exact .repeated hlead hread)
  | .linkId quantifier name id, ⟨_, target, hlead⟩, _ => by
    rw [holds]
    exact bind_total (linked_of_leadsTo hlead ho) fun found _ => ⟨_, rfl⟩
  | .objectId id, _, _ => ⟨_, by rw [holds]⟩
  | .linkCount name filter op count, ⟨hop, _, target, hlead, hfilter⟩, hs => by
    subst hop
    rw [holds]
    refine bind_total (linked_of_leadsTo hlead ho) fun found htable => ?_
    refine bind_total (passing_total fun x hx => ?_) fun targets _ => ⟨_, rfl⟩
    exact holdsIfAny_total (htable x hx) hfilter fun q hq place node hread =>
      hs place node (by subst hq; exact .counted hlead hread)
  | .linkCountRange name filter range, ⟨_, target, hlead, hfilter⟩, hs => by
    rw [holds]
    refine bind_total (linked_of_leadsTo hlead ho) fun found htable => ?_
    refine bind_total (passing_total fun x hx => ?_) fun targets _ => ⟨_, rfl⟩
    exact holdsIfAny_total (htable x hx) hfilter fun q hq place node hread =>
      hs place node (by subst hq; exact .countedWithin hlead hread)
  | .fieldCount field op count, h, _ => by
    obtain rfl : op = .eq := h.1
    exact ⟨_, by rw [holds]; rfl⟩
  | .fieldCountRange field range, _, _ => ⟨_, by rw [holds]⟩
  | .pathCountRange path range, _, hs => by
    rw [holds]
    obtain ⟨values, hvalues⟩ := pathValues_of_object (hs table _ (.here _)) ho
    exact ⟨_, by rw [hvalues]; rfl⟩
  | .pathComparison op left right, _, hs => by
    rw [holds]
    obtain ⟨hleft, hright⟩ := hs table _ (.here _)
    obtain ⟨first, hfirst⟩ := pathValues_of_object hleft ho
    obtain ⟨second, hsecond⟩ := pathValues_of_object hright ho
    exact ⟨_, by rw [hfirst, hsecond]; rfl⟩

theorem holdsAll_total {table : String} {o : Located} (ho : o.table = table) :
    ∀ {children : List Query}, AllWellFormed v.schema good table children →
      (∀ child ∈ children, child.AllSupported v.schema table) →
      ∃ b, v.holdsAll children o = .ok b
  | [], _, _ => ⟨true, by rw [holdsAll]⟩
  | child :: rest, h, hs => by
    obtain ⟨b, hb⟩ := holds_total ho h.1 (hs child (.head _))
    rw [holdsAll, hb]
    cases b with
    | false => exact ⟨false, rfl⟩
    | true => exact holdsAll_total ho h.2 fun other hother => hs other (.tail _ hother)

theorem holdsAny_total {table : String} {o : Located} (ho : o.table = table) :
    ∀ {children : List Query}, AllWellFormed v.schema good table children →
      (∀ child ∈ children, child.AllSupported v.schema table) →
      ∃ b, v.holdsAny children o = .ok b
  | [], _, _ => ⟨false, by rw [holdsAny]⟩
  | child :: rest, h, hs => by
    obtain ⟨b, hb⟩ := holds_total ho h.1 (hs child (.head _))
    rw [holdsAny, hb]
    cases b with
    | true => exact ⟨true, rfl⟩
    | false => exact holdsAny_total ho h.2 fun other hother => hs other (.tail _ hother)

theorem holdsIfAny_total {table : String} {o : Located} (ho : o.table = table) :
    ∀ {inner : Option Query}, WellFormedIfAny v.schema good table inner →
      (∀ q, inner = some q → q.AllSupported v.schema table) → ∃ b, v.holdsIfAny inner o = .ok b
  | none, _, _ => ⟨true, by rw [holdsIfAny]⟩
  | some q, h, hs => by
    rw [holdsIfAny]
    exact holds_total ho h (hs q rfl)

end

end View

namespace Compiler

variable {c : Compiler} {table input : String} {q : Query}

/-- A compiled filter whose nodes are supported selects objects on every store. -/
theorem supported_filter_selects (h : c.filter table input = .ok (some q))
    (hsupported : ∀ place node, q.Reads c.schema table place node → node.Supported c.schema place)
    (store : Store) : ∃ ids, View.select ⟨c.schema, store⟩ table q = .ok ids := by
  have hwell := filter_wellFormed (fun scope _ => scope.clock.shows_any) h
  refine bind_total (View.passing_total fun o ho => ?_) fun found _ => ⟨_, rfl⟩
  obtain ⟨object, -, rfl⟩ := List.mem_map.mp ho
  exact View.holds_total (v := ⟨c.schema, store⟩) rfl hwell hsupported

/-- The tree counts the names of bosses. -/
def countsBossNames (q : Query) : Bool :=
  match q with
  | .pathCountRange ["Boss", "Name"] _ => true
  | _ => false

/-- The names of bosses can be counted: bosses are persons. -/
theorem supported_filter_selects_names : ∃ q,
    staff.filter "Person" "DCOUNT(Boss.Name) = 1" = .ok (some q) ∧
      (∀ place node, q.Reads staff.schema "Person" place node →
        node.Supported staff.schema place) ∧
      ∃ ids, View.select ⟨staff.schema, staffStore⟩ "Person" q = .ok ids := by
  have hrun : (staff.filter "Person" "DCOUNT(Boss.Name) = 1").toOption.bind
      (·.map countsBossNames) = some true := by decide +kernel
  obtain ⟨found, hcompile, hrun⟩ := Option.bind_eq_some_iff.mp hrun
  obtain ⟨q, rfl, hshape⟩ := Option.map_eq_some_iff.mp hrun
  have hcompile := toOption_eq_some hcompile
  obtain ⟨range, rfl⟩ : ∃ range, q = .pathCountRange ["Boss", "Name"] range := by
    unfold countsBossNames at hshape
    split at hshape
    · exact ⟨_, rfl⟩
    · cases hshape
  have hsupported : ∀ place node, Query.Reads staff.schema "Person"
      (.pathCountRange ["Boss", "Name"] range) place node → node.Supported staff.schema place := by
    intro place node hread
    cases hread
    exact ⟨"Person", by decide, trivial⟩
  exact ⟨_, hcompile, hsupported, supported_filter_selects hcompile hsupported staffStore⟩

/-! ## Unsupported filters -/

/-- The equality of an identity under a quantifier is compiled, but cannot be evaluated. -/
theorem identity_under_quantifier_fails : ∃ q,
    staff.filter "Person" "ANY(_ID) = 'a'" = .ok (some q) ∧
      ∀ ids, View.select ⟨staff.schema, staffStore⟩ "Person" q ≠ .ok ids := by
  have hrun : (staff.filter "Person" "ANY(_ID) = 'a'").toOption.bind (·.map fun q =>
      (View.select ⟨staff.schema, staffStore⟩ "Person" q).toOption.isNone) = some true := by
    decide +kernel
  obtain ⟨found, hcompile, hrun⟩ := Option.bind_eq_some_iff.mp hrun
  obtain ⟨q, rfl, hselect⟩ := Option.map_eq_some_iff.mp hrun
  refine ⟨q, toOption_eq_some hcompile, fun ids hids => ?_⟩
  rw [hids] at hselect
  cases hselect

end Compiler

end LinkQuery
