import LinkQuery.Proofs.FilterPositions
import LinkQuery.Proofs.Precedence
/-!
# Quantifiers over groups

A quantifier around a group ranges over the objects behind all of its links together. A quantified
condition behind a group ranges over the objects behind each link on its own, and one of the links
has to satisfy it.

Main statements:
- `Filter.groupTerm_around`, `Filter.groupTerm_behind`: the two forms.
- `Compiler.group_terms_mean`: both forms, for the texts of filters.
-/
namespace LinkQuery

/-- Objects behind several links are ranged over link by link: joined by `AND` inside `ALL` and
`NONE`, and by `OR` elsewhere. -/
theorem Quantifier.ranges_join (quantifier : Quantifier) (links : List String)
    (behind : String → Located → Prop) (P : Located → Prop) :
    (if (some quantifier).any Quantifier.isUniversal then
        ∀ link ∈ links, quantifier.Ranges (behind link) P
      else ∃ link ∈ links, quantifier.Ranges (behind link) P) ↔
      quantifier.Ranges (fun b => ∃ link ∈ links, behind link b) P := by
  cases quantifier with
  | any | count =>
    constructor
    · intro h
      obtain ⟨link, hlink, b, hb, hP⟩ := h
      exact ⟨b, ⟨link, hlink, hb⟩, hP⟩
    · intro h
      obtain ⟨b, ⟨link, hlink, hb⟩, hP⟩ := h
      exact ⟨link, hlink, b, hb, hP⟩
  | all | none =>
    constructor
    · intro h b hb
      obtain ⟨link, hlink, hb⟩ := hb
      exact h link hlink b hb
    · intro h link hlink b hb
      exact h b ⟨link, hlink, hb⟩

namespace Filter

open Query (Known namesIfAny)

variable {scope : Scope} {store : Store} {nested : Nested} {table : String}

/-! ## Filters on the way -/

/-- The object satisfies a filter, compiled in its table. -/
def Satisfies (scope : Scope) (store : Store) (tokens : List Token) (o : Located) : Prop :=
  ∃ q, compileIn scope o.table tokens = .ok q ∧ (scope.view store).holds q o = .ok true

/-- A filter inside a filter means what it means as a filter of its own. -/
theorem nested_means (hnested : nested.Agrees scope) {tokens : List Token} {raw : Query}
    (h : nested table tokens = .ok raw) :
    TreeMeans scope store table raw (Satisfies scope store tokens) := by
  intro q hq hknown o _ htable c hc
  subst htable
  have hcompile : compileIn scope o.table tokens = .ok q := by
    rw [compileIn, hnested _ _ _ h]
    exact Query.settle_eq_ok_iff.mpr ⟨hq, hknown⟩
  have hc : (scope.view store).holds q o = .ok c := hc
  constructor
  · intro htrue
    exact ⟨q, hcompile, by rw [hc, htrue]⟩
  · intro hsatisfies
    obtain ⟨found, hfound, hholds⟩ := hsatisfies
    rw [hcompile] at hfound
    obtain rfl := Except.ok.inj hfound
    rw [hc] at hholds
    exact Except.ok.inj hholds

/-- A term that is a filter of its own builds the tree of its path and its tail. -/
theorem buildIn_term {tokens : List Token} {path : Path} {behind : List Element} {tail : Tail}
    (helements : Element.ofTokens .filter tokens = .ok (.path path :: behind))
    (htail : Tail.read scope.clock behind = .ok (tail, [])) :
    buildIn scope table tokens = termQuery scope (buildIn scope) table path tail := by
  have halike : Nested.AlikeOn (·.length < tokens.length)
      (fun target inner =>
        if inner.length < tokens.length then buildIn scope target inner else internal .noProgress)
      (buildIn scope) := by
    intro target inner hinner
    exact if_pos hinner
  rw [buildIn, buildWith_term helements htail]
  exact termQuery_congr halike (Element.ofTokens_inside helements path (List.mem_cons_self ..))

/-- Filters that differ in positions only are satisfied by the same objects. -/
theorem satisfies_congr {tokens other : List Token}
    (h : tokens.map Token.unplaced = other.map Token.unplaced) {o : Located} :
    Satisfies scope store tokens o ↔ Satisfies scope store other o := by
  have hbuild : (buildIn scope o.table tokens).toOption =
      (buildIn scope o.table other).toOption := by
    rw [← buildIn_unplaced tokens, h, buildIn_unplaced]
  have hcompile : ∀ a b : List Token, (buildIn scope o.table a).toOption =
      (buildIn scope o.table b).toOption → ∀ q, compileIn scope o.table a = .ok q →
      compileIn scope o.table b = .ok q := by
    intro a b hab q hq
    obtain ⟨raw, hraw, hsettle⟩ := bind_eq_ok hq
    rw [hraw] at hab
    rw [compileIn, Compiler.toOption_eq_some hab.symm]
    exact hsettle
  unfold Satisfies
  constructor
  · intro h
    obtain ⟨q, hq, hholds⟩ := h
    exact ⟨q, hcompile tokens other hbuild q hq, hholds⟩
  · intro h
    obtain ⟨q, hq, hholds⟩ := h
    exact ⟨q, hcompile other tokens hbuild.symm q hq, hholds⟩

/-- Terms that differ in positions only have the same tree. -/
theorem termQuery_of_unplaced {path other : Path} {tail : Tail} {raw : Query}
    (hpath : path.unplaced = other.unplaced)
    (h : termQuery scope (buildIn scope) table path tail = .ok raw) :
    termQuery scope (buildIn scope) table other tail = .ok raw := by
  have hblind : Nested.Blind (buildIn scope) (buildIn scope) := fun _ log => buildIn_agrees log
  have hunplaced : ∀ p : Path, (termQuery scope (buildIn scope) table p tail).toOption =
      (termQuery scope (buildIn scope) table p.unplaced tail).toOption :=
    fun p => (termQuery_unplaced hblind p).toOption_eq
  have hsame := hunplaced path
  rw [h, hpath, ← hunplaced other] at hsame
  exact Compiler.toOption_eq_some hsame.symm

theorem buildIn_agrees_self : Nested.Agrees scope (buildIn scope) :=
  fun _ _ _ h => h

/-! ## Links of a group -/

/-- An object behind a link that satisfies the filters of the segment. -/
def BehindLink (scope : Scope) (store : Store) (segment : Segment) (link : String)
    (a b : Located) : Prop :=
  (scope.view store).Follows link a b ∧ SatisfiesAll scope store segment.filters b

section Links

variable {segment : Segment} {target link : String} {onward : Option Onward} {tail : Tail}
  {raw : Query} {P : Located → Prop}

/-- A link in the place of a group is followed once. -/
theorem memberQuery_link (hlink : (scope.schema.fieldKind table link).isLink = true)
    (honce : segment.transitive = false)
    (h : memberQuery scope nested table segment onward tail link = .ok raw) :
    ∃ target, scope.schema.LeadsTo table link target ∧
      linkQuery nested { segment with name := link } target onward tail = .ok raw := by
  obtain ⟨role, hrole, h⟩ := bind_eq_ok h
  have hresolves := Schema.resolveSegment_yields.of_ok hrole
  have hkind := Schema.role_kind hresolves.named
  have honce : ¬({ segment with name := link } : Segment).transitive = true := by simp [honce]
  rw [← hkind] at hlink
  cases role with
  | link target =>
    refine ⟨target, hresolves.means, ?_⟩
    rwa [fieldQuery, anyLinkQuery, if_neg honce] at h
  | crossLink target =>
    refine ⟨target, hresolves.means, ?_⟩
    rwa [fieldQuery, anyLinkQuery, if_neg honce] at h
  | scalar type => cases hlink
  | multiValued type => cases hlink
  | group target => cases hlink
  | system => cases hlink

variable (hstore : store.Keyed) (hnested : nested.Agrees scope)
  (hlead : scope.schema.LeadsTo table segment.name target)

include hstore hnested hlead

/-- The node of a link with a condition asks as many objects behind it as the quantifier says. -/
theorem quantifiedNode_means {quantifier : Quantifier} {filter : Option Query} {inner : Query}
    (hfilter : allFilters nested target segment.filters = .ok filter)
    (hinner : TreeMeans scope store target inner P) :
    TreeMeans scope store table (.link quantifier segment.name filter (some inner)) fun o =>
      quantifier.Ranges (BehindLink scope store segment segment.name o) P := by
  refine quantifiedLink_means hstore hlead
    (fun f hf hknown o _ ho => allFilters_tells hnested hfilter hf hknown ho)
    fun i hi hknown o ho htable => ?_
  obtain ⟨q, hq, rfl⟩ := map_eq_ok hi
  exact hinner q hq (by simpa [namesIfAny] using hknown) o ho htable

/-- A link with a quantified condition. -/
theorem linkQuery_condition {condition : Condition} (hcondition : segment.condition = some condition)
    (h : linkQuery nested segment target onward tail = .ok raw) :
    TreeMeans scope store table raw fun o =>
      condition.quantifier.Ranges (BehindLink scope store segment segment.name o)
        (Satisfies scope store condition.tokens) := by
  obtain ⟨filter, hfilter, h⟩ := bind_eq_ok h
  simp only [hcondition] at h
  split at h
  · cases h
  · obtain ⟨inner, hinner, h⟩ := bind_eq_ok h
    obtain rfl := Except.ok.inj h
    exact quantifiedNode_means hstore hnested hlead hfilter (nested_means hnested hinner)

/-- A link with further segments behind it. -/
theorem linkQuery_onward {onward : Onward} (htail : tail ≠ .missing)
    (hbehind : BehindMeans scope store tail P (some onward))
    (h : linkQuery nested segment target (some onward) tail = .ok raw) :
    TreeMeans scope store table raw fun o =>
      (traversalQuantifier segment.quantifier).Ranges
        (BehindLink scope store segment segment.name o) P := by
  obtain ⟨filter, hfilter, h⟩ := bind_eq_ok h
  cases hcondition : segment.condition with
  | some condition =>
    simp only [hcondition] at h
    cases h
  | none =>
    simp only [hcondition] at h
    obtain ⟨inner, hinner, h⟩ := bind_eq_ok h
    obtain rfl := Except.ok.inj h
    rw [behindLink, if_neg (by simp [htail])] at hinner
    exact quantifiedNode_means hstore hnested hlead hfilter (hbehind target inner hinner)

end Links

/-! ## Terms that begin with a group -/

section Groups

variable {segment : Segment} {raw : Query}
  (hgroup : scope.schema.fieldKind table segment.name = .group)
  (hlinks : ∀ link ∈ scope.schema.nestedFields table segment.name,
    (scope.schema.fieldKind table link).isLink = true)

include hgroup

/-- The segment of a group is the query of the group, and is not followed repeatedly. -/
theorem segmentQuery_group {onward : Option Onward} {tail : Tail}
    (h : segmentQuery scope nested table segment onward tail = .ok raw) :
    segment.transitive = false ∧ groupQuery scope nested table segment onward tail = .ok raw := by
  obtain ⟨role, hrole, h⟩ := bind_eq_ok h
  have hresolves := Schema.resolveSegment_yields.of_ok hrole
  have hkind := Schema.role_kind hresolves.named
  rw [hgroup] at hkind
  cases role with
  | group target => exact ⟨not_transitive_of_group hresolves, h⟩
  | scalar type => cases hkind
  | multiValued type => cases hkind
  | link target => cases hkind
  | crossLink target => cases hkind
  | system => cases hkind

variable (hstore : store.Keyed)

include hlinks hstore

/-- A quantified condition behind a group has to hold of the objects behind one of its links. -/
theorem groupTerm_behind {condition : Condition} (hquantifier : segment.quantifier = none)
    (hcondition : segment.condition = some condition)
    (h : termQuery scope (buildIn scope) table ⟨segment, []⟩ .bare = .ok raw) :
    TreeMeans scope store table raw fun o =>
      ∃ link ∈ scope.schema.nestedFields table segment.name,
        condition.quantifier.Ranges (BehindLink scope store segment link o)
          (Satisfies scope store condition.tokens) := by
  rw [termQuery, if_neg (by simp), chainQuery] at h
  obtain ⟨honce, h⟩ := segmentQuery_group hgroup h
  have hmember : ∀ link ∈ standIns scope.schema table segment.name true, ∀ raw,
      memberQuery scope (buildIn scope) table segment none .bare link = .ok raw →
      TreeMeans scope store table raw fun o =>
        condition.quantifier.Ranges (BehindLink scope store segment link o)
          (Satisfies scope store condition.tokens) := by
    intro link hlink raw h
    have hmember := (Schema.mem_groupMembers_of_links hlinks).mp hlink
    obtain ⟨target, hlead, h⟩ := memberQuery_link (hlinks link hmember) honce h
    have hmeans := @linkQuery_condition _ _ _ _ { segment with name := link } _ _ _ _ hstore
      buildIn_agrees_self hlead condition hcondition h
    exact hmeans
  have hexistential : segment.isUniversal = false := by
    rw [Segment.isUniversal, hquantifier]
    rfl
  have hmeans := groupQuery_joins hmember h
  simpa only [hexistential, Bool.false_eq_true, if_false, standIns, Option.isNone_none, if_true,
    Schema.mem_groupMembers_of_links hlinks] using hmeans

/-- A quantifier around a group ranges over the objects behind all of its links. -/
theorem groupTerm_around {quantifier : Quantifier} {next : Segment} {rest : List Segment}
    {tail : Tail} {tokens : List Token} (hquantifier : segment.quantifier = some quantifier)
    (htail : tail ≠ .missing)
    (hinner : ∀ target raw, termQuery scope (buildIn scope) target ⟨next, rest⟩ tail = .ok raw →
      buildIn scope target tokens = .ok raw)
    (h : termQuery scope (buildIn scope) table ⟨segment, next :: rest⟩ tail = .ok raw) :
    TreeMeans scope store table raw fun o => quantifier.Ranges
      (fun b => ∃ link ∈ scope.schema.nestedFields table segment.name,
        BehindLink scope store segment link o b)
      (Satisfies scope store tokens) := by
  rw [termQuery, if_neg (by simp [htail]), chainQuery] at h
  obtain ⟨honce, h⟩ := segmentQuery_group hgroup h
  -- What stands behind the group is built like the filter that it is on its own.
  have hbehind : BehindMeans scope store tail (Satisfies scope store tokens)
      (some ⟨fun target tail => chainQuery scope (buildIn scope) target next rest tail,
        (next :: rest).any Segment.isUniversal⟩) := by
    intro target raw h
    refine nested_means buildIn_agrees_self (hinner target raw ?_)
    rwa [termQuery, if_neg (by simp [htail])]
  have htraversal : ∀ among P : Located → Prop,
      (traversalQuantifier (some quantifier)).Ranges among P ↔ quantifier.Ranges among P := by
    intro among P
    cases quantifier <;> rfl
  have hmember : ∀ link ∈ standIns scope.schema table segment.name false, ∀ raw,
      memberQuery scope (buildIn scope) table segment
        (some ⟨fun target tail => chainQuery scope (buildIn scope) target next rest tail,
          (next :: rest).any Segment.isUniversal⟩) tail link = .ok raw →
      TreeMeans scope store table raw fun o =>
        quantifier.Ranges (BehindLink scope store segment link o) (Satisfies scope store tokens) := by
    intro link hlink raw h
    have hmember := (Schema.mem_groupLinks_of_links hlinks).mp hlink
    obtain ⟨target, hlead, h⟩ := memberQuery_link (hlinks link hmember) honce h
    have hmeans := @linkQuery_onward _ _ _ _ { segment with name := link } _ _ _ _ hstore
      buildIn_agrees_self hlead _ htail hbehind h
    simp only [hquantifier, htraversal] at hmeans
    exact hmeans
  have hmeans := groupQuery_joins hmember h
  simp only [standIns, Option.isNone_some, Bool.false_eq_true, if_false,
    Schema.mem_groupLinks_of_links hlinks] at hmeans
  intro q hq hknown o ho htable c hc
  rw [hmeans q hq hknown o ho htable c hc, Segment.isUniversal, hquantifier]
  exact Quantifier.ranges_join quantifier _ _ _

end Groups

theorem not_satisfies_nil {o : Located} : ¬Satisfies scope store [] o := by
  intro h
  obtain ⟨q, hq, -⟩ := h
  rw [compileIn, buildIn_nil] at hq
  cases hq

end Filter

namespace Compiler

open Filter

variable {c : Compiler} {scope : Scope} {table input inner : String} {segment : Segment}
  {store : Store}

/-- The object satisfies a filter text, compiled for its table. -/
def Satisfies (c : Compiler) (store : Store) (input : String) (o : Located) : Prop :=
  ∃ q, c.filter o.table input = .ok (some q) ∧ View.holds ⟨c.schema, store⟩ q o = .ok true

theorem satisfies_iff {tokens : List Token} (hscope : c.scope = .ok scope)
    (hlog : c.log .filter input = .ok tokens) {o : Located} :
    c.Satisfies store input o ↔ Filter.Satisfies scope store tokens o := by
  have hschema : scope.schema = c.schema := c.scope_yields.of_ok hscope
  cases htokens : tokens with
  | nil =>
    subst htokens
    constructor
    · intro h
      obtain ⟨q, hq, -⟩ := h
      obtain ⟨log, _, _, hread, hne, -⟩ := filter_eq_ok hq
      exact absurd (Except.ok.inj (hread.symm.trans hlog)) hne
    · intro h
      exact absurd h not_satisfies_nil
  | cons t rest =>
    have hfilter : c.filter o.table input = (compileIn scope o.table tokens).map some := by
      unfold filter buildFilter Filter.build compileIn
      rw [hlog, hscope, htokens, hschema]
      show ((buildIn scope o.table (t :: rest)).map some >>= c.settleIfAny o.table) = _
      cases buildIn scope o.table (t :: rest) <;> rfl
    rw [← htokens]
    unfold Satisfies Filter.Satisfies Scope.view
    rw [hfilter, hschema]
    cases compileIn scope o.table tokens with
    | error why => simp [Except.map]
    | ok found => simp [Except.map]

/-- The text is a group with the filter `inner` as a quantified condition behind it. -/
structure ConditionBehind (c : Compiler) (scope : Scope) (segment : Segment)
    (quantifier : Quantifier) (input inner : String) : Prop where
  plain : segment.quantifier = none
  read : c.term? scope input = some (⟨segment, []⟩, .bare)
  same : ∃ tokens log, segment.condition = some ⟨quantifier, tokens⟩ ∧
    c.log .filter inner = .ok log ∧ log.map Token.unplaced = tokens.map Token.unplaced

/-- The text is a group inside a quantifier, with the rest of the term `inner` behind it. -/
structure QuantifierAround (c : Compiler) (scope : Scope) (segment : Segment)
    (quantifier : Quantifier) (input inner : String) : Prop where
  around : segment.quantifier = some quantifier
  same : ∃ path next rest tail, c.term? scope input = some (⟨segment, next :: rest⟩, tail) ∧
    c.term? scope inner = some (path, tail) ∧ path.unplaced = (⟨next, rest⟩ : Path).unplaced ∧
    tail ≠ .missing

/-- The tree of a term tells what its promoted tree means. -/
theorem term_means {path : Path} {tail : Tail} {P : Located → Prop} {q : Query} {o : StoredObject}
    {b : Bool} (hscope : c.scope = .ok scope) (hterm : c.term? scope input = some (path, tail))
    (hmeans : ∀ raw, termQuery scope (buildIn scope) table path tail = .ok raw →
      TreeMeans scope store table raw P)
    (hcompile : c.filter table input = .ok (some q)) (ho : store.find? table o.id = some o)
    (hholds : View.holds ⟨c.schema, store⟩ q ⟨table, o⟩ = .ok b) : b = true ↔ P ⟨table, o⟩ := by
  obtain ⟨tokens, behind, hlog, helements, hread⟩ := term?_eq_some hterm
  have hschema : scope.schema = c.schema := c.scope_yields.of_ok hscope
  obtain ⟨found, scope', raw, hfound, -, hscope', hraw, hsettled⟩ := filter_eq_ok hcompile
  obtain rfl : tokens = found := Except.ok.inj (hlog.symm.trans hfound)
  obtain rfl : scope = scope' := Except.ok.inj (hscope.symm.trans hscope')
  obtain ⟨hpromote, hknown⟩ := Query.settle_eq_ok_iff.mp hsettled
  rw [buildIn_term helements hread] at hraw
  refine hmeans raw hraw q (hschema ▸ hpromote) hknown ⟨table, o⟩ ho rfl b ?_
  rw [View.holdsIfAny, Scope.view, hschema]
  exact hholds

/--
A quantifier around a group of links ranges over the objects behind all of its links, whatever
follows the group. With a quantified condition behind the group instead, the quantifier ranges over
the objects behind each link on its own, and one of the links has to satisfy it. The objects have
to satisfy the filters of the group.
-/
theorem group_terms_mean {quantifier : Quantifier} {q : Query} {o : StoredObject} {b : Bool}
    (hscope : c.scope = .ok scope) (hgroup : c.schema.fieldKind table segment.name = .group)
    (hlinks : ∀ link ∈ c.schema.nestedFields table segment.name,
      (c.schema.fieldKind table link).isLink = true)
    (hcompile : c.filter table input = .ok (some q)) (hstore : store.Keyed)
    (ho : store.find? table o.id = some o)
    (hholds : View.holds ⟨c.schema, store⟩ q ⟨table, o⟩ = .ok b) :
    (c.QuantifierAround scope segment quantifier input inner →
      (b = true ↔ quantifier.Ranges
        (fun t => ∃ link ∈ c.schema.nestedFields table segment.name,
          BehindLink scope store segment link ⟨table, o⟩ t)
        (c.Satisfies store inner))) ∧
    (c.ConditionBehind scope segment quantifier input inner →
      (b = true ↔ ∃ link ∈ c.schema.nestedFields table segment.name,
        quantifier.Ranges (BehindLink scope store segment link ⟨table, o⟩)
          (c.Satisfies store inner))) := by
  have hschema : scope.schema = c.schema := c.scope_yields.of_ok hscope
  rw [← hschema] at hgroup hlinks ⊢
  constructor
  · intro h
    obtain ⟨path, next, rest, tail, hterm, hinner, hsame, htail⟩ := h.same
    obtain ⟨log, behind, hlog, helements, hread⟩ := term?_eq_some hinner
    have hsatisfies : c.Satisfies store inner = Filter.Satisfies scope store log :=
      funext fun t => propext (satisfies_iff hscope hlog)
    rw [hsatisfies]
    have hbuild : ∀ target raw, termQuery scope (buildIn scope) target ⟨next, rest⟩ tail = .ok raw →
        buildIn scope target log = .ok raw := by
      intro target raw hraw
      rw [buildIn_term helements hread]
      exact termQuery_of_unplaced hsame.symm hraw
    exact term_means hscope hterm
      (fun raw hraw => groupTerm_around hgroup hlinks hstore h.around htail hbuild hraw)
      hcompile ho hholds
  · intro h
    obtain ⟨tokens, log, hcondition, hlog, hsame⟩ := h.same
    have hsatisfies : c.Satisfies store inner = Filter.Satisfies scope store tokens :=
      funext fun t => propext ((satisfies_iff hscope hlog).trans (satisfies_congr hsame))
    rw [hsatisfies]
    exact term_means hscope h.read
      (fun raw hraw => groupTerm_behind hgroup hlinks hstore h.plain hcondition hraw) hcompile ho hholds

/-- Tasks with a group of two links to persons. -/
def crew : Compiler :=
  ⟨⟨.ofList [("Person", ⟨.ofList [("Name", .scalar .text)]⟩),
    ("Task", ⟨.ofList [("Owner", .link "Person"), ("People", .group ["Owner", "Vendor"]),
      ("Vendor", .link "Person")]⟩)]⟩, .standard ⟨0, 0, 0⟩⟩

/-- A task with a person behind each link. -/
def chore : StoredObject :=
  ⟨"t", .empty, .ofList [("Owner", ["a"]), ("Vendor", ["b"])]⟩

/-- A person who is behind the second link of the task. -/
def vendor : StoredObject :=
  ⟨"b", .ofList [("Name", [.text "Bob"])], .empty⟩

/-- A task with persons of two names behind its links. -/
def crewStore : Store :=
  ((Store.empty.insert "Person" ⟨"a", .ofList [("Name", [.text "Ann"])], .empty⟩).insert "Person"
    vendor).insert "Task" chore

theorem crewStore_keyed : crewStore.Keyed :=
  ((Store.keyed_empty.insert _ _).insert _ _).insert _ _

theorem find?_chore : crewStore.find? "Task" chore.id = some chore :=
  Store.find?_insert_self _ _ chore

theorem people_links : ∀ link ∈ crew.schema.nestedFields "Task" "People",
    (crew.schema.fieldKind "Task" link).isLink = true := by
  decide +kernel

/-- The group of the task inside `ALL`. -/
def allAround : Segment :=
  { Segment.named "People" 4 with quantifier := some .all }

/-- The group of the task with a condition for all behind it. -/
def allBehind : Segment :=
  { Segment.named "People" 0 with
    condition := some ⟨.all, [.ofMarker .pathStart 11, ⟨.word, "Name", 11⟩, .ofMarker .pathEnd 15,
      ⟨.symbol, "=", 16⟩, ⟨.quoted, "Ann", 18⟩]⟩ }

/-- Not all persons of the task are named Ann, but all behind one of its links are. -/
theorem group_terms_mean_names : ∃ scope, crew.scope = .ok scope ∧
    crew.QuantifierAround scope allAround .all "ALL(People).Name = 'Ann'" "Name = 'Ann'" ∧
    ¬Quantifier.all.Ranges
      (fun t => ∃ link ∈ crew.schema.nestedFields "Task" "People",
        BehindLink scope crewStore allAround link ⟨"Task", chore⟩ t)
      (crew.Satisfies crewStore "Name = 'Ann'") ∧
    crew.ConditionBehind scope allBehind .all "People.ALL(Name = 'Ann')" "Name = 'Ann'" ∧
    ∃ link ∈ crew.schema.nestedFields "Task" "People",
      Quantifier.all.Ranges (BehindLink scope crewStore allBehind link ⟨"Task", chore⟩)
        (crew.Satisfies crewStore "Name = 'Ann'") := by
  have hread : (crew.scope.toOption.map fun scope => decide
      (crew.term? scope "ALL(People).Name = 'Ann'" =
        some (⟨allAround, [.named "Name" 12]⟩, .compare .eq (.raw (.text "Ann"))) ∧
      crew.term? scope "Name = 'Ann'" =
        some (⟨.named "Name" 0, []⟩, .compare .eq (.raw (.text "Ann"))) ∧
      crew.term? scope "People.ALL(Name = 'Ann')" = some (⟨allBehind, []⟩, .bare))) =
      some true := by decide +kernel
  have hlog : (crew.log .filter "Name = 'Ann'").toOption = some
      [.ofMarker .pathStart 0, ⟨.word, "Name", 0⟩, .ofMarker .pathEnd 4, ⟨.symbol, "=", 5⟩,
        ⟨.quoted, "Ann", 7⟩] := by decide +kernel
  have haround : (crew.filter "Task" "ALL(People).Name = 'Ann'").toOption.bind (·.bind fun q =>
      (View.holds ⟨crew.schema, crewStore⟩ q ⟨"Task", chore⟩).toOption) = some false := by
    decide +kernel
  have hbehind : (crew.filter "Task" "People.ALL(Name = 'Ann')").toOption.bind (·.bind fun q =>
      (View.holds ⟨crew.schema, crewStore⟩ q ⟨"Task", chore⟩).toOption) = some true := by
    decide +kernel
  obtain ⟨scope, hscope, hread⟩ := Option.map_eq_some_iff.mp hread
  obtain ⟨hterm, hinner, hcondition⟩ := of_decide_eq_true hread
  obtain ⟨found, hcompileAround, haround⟩ := Option.bind_eq_some_iff.mp haround
  obtain ⟨q, rfl, hfalse⟩ := Option.bind_eq_some_iff.mp haround
  obtain ⟨found, hcompileBehind, hbehind⟩ := Option.bind_eq_some_iff.mp hbehind
  obtain ⟨p, rfl, htrue⟩ := Option.bind_eq_some_iff.mp hbehind
  have hscope := toOption_eq_some hscope
  have hgroup : crew.schema.fieldKind "Task" "People" = .group := by decide +kernel
  have hquantifier : crew.QuantifierAround scope allAround .all "ALL(People).Name = 'Ann'"
      "Name = 'Ann'" :=
    ⟨rfl, _, _, _, _, hterm, hinner, by decide, by decide⟩
  have hquantified : crew.ConditionBehind scope allBehind .all "People.ALL(Name = 'Ann')"
      "Name = 'Ann'" :=
    ⟨rfl, hcondition, _, _, rfl, toOption_eq_some hlog, by decide⟩
  have hall := (group_terms_mean hscope hgroup people_links (toOption_eq_some hcompileAround)
    crewStore_keyed find?_chore (toOption_eq_some hfalse)).1 hquantifier
  have hsome := (group_terms_mean hscope hgroup people_links (toOption_eq_some hcompileBehind)
    crewStore_keyed find?_chore (toOption_eq_some htrue)).2 hquantified
  exact ⟨scope, hscope, hquantifier, fun h => Bool.false_ne_true (hall.mpr h), hquantified,
    hsome.mp rfl⟩

/-- A condition behind a group that asks for all objects is compiled, and holds although an object
behind one of the links does not satisfy it. -/
theorem group_condition_misses_link : ∃ q link person,
    crew.filter "Task" "People.ALL(Name = 'Ann')" = .ok (some q) ∧
    View.holds ⟨crew.schema, crewStore⟩ q ⟨"Task", chore⟩ = .ok true ∧
    link ∈ crew.schema.nestedFields "Task" "People" ∧
    (⟨crew.schema, crewStore⟩ : View).Follows link ⟨"Task", chore⟩ person ∧
    (∃ inner, crew.filter person.table "Name = 'Ann'" = .ok (some inner) ∧
      View.holds ⟨crew.schema, crewStore⟩ inner person = .ok false) := by
  have hrun : (crew.filter "Task" "People.ALL(Name = 'Ann')").toOption.bind (·.bind fun q =>
      (View.holds ⟨crew.schema, crewStore⟩ q ⟨"Task", chore⟩).toOption) = some true := by
    decide +kernel
  have hinner : (crew.filter "Person" "Name = 'Ann'").toOption.bind (·.bind fun q =>
      (View.holds ⟨crew.schema, crewStore⟩ q ⟨"Person", vendor⟩).toOption) = some false := by
    decide +kernel
  obtain ⟨found, hcompile, hrun⟩ := Option.bind_eq_some_iff.mp hrun
  obtain ⟨q, rfl, hholds⟩ := Option.bind_eq_some_iff.mp hrun
  obtain ⟨found, hcondition, hinner⟩ := Option.bind_eq_some_iff.mp hinner
  obtain ⟨inner, rfl, hfalse⟩ := Option.bind_eq_some_iff.mp hinner
  exact ⟨q, "Vendor", ⟨"Person", vendor⟩,
    toOption_eq_some hcompile, toOption_eq_some hholds, by decide +kernel,
    ⟨by decide +kernel, "b", by decide +kernel, rfl⟩,
    inner, toOption_eq_some hcondition, toOption_eq_some hfalse⟩

end Compiler

end LinkQuery
