import LinkQuery.Filter.Term
import LinkQuery.Proofs.PathLogs
import Mathlib.Data.List.Forall2
/-!
# Paths that differ in the filters inside them

Two paths are alike when they are the same but for the logs of their filters and conditions, and
these are related one by one. What is built from a path depends on the logs inside it only through
the trees that are built from them.

Main statements:
- `Filter.termQuery_alike`: the tree of a path with a tail.
- `Filter.distinctCount_alike`, `Filter.pathComparison_alike`: the trees of calls.
-/
namespace LinkQuery

variable {R : List Token → List Token → Prop}

/-- The conditions have the same quantifier and related logs. -/
def Condition.Alike (R : List Token → List Token → Prop) (c d : Condition) : Prop :=
  c.quantifier = d.quantifier ∧ R c.tokens d.tokens

/-- The segments are the same but for the logs of their filters and conditions, which are
related. -/
inductive Segment.Alike (R : List Token → List Token → Prop) : Segment → Segment → Prop
  | intro (s : Segment) {fs gs : List (List Token)} {c d : Option Condition}
    (hfilters : List.Forall₂ R fs gs) (hcondition : Option.Rel (Condition.Alike R) c d) :
    Alike R { s with filters := fs, condition := c } { s with filters := gs, condition := d }

/-- The segments of the paths are alike, one by one. -/
def Path.Alike (R : List Token → List Token → Prop) (p q : Path) : Prop :=
  List.Forall₂ (Segment.Alike R) p.segments q.segments

namespace Segment.Alike

variable {s t : Segment}

theorem named (name : String) (position : Nat) :
    (Segment.named name position).Alike R (.named name position) :=
  .intro (.named name position) .nil .none

theorem quantifiedBy (h : s.Alike R t) (q : Quantifier) :
    (s.quantifiedBy q).Alike R (t.quantifiedBy q) := by
  obtain ⟨s, hfilters, hcondition⟩ := h
  exact .intro (s.quantifiedBy q) hfilters hcondition

theorem repeated (h : s.Alike R t) (depth : Option Nat) :
    (s.repeated depth).Alike R (t.repeated depth) := by
  obtain ⟨s, hfilters, hcondition⟩ := h
  exact .intro (s.repeated depth) hfilters hcondition

theorem filteredBy {x y : List Token} (h : s.Alike R t) (hxy : R x y) :
    (s.filteredBy x).Alike R (t.filteredBy y) := by
  obtain ⟨s, hfilters, hcondition⟩ := h
  exact .intro s (List.rel_append hfilters (.cons hxy .nil)) hcondition

theorem conditioned {c d : Condition} (h : s.Alike R t) (hcd : c.Alike R d) :
    ({ s with condition := some c } : Segment).Alike R { t with condition := some d } := by
  obtain ⟨s, hfilters, -⟩ := h
  exact .intro s hfilters (.some hcd)

theorem renamed (h : s.Alike R t) (name : String) :
    ({ s with name := name } : Segment).Alike R { t with name := name } := by
  obtain ⟨s, hfilters, hcondition⟩ := h
  exact .intro { s with name := name } hfilters hcondition

theorem name_eq (h : s.Alike R t) : t.name = s.name := by
  obtain ⟨s, -, -⟩ := h
  rfl

theorem isUniversal_eq (h : s.Alike R t) : t.isUniversal = s.isUniversal := by
  obtain ⟨s, -, -⟩ := h
  rfl

theorem condition_isSome (h : s.Alike R t) : t.condition.isSome = s.condition.isSome := by
  obtain ⟨s, -, hcondition⟩ := h
  cases hcondition <;> rfl

theorem isRestricted_eq (h : s.Alike R t) : t.isRestricted = s.isRestricted := by
  have hsome := h.condition_isSome
  obtain ⟨s, hfilters, -⟩ := h
  rw [Segment.isRestricted, Segment.isRestricted, hsome]
  cases hfilters <;> rfl

end Segment.Alike

/-- A segment is alike itself, its logs being those of a set. -/
theorem Segment.Inside.alike {inner : Rule.LogSet} {s : Segment} (h : s.Inside inner) :
    s.Alike (fun x y => x = y ∧ inner x) s := by
  have hcondition : Option.Rel (Condition.Alike fun x y => x = y ∧ inner x) s.condition
      s.condition := by
    cases hc : s.condition with
    | none => exact .none
    | some c => exact .some ⟨rfl, rfl, h.condition c hc⟩
  exact .intro s (List.forall₂_same.mpr fun filter hfilter => ⟨rfl, h.filters filter hfilter⟩)
    hcondition

/-- What holds alike of segments that are alike holds of some segment of both lists, or of none. -/
theorem any_alike {f : Segment → Bool} {front back : List Segment}
    (hf : ∀ s t, Segment.Alike R s t → f t = f s) (h : List.Forall₂ (Segment.Alike R) front back) :
    back.any f = front.any f := by
  induction h with
  | nil => rfl
  | cons hone _ ih => rw [List.any_cons, List.any_cons, hf _ _ hone, ih]

namespace Path.Alike

variable {p q : Path}

theorem isRestricted_eq (h : p.Alike R q) : q.isRestricted = p.isRestricted :=
  any_alike (fun _ _ hone => hone.isRestricted_eq) h

theorem names_eq (h : p.Alike R q) : q.names = p.names := by
  have hnames : ∀ {front back : List Segment}, List.Forall₂ (Segment.Alike R) front back →
      back.map (·.name) = front.map (·.name) := by
    intro front back h
    induction h with
    | nil => rfl
    | cons hone _ ih => rw [List.map_cons, List.map_cons, hone.name_eq, ih]
  exact hnames h

theorem dotted_eq (h : p.Alike R q) : q.dotted = p.dotted := by
  rw [Path.dotted, Path.dotted, h.names_eq]

end Path.Alike

/-! ## Roles -/

/-- The names along a resolved path with their roles. -/
def ResolvedPath.roles (p : ResolvedPath) : List (String × FieldRole) :=
  p.segments.map fun s => (s.name, s.role)

theorem ResolvedPath.names_eq (p : ResolvedPath) : p.names = p.roles.map Prod.fst := by
  simp [ResolvedPath.names, ResolvedPath.roles, Function.comp_def]

namespace Schema

variable {schema : Schema} {table : String}

theorem resolveSegment_alike {s t : Segment} (h : s.Alike R t) (followed : Bool) :
    schema.resolveSegment table t followed = schema.resolveSegment table s followed := by
  obtain ⟨s, -, -⟩ := h
  rfl

theorem resolveFrom_alike {s t : Segment} {rest others : List Segment} (h : s.Alike R t)
    (hrest : List.Forall₂ (Segment.Alike R) rest others) :
    (schema.resolveFrom table t others).map ResolvedPath.roles =
      (schema.resolveFrom table s rest).map ResolvedPath.roles := by
  induction hrest generalizing s t table with
  | nil =>
    simp only [resolveFrom, resolveSegment_alike h]
    cases schema.resolveSegment table s false with
    | error why => rfl
    | ok role =>
      show Except.ok [(t.name, role)] = Except.ok [(s.name, role)]
      rw [h.name_eq]
  | @cons next other rest others hnext _ ih =>
    simp only [resolveFrom, resolveSegment_alike h]
    cases schema.resolveSegment table s true with
    | error why => rfl
    | ok role =>
      show (schema.resolveFrom (role.target?.getD table) other others >>= _).map _ =
        (schema.resolveFrom (role.target?.getD table) next rest >>= _).map _
      generalize role.target?.getD table = target
      have hbehind : (schema.resolveFrom target other others).map ResolvedPath.roles =
        (schema.resolveFrom target next rest).map ResolvedPath.roles := ih hnext
      revert hbehind
      cases schema.resolveFrom target other others <;>
        cases schema.resolveFrom target next rest <;> intro hbehind
      · exact congrArg Except.error (Except.error.inj hbehind)
      · cases hbehind
      · cases hbehind
      · have hroles := Except.ok.inj hbehind
        show Except.ok ((t.name, role) :: ResolvedPath.roles _) =
          Except.ok ((s.name, role) :: ResolvedPath.roles _)
        rw [hroles, h.name_eq]

/-- Paths that are alike have the same roles, or are refused alike. -/
theorem resolve_alike {p q : Path} (h : p.Alike R q) :
    (∃ why, schema.resolve table p = .error why ∧ schema.resolve table q = .error why) ∨
      ∃ found other, schema.resolve table p = .ok found ∧ schema.resolve table q = .ok other ∧
        other.roles = found.roles := by
  obtain ⟨first, rest⟩ := p
  obtain ⟨second, others⟩ := q
  rcases h with _ | ⟨hfirst, hrest⟩
  have hroles : (schema.resolve table ⟨second, others⟩).map ResolvedPath.roles =
      (schema.resolve table ⟨first, rest⟩).map ResolvedPath.roles := resolveFrom_alike hfirst hrest
  cases hp : schema.resolve table ⟨first, rest⟩ <;>
    cases hq : schema.resolve table ⟨second, others⟩ <;> rw [hp, hq] at hroles
  · exact Or.inl ⟨_, rfl, by rw [Except.error.inj hroles]⟩
  · cases hroles
  · cases hroles
  · exact Or.inr ⟨_, _, rfl, rfl, Except.ok.inj hroles⟩

end Schema

/-! ## Trees -/

namespace Filter

open Schema (resolveSegment_alike)

variable {a b : Nested} {scope : Scope} {table target : String} {s t : Segment}
  {onward : Option Onward} {tail : Tail} {role : FieldRole}

/-- The first builds what the second builds from every related log. -/
def Nested.Respects (R : List Token → List Token → Prop) (a b : Nested) : Prop :=
  ∀ x y, R x y → ∀ table, a table x = b table y

theorem allFilters_alike (h : Nested.Respects R a b) {fs gs : List (List Token)}
    (hfilters : List.Forall₂ R fs gs) : allFilters a table fs = allFilters b table gs := by
  have hparts : fs.mapM (a table) = gs.mapM (b table) := by
    induction hfilters with
    | nil => rfl
    | cons hone _ ih => rw [List.mapM_cons, List.mapM_cons, h _ _ hone, ih]
  rw [allFilters, hparts]
  rfl

section Segments

variable (h : Nested.Respects R a b) (hst : s.Alike R t)
include h hst

theorem linkQuery_alike :
    linkQuery a s target onward tail = linkQuery b t target onward tail := by
  obtain ⟨s, hfilters, hcondition⟩ := hst
  simp only [linkQuery, allFilters_alike h hfilters]
  cases hcondition with
  | none => cases onward <;> rfl
  | some hone => simp only [h _ _ hone.2, hone.1]

theorem repeatedCondition_alike (isLast : Bool) :
    repeatedCondition a s target isLast tail = repeatedCondition b t target isLast tail := by
  obtain ⟨s, -, hcondition⟩ := hst
  cases hcondition with
  | none => rfl
  | some hone => simp only [repeatedCondition, h _ _ hone.2, hone.1]

theorem repeatedLinkQuery_alike :
    repeatedLinkQuery a s target onward tail = repeatedLinkQuery b t target onward tail := by
  have hcondition : repeatedCondition a s target onward.isNone tail =
      repeatedCondition b t target onward.isNone tail := repeatedCondition_alike h hst _
  obtain ⟨s, hfilters, -⟩ := hst
  simp only [repeatedLinkQuery, allFilters_alike h hfilters, hcondition]

theorem fieldQuery_alike :
    fieldQuery a role s onward tail = fieldQuery b role t onward tail := by
  have hleaf : ∀ type several, leafQuery type several s tail = leafQuery type several t tail := by
    intro type several
    have hrestricted := hst.isRestricted_eq
    obtain ⟨s, -, -⟩ := hst
    simp only [leafQuery, hrestricted]
  have hlink : ∀ target,
      anyLinkQuery a s target onward tail = anyLinkQuery b t target onward tail := by
    intro target
    have hone : linkQuery a s target onward tail = linkQuery b t target onward tail :=
      linkQuery_alike h hst
    have hmany : repeatedLinkQuery a s target onward tail =
        repeatedLinkQuery b t target onward tail := repeatedLinkQuery_alike h hst
    obtain ⟨s, -, -⟩ := hst
    simp only [anyLinkQuery, hone, hmany]
  cases role with
  | scalar type | multiValued type | system => exact hleaf _ _
  | link target | crossLink target => exact hlink target
  | group target =>
    obtain ⟨s, -, -⟩ := hst
    rfl

theorem segmentQuery_alike :
    segmentQuery scope a table s onward tail = segmentQuery scope b table t onward tail := by
  have hmember : memberQuery scope a table s onward tail =
      memberQuery scope b table t onward tail := by
    funext member
    have hrenamed := hst.renamed member
    simp only [memberQuery, resolveSegment_alike hrenamed, fieldQuery_alike h hrenamed]
  have hfield : ∀ role, fieldQuery a role s onward tail = fieldQuery b role t onward tail :=
    fun _ => fieldQuery_alike h hst
  have hresolve : scope.schema.resolveSegment table t onward.isSome =
      scope.schema.resolveSegment table s onward.isSome := resolveSegment_alike hst _
  simp only [segmentQuery, groupQuery, hmember, hfield, hresolve, hst.name_eq, hst.isUniversal_eq]

omit hst

theorem chainQuery_alike {rest others : List Segment} (hst : s.Alike R t)
    (hrest : List.Forall₂ (Segment.Alike R) rest others) :
    chainQuery scope a table s rest tail = chainQuery scope b table t others tail := by
  induction hrest generalizing s t table tail with
  | nil => exact segmentQuery_alike h hst
  | @cons next other rest others hnext hrest ih =>
    have huniversal : (other :: others).any Segment.isUniversal =
        (next :: rest).any Segment.isUniversal :=
      any_alike (fun _ _ hone => hone.isUniversal_eq) (.cons hnext hrest)
    simp only [chainQuery, ih hnext, huniversal]
    exact segmentQuery_alike h hst

/-- The tree of a path depends on the logs inside it only through their trees. -/
theorem termQuery_alike {p q : Path} (hpq : p.Alike R q) :
    termQuery scope a table p tail = termQuery scope b table q tail := by
  have huniversal : q.segments.any Segment.isUniversal = p.segments.any Segment.isUniversal :=
    any_alike (fun _ _ hone => hone.isUniversal_eq) hpq
  obtain ⟨first, rest⟩ := p
  obtain ⟨second, others⟩ := q
  rcases hpq with _ | ⟨hfirst, hrest⟩
  simp only [termQuery, huniversal, chainQuery_alike h hfirst hrest]

end Segments

section Calls

variable {schema : Schema} {p q p' q' : Path}

theorem distinctCount_alike (h : p.Alike R q) (count : CountTest) :
    distinctCount schema table p count = distinctCount schema table q count := by
  rcases schema.resolve_alike h with ⟨why, hp, hq⟩ | ⟨found, other, hp, hq, hroles⟩
  · rw [distinctCount, distinctCount, hp, hq]
    rfl
  · have hnames : other.names = found.names := by
      rw [other.names_eq, found.names_eq, hroles]
    have hlinks : (other.segments.any (·.role.kind.isLink)) =
        found.segments.any (·.role.kind.isLink) := by
      have hany := congrArg (List.any · fun x => x.2.kind.isLink) hroles
      simpa [ResolvedPath.roles, Function.comp_def] using hany
    simp only [distinctCount, hp, hq, h.isRestricted_eq, h.dotted_eq, bind, Except.bind, hnames,
      hlinks]

theorem comparedPath_alike (h : p.Alike R q) (op : PathOp) :
    comparedPath schema table op p = comparedPath schema table op q := by
  simp only [comparedPath, h.isRestricted_eq, h.dotted_eq]
  rcases schema.resolve_alike h with ⟨why, hp, hq⟩ | ⟨found, other, hp, hq, hroles⟩
  · rw [hp, hq]
  · have hnames : other.names = found.names := by
      rw [other.names_eq, found.names_eq, hroles]
    simp only [hp, hq, bind, Except.bind, hnames]

theorem pathComparison_alike (h : p.Alike R q) (h' : p'.Alike R q') (op : PathOp) :
    pathComparison schema table op p p' = pathComparison schema table op q q' := by
  simp only [pathComparison, comparedPath_alike h, comparedPath_alike h']

end Calls

end Filter

end LinkQuery
