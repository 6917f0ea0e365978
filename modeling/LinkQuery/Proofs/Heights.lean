import LinkQuery.Filter.Build
import LinkQuery.Proofs.Combining
import LinkQuery.Proofs.Terms
import LinkQuery.Query.Promotion
import Mathlib.Logic.Function.Iterate
/-!
# Heights of filter trees

How much each step of building a filter adds to the height of its tree. A conjunction, a disjunction
and a negation add one level, however many parts they have and however often they are applied, and a
segment of a path adds a fixed number of levels to what stands behind it and inside it.

Main statements:
- `Query.height_and`, `Query.height_or`, `Query.height_not_iterate`: combinations.
- `Query.height_promote`: promotion.
- `Filter.chainQuery_height`, `Filter.termQuery_height`: the tree of a path.
-/
namespace LinkQuery

/-! ## Results that are there -/

/-- If there is a result, it satisfies `P`. -/
def Ensures {α : Type} (P : α → Prop) (r : Except QueryError α) : Prop :=
  ∀ a, r = .ok a → P a

namespace Ensures

variable {α β : Type} {P Q : α → Prop} {R : β → Prop} {r : Except QueryError α}

theorem ok {a : α} (h : P a) : Ensures P (.ok a) := by
  intro b hb
  cases hb
  exact h

theorem error {why : QueryError} : Ensures P (.error why) := by
  intro a ha
  cases ha

theorem mono (h : Ensures P r) (hPQ : ∀ a, P a → Q a) : Ensures Q r :=
  fun a ha => hPQ a (h a ha)

theorem bind {f : α → Except QueryError β} (h : Ensures P r) (hf : ∀ a, P a → Ensures R (f a)) :
    Ensures R (r >>= f) := by
  intro b hb
  obtain ⟨a, ha, hb⟩ := bind_eq_ok hb
  exact hf a (h a ha) b hb

/-- The result in front does not matter. -/
theorem after {f : α → Except QueryError β} (hf : ∀ a, Ensures R (f a)) : Ensures R (r >>= f) :=
  bind (P := fun _ => True) (fun _ _ => trivial) fun a _ => hf a

theorem map {f : α → β} (h : Ensures P r) (hf : ∀ a, P a → R (f a)) : Ensures R (r.map f) := by
  intro b hb
  obtain ⟨a, ha, rfl⟩ := map_eq_ok hb
  exact hf a (h a ha)

/-- A refusal on a condition, and the steps behind it. -/
theorem guarded {c : Prop} [Decidable c] {cause : InvalidCause} {k : Unit → Except QueryError β}
    (h : Ensures R (k ())) : Ensures R (if c then invalid cause >>= k else k ()) := by
  split
  · exact error
  · exact h

theorem mapM {f : α → Except QueryError β} {as : List α} (h : ∀ a ∈ as, Ensures R (f a)) :
    Ensures (∀ b ∈ ·, R b) (as.mapM f) := by
  intro bs hbs b hb
  obtain ⟨a, ha, hab⟩ := (mem_mapM hbs).2 b hb
  exact h a ha b hab

end Ensures

/-! ## Heights -/

namespace Query

mutual

/-- The most nodes on a way down from the root of a tree. -/
def height : Query → Nat
  | .allOf children => heightOfAll children + 1
  | .anyOf children => heightOfAll children + 1
  | .negated inner => height inner + 1
  | .multiValue _ inner => height inner + 1
  | .link _ _ filter inner => max (heightIfAny filter) (heightIfAny inner) + 1
  | .transitiveLink _ _ inner => heightIfAny inner + 1
  | .linkCount _ filter _ _ => heightIfAny filter + 1
  | .linkCountRange _ filter _ => heightIfAny filter + 1
  | _ => 1

/-- The height of the highest of several trees. -/
def heightOfAll : List Query → Nat
  | [] => 0
  | child :: rest => max (height child) (heightOfAll rest)

/-- The height of a tree that may be missing. -/
def heightIfAny : Option Query → Nat
  | none => 0
  | some inner => height inner

end

attribute [local simp] height heightOfAll heightIfAny

variable {k : Nat} {children : List Query} {q : Query}

theorem one_le_height (q : Query) : 1 ≤ q.height := by
  cases q <;> simp

theorem heightOfAll_le : heightOfAll children ≤ k ↔ ∀ child ∈ children, child.height ≤ k := by
  induction children with
  | nil => simp
  | cons child rest ih => simp only [heightOfAll, Nat.max_le, ih, List.forall_mem_cons]

/-! ### Combinations -/

/-- A combination is at most one level higher than its parts, however many they are. -/
theorem Combines.height {compound : List Query → Query} {trivial : Query}
    {combine : List Query → Query} (hcombine : Combines compound trivial combine)
    (htrivial : trivial.height = 1)
    (hcompound : ∀ parts, (compound parts).height = heightOfAll parts + 1)
    (h : ∀ child ∈ children, child.height ≤ k) : (combine children).height ≤ k + 1 := by
  have hlow : ∀ q : Query, q.height ≤ k → q.height ≤ k + 1 := fun _ => Nat.le_succ_of_le
  refine hcombine.of_parts (Q := (·.height ≤ k + 1)) (fun parts hparts => ?_) ?_ hlow
    (fun flat hflat => ?_) h
  · rw [hcompound] at hparts
    exact heightOfAll_le.mp (Nat.le_of_succ_le hparts)
  · rw [htrivial]
    exact Nat.le_add_left 1 k
  · rw [hcompound]
    exact Nat.succ_le_succ (heightOfAll_le.mpr hflat)

theorem height_and (h : ∀ child ∈ children, child.height ≤ k) : (and children).height ≤ k + 1 :=
  and_combines.height rfl (fun _ => rfl) h

theorem height_or (h : ∀ child ∈ children, child.height ≤ k) : (or children).height ≤ k + 1 :=
  or_combines.height rfl (fun _ => rfl) h

theorem height_not : (not q).height ≤ q.height + 1 := by
  cases q with
  | negated inner =>
    simp only [not, height]
    omega
  | _ => simp [not]

/-- Negations in a row cancel each other, so that any number of them adds one level at most. -/
theorem height_not_iterate (n : Nat) : (not^[n] q).height ≤ q.height + 1 := by
  suffices h : (not^[n] q).height ≤ q.height ∨
      ∃ inner, not^[n] q = .negated inner ∧ inner.height ≤ q.height by
    obtain h | ⟨inner, heq, h⟩ := h
    · omega
    · rw [heq, height]
      omega
  induction n with
  | zero => exact Or.inl (Nat.le_refl _)
  | succ n ih =>
    rw [Function.iterate_succ_apply']
    obtain h | ⟨inner, heq, h⟩ := ih
    · generalize not^[n] q = p at h
      cases p with
      | negated inner =>
        simp only [height] at h
        exact Or.inl (by simp only [not]; omega)
      | everything => exact Or.inl (one_le_height q)
      | nothing => exact Or.inl (one_le_height q)
      | _ => exact Or.inr ⟨_, rfl, h⟩
    · rw [heq]
      exact Or.inl h

theorem height_andAll {parts : List (Option Query)} (h : ∀ part ∈ parts, heightIfAny part ≤ k) :
    heightIfAny (andAll parts) ≤ k + 1 := by
  unfold andAll
  split
  · simp
  · refine height_and fun child hchild => ?_
    obtain ⟨part, hpart, hsome⟩ := List.mem_filterMap.mp hchild
    obtain rfl : part = some child := hsome
    exact h _ hpart

/-! ### Promotion -/

section Promotion

variable {schema : Schema} {table : String}

theorem height_groupIdentity {group id : String} :
    Ensures (·.height ≤ 2) (groupIdentity schema table group id) := by
  unfold groupIdentity
  split
  · exact .error
  · refine .ok (height_or fun child hchild => ?_)
    obtain ⟨link, -, rfl⟩ := List.mem_map.mp hchild
    simp

theorem height_promoteComparison {field : String} {op : CompareOp} {value : Literal} :
    Ensures (·.height ≤ 2) (promoteComparison schema table field op value) := by
  unfold promoteComparison
  split
  · unfold objectIdentity
    split
    · exact .ok (by simp)
    · exact .error
    · exact .ok (by simp)
  · split
    · exact Ensures.after fun _ => .ok (by simp)
    · exact Ensures.after fun _ => .ok (by simp)
    · exact Ensures.after fun _ => height_groupIdentity
    · exact .ok (by simp)

mutual

/-- Promotion puts one more level in the place of a comparison, at most. -/
theorem height_promote : ∀ (table : String) (q : Query),
    Ensures (·.height ≤ q.height + 1) (promote schema table q)
  | table, .allOf children => by
    simp only [promote, height]
    refine (height_promoteAll table children).bind fun promoted h => .ok (height_and h)
  | table, .anyOf children => by
    simp only [promote, height]
    refine (height_promoteAll table children).bind fun promoted h => .ok (height_or h)
  | table, .negated inner => by
    simp only [promote, height]
    refine (height_promote table inner).bind fun promoted h => .ok ?_
    have := height_not (q := promoted)
    omega
  | table, .multiValue quantifier inner => by
    simp only [promote, height]
    refine (height_promote table inner).bind fun promoted h => .ok ?_
    simpa using h
  | table, .comparison field op value => by
    simpa only [promote, height] using height_promoteComparison
  | table, .link quantifier name filter inner => by
    simp only [promote, height]
    refine Ensures.after fun target => ?_
    refine (height_promoteIfAny target filter).bind fun f hf => ?_
    refine (height_promoteIfAny target inner).bind fun i hi => .ok ?_
    simp only [height]
    omega
  | table, .transitiveLink name depth inner => by
    simp only [promote, height]
    refine Ensures.after fun target => ?_
    refine (height_promoteIfAny target inner).bind fun i hi => .ok ?_
    simpa using hi
  | table, .linkId quantifier name id => by
    simp only [promote]
    refine Ensures.after fun target => .ok ?_
    simp
  | table, .linkCount name filter op count => by
    simp only [promote, height]
    refine Ensures.after fun target => ?_
    refine (height_promoteIfAny target filter).bind fun i hi => .ok ?_
    simpa using hi
  | table, .linkCountRange name filter range => by
    simp only [promote, height]
    refine Ensures.after fun target => ?_
    refine (height_promoteIfAny target filter).bind fun i hi => .ok ?_
    simpa using hi
  | table, .everything | table, .nothing | table, .interval _ _ | table, .objectId _
  | table, .fieldCount _ _ _ | table, .fieldCountRange _ _ | table, .pathCountRange _ _
  | table, .pathComparison _ _ _ => .ok (Nat.le_succ _)

theorem height_promoteAll : ∀ (table : String) (children : List Query),
    Ensures (∀ p ∈ ·, p.height ≤ heightOfAll children + 1) (promoteAll schema table children)
  | table, [] => .ok (by simp)
  | table, child :: rest => by
    simp only [promoteAll, heightOfAll]
    refine (height_promote table child).bind fun first hfirst => ?_
    refine (height_promoteAll table rest).bind fun others hothers => .ok ?_
    refine List.forall_mem_cons.mpr ⟨by omega, fun p hp => ?_⟩
    have := hothers p hp
    omega

theorem height_promoteIfAny : ∀ (table : String) (inner : Option Query),
    Ensures (heightIfAny · ≤ heightIfAny inner + 1) (promoteIfAny schema table inner)
  | _, none => .ok (Nat.zero_le _)
  | table, some inner => (height_promote table inner).map fun _ h => h

end

/-- Settling a filter adds one level at most. -/
theorem height_settle {q : Query} : Ensures (·.height ≤ q.height + 1) (q.settle schema table) := by
  refine (height_promote table q).bind fun promoted h => ?_
  exact Ensures.after fun _ => .ok h

end Promotion

end Query

/-! ## Paths -/

/-- The logs of the filters inside a segment. -/
def Segment.logs (s : Segment) : List (List Token) :=
  s.filters ++ (s.condition.map Condition.tokens).toList

namespace Filter

open Query

/-- The trees of the filters inside a segment are not higher than `k`. -/
def Nested.Below (nested : Nested) (k : Nat) (s : Segment) : Prop :=
  ∀ log ∈ s.logs, ∀ table, Ensures (·.height ≤ k) (nested table log)

/-- The trees of what stands behind a segment are not higher than `k`. -/
def Onward.Below (k : Nat) (onward : Onward) : Prop :=
  ∀ table tail, Ensures (·.height ≤ k) (onward.build table tail)

section Segments

variable {scope : Scope} {nested : Nested} {table target : String} {segment : Segment}
  {onward : Option Onward} {tail : Tail} {k : Nat}

theorem Nested.Below.filters (h : nested.Below k segment) (table : String) :
    Ensures (heightIfAny · ≤ k + 1) (allFilters nested table segment.filters) := by
  unfold allFilters
  have hparts : Ensures (∀ q ∈ ·, height q ≤ k) (segment.filters.mapM (nested table)) :=
    Ensures.mapM fun filter hfilter => h filter (List.mem_append_left _ hfilter) table
  refine hparts.bind fun parts hparts => .ok (height_andAll fun part hpart => ?_)
  obtain ⟨q, hq, rfl⟩ := List.mem_map.mp hpart
  exact hparts q hq

theorem Nested.Below.condition (h : nested.Below k segment) {condition : Condition}
    (hcondition : segment.condition = some condition) :
    Ensures (·.height ≤ k) (nested table condition.tokens) := by
  refine h _ (List.mem_append_right _ ?_) table
  simp [hcondition]

/-! ### Links -/

theorem linkEnd_height {quantifier : Quantifier} {link : String} {filter : Option Query}
    (h : heightIfAny filter ≤ k + 1) :
    Ensures (·.height ≤ k + 3) (linkEnd quantifier link filter tail) := by
  unfold linkEnd
  split
  · refine .ok ?_
    simp only [height, heightIfAny]
    omega
  · refine .ok ?_
    simp only [height, heightIfAny]
    omega
  · refine .ok (Nat.le_trans height_not ?_)
    simp only [height, heightIfAny]
    omega
  · cases filter with
    | none =>
      refine .ok ?_
      simp only [height]
      omega
    | some filter =>
      refine .ok ?_
      simp only [height, heightIfAny] at h ⊢
      omega
  · exact .error
  · exact .error
  · refine .ok ?_
    simp only [height]
    omega
  · refine .ok ?_
    simp only [height]
    omega

theorem behindLink_height {onward : Onward} (h : onward.Below k) :
    Ensures (·.height ≤ k + 1) (behindLink segment target onward tail) := by
  unfold behindLink
  split
  · exact (h target .present).map fun q hq => Nat.le_trans height_not (Nat.succ_le_succ hq)
  · exact (h target tail).mono fun q hq => Nat.le_succ_of_le hq

theorem linkQuery_height (h : nested.Below k segment) (honward : ∀ o ∈ onward, o.Below k) :
    Ensures (·.height ≤ k + 3) (linkQuery nested segment target onward tail) := by
  unfold linkQuery
  refine (h.filters target).bind fun filter hfilter => ?_
  split
  · rename_i condition hcondition
    refine Ensures.guarded ((h.condition hcondition).bind fun inner hinner => .ok ?_)
    simp only [height, heightIfAny]
    omega
  · refine (behindLink_height (honward _ rfl)).bind fun inner hinner => .ok ?_
    simp only [height, heightIfAny]
    omega
  · exact linkEnd_height hfilter

/-! ### Links followed repeatedly -/

theorem repeatedCondition_height {isLast : Bool} (h : nested.Below k segment) :
    Ensures (heightIfAny · ≤ k + 1) (repeatedCondition nested segment target isLast tail) := by
  unfold repeatedCondition
  split
  · exact .ok (Nat.zero_le _)
  · rename_i condition hcondition
    refine Ensures.guarded (Ensures.guarded ((h.condition hcondition).bind fun inner hinner => ?_))
    exact .ok (Nat.le_succ_of_le hinner)

theorem repeatedEnd_height {link : String} :
    Ensures (heightIfAny · ≤ k + 1) (repeatedEnd link tail) := by
  unfold repeatedEnd
  split
  · exact .ok (Nat.zero_le _)
  · exact .ok (Nat.zero_le _)
  · exact .ok (Nat.zero_le _)
  · refine .ok ?_
    simp only [heightIfAny, height]
    omega
  · exact .error
  · exact .error

theorem quantifiedRepeat_height {link : String} {quantifier : Option Quantifier} {q : Query}
    (h : q.height ≤ k) : Ensures (·.height ≤ k + 1) (quantifiedRepeat link quantifier q) := by
  unfold quantifiedRepeat
  split
  · exact .ok (Nat.le_succ_of_le h)
  · exact .ok (Nat.le_succ_of_le h)
  · exact .ok (Nat.le_trans height_not (Nat.succ_le_succ h))
  · exact .error

theorem repeatedLinkQuery_height (h : nested.Below k segment)
    (honward : ∀ o ∈ onward, o.Below k) :
    Ensures (·.height ≤ k + 5) (repeatedLinkQuery nested segment target onward tail) := by
  unfold repeatedLinkQuery
  refine (h.filters target).bind fun filter hfilter => ?_
  refine (repeatedCondition_height h).bind fun condition hcondition => ?_
  have hend : ∀ continuation, heightIfAny continuation ≤ k + 1 → ∀ opposite : Bool,
      Ensures (·.height ≤ k + 5) (quantifiedRepeat segment.name segment.quantifier
        (if opposite then Query.not (.transitiveLink segment.name segment.depth
            (andAll [filter, condition, continuation]))
          else .transitiveLink segment.name segment.depth
            (andAll [filter, condition, continuation]))) := by
    intro continuation hcontinuation opposite
    have hinner : heightIfAny (andAll [filter, condition, continuation]) ≤ k + 2 := by
      refine height_andAll fun part hpart => ?_
      simp only [List.mem_cons, List.not_mem_nil, or_false] at hpart
      rcases hpart with rfl | rfl | rfl <;> assumption
    refine quantifiedRepeat_height ?_
    split
    · refine Nat.le_trans height_not ?_
      simp only [height]
      omega
    · simp only [height]
      omega
  cases onward with
  | none => exact repeatedEnd_height.bind fun _ h => hend _ h _
  | some onward =>
    have hbehind : Ensures (heightIfAny · ≤ k + 1) (some <$> onward.build target tail) :=
      (honward onward rfl target tail).map fun q hq => Nat.le_succ_of_le hq
    exact hbehind.bind fun _ h => hend _ h _

/-! ### Fields and groups -/

theorem leafQuery_height {type : Option ScalarType} {several : Bool} :
    Ensures (·.height ≤ 3) (leafQuery type several segment tail) := by
  have hvalue : (hasValue type segment.name).height = 1 := by
    unfold hasValue
    split <;> rfl
  have htest : Ensures (·.height ≤ 2) (leafTest type segment.name tail) := by
    unfold leafTest
    split
    · exact .ok (by omega)
    · exact .ok (by omega)
    · exact .ok (Nat.le_trans height_not (by omega))
    · exact Ensures.after fun _ => .ok (by simp [height])
    · exact Ensures.after fun _ => .ok (by simp [height])
    · exact .error
    · exact .ok (by simp [height])
    · exact .ok (by simp [height])
  unfold leafQuery
  refine Ensures.guarded (htest.bind fun test htest => ?_)
  split
  · unfold quantifiedTest
    split
    · exact .ok (Nat.succ_le_succ htest)
    · exact .error
    · exact .ok (Nat.succ_le_succ htest)
  · exact .ok (Nat.le_succ_of_le htest)

theorem anyLinkQuery_height (h : nested.Below k segment) (honward : ∀ o ∈ onward, o.Below k) :
    Ensures (·.height ≤ k + 5) (anyLinkQuery nested segment target onward tail) := by
  unfold anyLinkQuery
  split
  · exact repeatedLinkQuery_height h honward
  · exact (linkQuery_height h honward).mono fun q hq => by omega

theorem fieldQuery_height {role : FieldRole} (h : nested.Below k segment)
    (honward : ∀ o ∈ onward, o.Below k) :
    Ensures (·.height ≤ k + 5) (fieldQuery nested role segment onward tail) := by
  cases role with
  | link target => exact anyLinkQuery_height h honward
  | crossLink target => exact anyLinkQuery_height h honward
  | group target => exact .error
  | scalar type => exact leafQuery_height.mono fun q hq => by omega
  | multiValued type => exact leafQuery_height.mono fun q hq => by omega
  | system => exact leafQuery_height.mono fun q hq => by omega

/-- A group is one level higher than its members, however many they are. -/
theorem groupQuery_height (h : nested.Below k segment) (honward : ∀ o ∈ onward, o.Below k) :
    Ensures (·.height ≤ k + 6) (groupQuery scope nested table segment onward tail) := by
  unfold groupQuery
  refine Ensures.guarded (Ensures.guarded ?_)
  have hmember : ∀ member, Ensures (·.height ≤ k + 5)
      (memberQuery scope nested table segment onward tail member) := by
    intro member
    have hnamed : nested.Below k { segment with name := member } := h
    exact Ensures.after fun role => fieldQuery_height hnamed honward
  have hbranches : ∀ members : List String, Ensures (∀ q ∈ ·, height q ≤ k + 5)
      (members.mapM (memberQuery scope nested table segment onward tail)) :=
    fun members => Ensures.mapM fun member _ => hmember member
  refine (hbranches _).bind fun branches hbranches => .ok ?_
  split
  · exact height_and hbranches
  · exact height_or hbranches

theorem segmentQuery_height (h : nested.Below k segment) (honward : ∀ o ∈ onward, o.Below k) :
    Ensures (·.height ≤ k + 6) (segmentQuery scope nested table segment onward tail) := by
  refine Ensures.after fun role => ?_
  split
  · exact groupQuery_height h honward
  · exact (fieldQuery_height h honward).mono fun q hq => by omega

end Segments

/-! ### Segments in a row -/

/-- The filters inside the segments have low trees: there is less room behind each segment, and six
levels for a segment are in the room that it takes. -/
def Nested.Fits (nested : Nested) (base : Nat) : Nat → List Segment → Prop
  | _, [] => True
  | 0, _ :: _ => False
  | room + 1, segment :: rest =>
    nested.Below (base + 6 * room) segment ∧ nested.Fits base room rest

variable {scope : Scope} {nested : Nested} {base room : Nat}

theorem chainQuery_height {rest : List Segment} {segment : Segment} {table : String} {tail : Tail}
    (h : nested.Fits base room (segment :: rest)) :
    Ensures (·.height ≤ base + 6 * room) (chainQuery scope nested table segment rest tail) := by
  induction rest generalizing room table segment tail with
  | nil =>
    cases room with
    | zero => exact h.elim
    | succ room => exact segmentQuery_height h.1 nofun
  | cons next rest ih =>
    cases room with
    | zero => exact h.elim
    | succ room =>
      refine segmentQuery_height h.1 fun onward honward => ?_
      cases honward
      exact fun target tail => ih h.2

/-- The tree of a path is as high as the room for its segments allows. -/
theorem termQuery_height {path : Path} {table : String} {tail : Tail}
    (h : nested.Fits base room path.segments) :
    Ensures (·.height ≤ base + 6 * room + 1) (termQuery scope nested table path tail) := by
  unfold termQuery
  split
  · exact (chainQuery_height h).map fun q hq => Nat.le_trans height_not (Nat.succ_le_succ hq)
  · exact (chainQuery_height h).mono fun q hq => Nat.le_succ_of_le hq

end Filter

end LinkQuery
