import LinkQuery.Proofs.Combining
/-!
# Evaluation in order

A conjunction is evaluated part by part up to the first that fails or cannot be evaluated, a
disjunction up to the first that holds. Combining trees flattens them, leaves trivial parts out and
puts the base of a grouping into each branch, and shows the same result every time, errors
included.

Main statements:
- `View.holdsAll_eq_firstUnlike`, `View.holdsAny_eq_firstUnlike`: lists of trees in order.
- `View.holds_distributeAnd`: the base in front of a tree, inside each branch or not.
- `View.combinations_hold_in_order`: all combinations.
-/
namespace LinkQuery.View

variable (v : View) (o : Located)

/-! ## Parts in order -/

/-- The result is an error or the other answer. -/
def isUnlike (usual : Bool) : Except EvalError Bool → Bool
  | .error _ => true
  | .ok answer => answer != usual

/-- The first of the results that is not the usual answer, and else the usual answer. -/
def firstUnlike (usual : Bool) (results : List (Except EvalError Bool)) : Except EvalError Bool :=
  (results.find? (isUnlike usual)).getD (.ok usual)

/-- All trees hold unless the first that does not hold says otherwise. -/
theorem holdsAll_eq_firstUnlike (children : List Query) :
    v.holdsAll children o = firstUnlike true (children.map (v.holds · o)) := by
  induction children with
  | nil => rw [holdsAll]; rfl
  | cons first rest ih =>
    rw [holdsAll, List.map_cons, firstUnlike, List.find?_cons]
    cases v.holds first o with
    | error why => rfl
    | ok answer =>
      cases answer with
      | false => rfl
      | true => exact ih

/-- No tree holds unless the first that does not fail says otherwise. -/
theorem holdsAny_eq_firstUnlike (children : List Query) :
    v.holdsAny children o = firstUnlike false (children.map (v.holds · o)) := by
  induction children with
  | nil => rw [holdsAny]; rfl
  | cons first rest ih =>
    rw [holdsAny, List.map_cons, firstUnlike, List.find?_cons]
    cases v.holds first o with
    | error why => rfl
    | ok answer =>
      cases answer with
      | false => exact ih
      | true => rfl

/-! ## The base in front of a tree -/

theorem holds_and_pair (base q : Query) :
    v.holds (Query.and [base, q]) o = do
      if ← v.holds base o then v.holds q o else return false := by
  rw [holds_and, holdsAll, holdsAll_singleton]

/-- The base in front of each branch is the base in front of them all, if there is a branch. -/
theorem holdsAny_behind_base (base : Query) {branches : List Query} (hsome : branches ≠ []) :
    v.holdsAny (branches.map fun branch => Query.and [base, branch]) o = do
      if ← v.holds base o then v.holdsAny branches o else return false := by
  obtain ⟨first, rest, rfl⟩ := List.exists_cons_of_ne_nil hsome
  have hpair := v.holds_and_pair o base
  cases hbase : v.holds base o with
  | error why =>
    rw [List.map_cons, holdsAny, hpair, hbase]
    rfl
  | ok passes =>
    rw [hbase] at hpair
    cases passes with
    | false =>
      show v.holdsAny ((first :: rest).map _) o = .ok false
      rw [holdsAny_eq_firstUnlike, firstUnlike, List.find?_eq_none.mpr ?_]
      · rfl
      · simp [hpair, isUnlike, Pure.pure, Except.pure, Bind.bind, Except.bind]
    | true =>
      show v.holdsAny ((first :: rest).map _) o = v.holdsAny (first :: rest) o
      rw [holdsAny_eq_firstUnlike, holdsAny_eq_firstUnlike, List.map_map]
      exact congrArg _ (List.map_congr_left fun branch _ => hpair branch)

/-- Putting the base into each branch is evaluating the base first. A disjunction without branches
fails whatever the base says. -/
theorem holds_distributeAnd (base : Query) {q : Query} (h : q ≠ .anyOf []) :
    v.holds (base.distributeAnd q) o = do
      if ← v.holds base o then v.holds q o else return false := by
  cases q with
  | anyOf branches =>
    rw [Query.distributeAnd, holds_or, holds]
    exact v.holdsAny_behind_base o base fun hnone => h (congrArg _ hnone)
  | _ => exact v.holds_and_pair o base _

/-! ## All combinations -/

/--
A conjunction has the first result of its parts that is not `true`, a disjunction the first that is
not `false`, and the opposite of a tree the negated result. With a base distributed over a tree, the
base is evaluated, and then the tree if the base holds.
-/
theorem combinations_hold_in_order :
    (∀ children, v.holds (Query.and children) o =
      firstUnlike true (children.map (v.holds · o))) ∧
    (∀ children, v.holds (Query.or children) o =
      firstUnlike false (children.map (v.holds · o))) ∧
    (∀ q, v.holds (Query.not q) o = (v.holds q o).map (!·)) ∧
    ∀ base q, q ≠ .anyOf [] → v.holds (base.distributeAnd q) o = do
      if ← v.holds base o then v.holds q o else return false := by
  refine ⟨fun children => ?_, fun children => ?_, fun q => ?_, fun base q hq => ?_⟩
  · rw [holds_and, holdsAll_eq_firstUnlike]
  · rw [holds_or, holdsAny_eq_firstUnlike]
  · rw [holds_not]
    cases v.holds q o <;> rfl
  · exact v.holds_distributeAnd o base hq

/-- A base that cannot be evaluated in front of two branches, the first of which holds. -/
theorem combinations_hold_in_order_base : ∃ (v : View) (o : Located),
    Query.anyOf [.everything, .nothing] ≠ .anyOf [] ∧
    v.holds ((Query.linkId .any "Boss" "a").distributeAnd (.anyOf [.everything, .nothing])) o =
      .error (.notALink "Person" "Boss") := by
  refine ⟨⟨.empty, .empty⟩, ⟨"Person", ⟨"b", .empty, .empty⟩⟩, by simp, ?_⟩
  rw [(combinations_hold_in_order _ _).2.2.2 _ _ (by simp)]
  rfl

end LinkQuery.View
