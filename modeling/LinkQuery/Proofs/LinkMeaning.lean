import LinkQuery.Proofs.BreadthFirst
import LinkQuery.Proofs.Combining
/-!
# What links in a tree mean

The node of a link, followed once or repeatedly, asks for an object behind the link that satisfies
its filter and its condition. A tree tells whether a property holds only where its evaluation comes
to an end.

Main statements:
- `View.node_tells`, `View.link_tells`: the objects behind a link or a group.
- `View.transitiveLink_tells`: an object at a distance along a link.
-/
namespace LinkQuery

/-- Of the objects of a set, those with a property are as many as the quantifier asks for. -/
def Quantifier.Ranges (quantifier : Quantifier) (among P : Located → Prop) : Prop :=
  match quantifier with
  | .any | .count => ∃ t, among t ∧ P t
  | .all => ∀ t, among t → P t
  | .none => ∀ t, among t → ¬P t

namespace Quantifier

/-- What a test for existence asks of a witness: `NONE` asks for there to be none. -/
def Asks (quantifier : Quantifier) (W : Prop) : Prop :=
  match quantifier with
  | .none => ¬W
  | _ => W

variable {quantifier : Quantifier}

theorem asks_congr {W W' : Prop} (h : W ↔ W') : quantifier.Asks W ↔ quantifier.Asks W' := by
  rw [h]

/-- Ranging over the objects of a set, `ANY` and `NONE` ask for an object with the property. -/
theorem ranges_iff_asks (hexistence : quantifier.existence = quantifier)
    {among P : Located → Prop} :
    quantifier.Ranges among P ↔ quantifier.Asks (∃ t, among t ∧ P t) := by
  cases quantifier with
  | any => exact Iff.rfl
  | none => simp [Ranges, Asks]
  | all => exact absurd hexistence (by decide)
  | count => exact absurd hexistence (by decide)

/-- Counting those that pass a test, `ANY` and `NONE` ask for one that does. -/
theorem holds_countP {α : Type} (hexistence : quantifier.existence = quantifier) {test : α → Bool}
    {values : List α} : quantifier.holds (values.countP test) values.length = true ↔
      quantifier.Asks (∃ value ∈ values, test value = true) := by
  cases quantifier with
  | any => simp [holds, Asks, List.countP_pos_iff]
  | none => simp [holds, Asks, List.countP_eq_zero]
  | all => exact absurd hexistence (by decide)
  | count => exact absurd hexistence (by decide)

end Quantifier

namespace View

variable {v : View} {o : Located} {b : Bool}

/-- The objects that pass are the ones whose test succeeds; the test comes to an end for all. -/
theorem passing_ok {test : Located → Except EvalError Bool} {objects found : List Located}
    (h : passing test objects = .ok found) :
    (∀ x, x ∈ found ↔ x ∈ objects ∧ test x = .ok true) ∧ ∀ x ∈ objects, ∃ c, test x = .ok c := by
  induction objects generalizing found with
  | nil =>
    rw [passing] at h
    cases h
    simp
  | cons first rest ih =>
    rw [passing] at h
    obtain ⟨passes, hfirst, h⟩ := bind_eq_ok h
    obtain ⟨others, hrest, h⟩ := bind_eq_ok h
    obtain ⟨hmem, hends⟩ := ih hrest
    refine ⟨fun x => ?_, List.forall_mem_cons.mpr ⟨⟨passes, hfirst⟩, hends⟩⟩
    cases passes with
    | true =>
      obtain rfl : first :: others = found := Except.ok.inj h
      rw [List.mem_cons, List.mem_cons, hmem]
      constructor
      · rintro (rfl | ⟨hx, htest⟩)
        · exact ⟨Or.inl rfl, hfirst⟩
        · exact ⟨Or.inr hx, htest⟩
      · rintro ⟨rfl | hx, htest⟩
        · exact Or.inl rfl
        · exact Or.inr ⟨hx, htest⟩
    | false =>
      obtain rfl : others = found := Except.ok.inj h
      rw [List.mem_cons, hmem]
      constructor
      · rintro ⟨hx, htest⟩
        exact ⟨Or.inr hx, htest⟩
      · rintro ⟨rfl | hx, htest⟩
        · rw [hfirst] at htest
          cases htest
        · exact ⟨hx, htest⟩

/-- The tree tells of an object whether a property holds, where its evaluation comes to an end. -/
def Tells (v : View) (q : Option Query) (o : Located) (P : Prop) : Prop :=
  ∀ c, v.holdsIfAny q o = .ok c → (c = true ↔ P)

theorem Tells.true_iff {q : Option Query} {P : Prop} {c : Bool} (h : v.Tells q o P)
    (hends : v.holdsIfAny q o = .ok c) : v.holdsIfAny q o = .ok true ↔ P := by
  rw [← h c hends, hends]
  simp

/-- No more objects pass than there are, and as many exactly if all of them pass. -/
theorem passing_length {test : Located → Except EvalError Bool} {objects found : List Located}
    (h : passing test objects = .ok found) : found.length ≤ objects.length ∧
      (found.length = objects.length ↔ ∀ x ∈ objects, test x = .ok true) := by
  induction objects generalizing found with
  | nil =>
    rw [passing] at h
    cases h
    simp
  | cons first rest ih =>
    rw [passing] at h
    obtain ⟨passes, hfirst, h⟩ := bind_eq_ok h
    obtain ⟨others, hrest, h⟩ := bind_eq_ok h
    obtain ⟨hle, hall⟩ := ih hrest
    cases passes with
    | true =>
      obtain rfl : first :: others = found := Except.ok.inj h
      simp [hle, hall, hfirst]
    | false =>
      obtain rfl : others = found := Except.ok.inj h
      simp [hfirst]
      omega

/-- A quantifier holds of the number of objects that pass if it ranges over the ones tested. -/
theorem holds_passing {quantifier : Quantifier} {test : Located → Except EvalError Bool}
    {targets hits : List Located} {among P : Located → Prop}
    (hhits : passing test targets = .ok hits) (hamong : ∀ t, t ∈ targets ↔ among t)
    (htest : ∀ t ∈ targets, test t = .ok true ↔ P t) :
    quantifier.holds hits.length targets.length = true ↔ quantifier.Ranges among P := by
  have hhit : ∀ t, t ∈ hits ↔ among t ∧ P t := by
    intro t
    rw [(passing_ok hhits).1, ← hamong]
    exact and_congr_right fun ht => htest t ht
  have hall : hits.length = targets.length ↔ ∀ t, among t → P t := by
    rw [(passing_length hhits).2]
    simp only [← hamong]
    exact forall₂_congr htest
  cases quantifier with
  | any | count => simp [Quantifier.holds, Quantifier.Ranges, List.length_pos_iff_exists_mem, hhit]
  | all => simp [Quantifier.holds, Quantifier.Ranges, hall]
  | none =>
    simp [Quantifier.holds, Quantifier.Ranges, List.eq_nil_iff_forall_not_mem, hhit]

/-- The node of a link or a group asks its condition of the objects behind it that satisfy the
filter. -/
theorem node_tells {quantifier : Quantifier} {name : String} {filter inner : Option Query}
    {B F P : Located → Prop} (hbehind : ∃ found, v.linked o name = .ok found ∧ ∀ t, t ∈ found ↔ B t)
    (hfilter : ∀ t, B t → v.Tells filter t (F t)) (hinner : ∀ t, B t → v.Tells inner t (P t)) :
    v.Tells (some (.link quantifier name filter inner)) o
      ((if inner.isSome then quantifier else quantifier.existence).Ranges
        (fun t => B t ∧ F t) P) := by
  intro c hc
  rw [holdsIfAny, holds] at hc
  obtain ⟨found, hlinked, hmem⟩ := hbehind
  obtain ⟨behind, hfound, hc⟩ := bind_eq_ok hc
  obtain rfl : found = behind := Except.ok.inj (hlinked.symm.trans hfound)
  obtain ⟨targets, htargets, hc⟩ := bind_eq_ok hc
  obtain ⟨hits, hhits, hc⟩ := bind_eq_ok hc
  obtain ⟨htarget, hfilterends⟩ := passing_ok htargets
  obtain ⟨-, hinnerends⟩ := passing_ok hhits
  have hamong : ∀ t, t ∈ targets ↔ B t ∧ F t := by
    intro t
    rw [htarget, hmem]
    refine and_congr_right fun ht => ?_
    obtain ⟨_, hf⟩ := hfilterends t ((hmem t).mpr ht)
    exact (hfilter t ht).true_iff hf
  rw [← Except.ok.inj hc]
  refine holds_passing hhits hamong fun t ht => ?_
  obtain ⟨_, hp⟩ := hinnerends t ht
  exact (hinner t ((hamong t).mp ht).1).true_iff hp

/-- A quantified link asks its condition of the objects behind it that satisfy the filter. -/
theorem quantifiedLink_tells (hstore : v.store.Keyed) {quantifier : Quantifier} {name : String}
    {filter inner : Option Query} (hlink : (v.schema.fieldKind o.table name).isLink = true)
    {F P : Located → Prop} (hfilter : ∀ t, v.Follows name o t → v.Tells filter t (F t))
    (hinner : ∀ t, v.Follows name o t → v.Tells inner t (P t)) :
    v.Tells (some (.link quantifier name filter inner)) o
      ((if inner.isSome then quantifier else quantifier.existence).Ranges
        (fun t => v.Follows name o t ∧ F t) P) :=
  node_tells (mem_linked hstore hlink) hfilter hinner

/-- Any object behind a link has to satisfy the filter and the condition. -/
theorem link_tells (hstore : v.store.Keyed) {name : String} {filter inner : Option Query}
    (hlink : (v.schema.fieldKind o.table name).isLink = true) {F P : Located → Prop}
    (hfilter : ∀ t, v.Follows name o t → v.Tells filter t (F t))
    (hinner : ∀ t, v.Follows name o t → v.Tells inner t (P t)) :
    v.Tells (some (.link .any name filter inner)) o (∃ t, v.Follows name o t ∧ F t ∧ P t) := by
  have htells := @quantifiedLink_tells _ _ hstore .any _ _ _ hlink _ _ hfilter hinner
  have hexistence : (if inner.isSome then Quantifier.any else Quantifier.any.existence) = .any :=
    ite_self _
  simpa only [hexistence, Quantifier.Ranges, and_assoc] using htells

/-- An object at a distance along a link has to satisfy the condition. -/
theorem transitiveLink_tells (hstore : v.store.Keyed) {name : String} {depth : Option Nat}
    {inner : Option Query} (hlink : v.schema.LeadsTo o.table name o.table) (ho : v.Stores o)
    {P : Located → Prop} (hinner : ∀ t, v.Stores t → t.table = o.table → v.Tells inner t (P t)) :
    v.Tells (some (.transitiveLink name depth inner)) o
      (∃ t, (∃ k, 1 ≤ k ∧ Allows depth k ∧ v.AtDistance name k o t) ∧ P t) := by
  intro c hc
  rw [holdsIfAny, holds] at hc
  obtain ⟨found, hfound, hmem⟩ : ∃ found, v.reached o name depth = .ok found ∧ ∀ b, b ∈ found ↔
      ∃ k, 1 ≤ k ∧ Allows depth k ∧ v.AtDistance name k o b :=
    mem_reached hstore hlink.1 hlink.2 ho rfl
  rw [hfound] at hc
  cases hhits : passing (v.holdsIfAny inner) found with
  | error why =>
    simp only [hhits, Bind.bind, Except.bind] at hc
    cases hc
  | ok hits =>
    have hsome : c = true ↔ ∃ t, t ∈ hits := by
      have hc : (!hits.isEmpty) = c := by
        simpa only [hhits, Bind.bind, Except.bind, Pure.pure, Except.pure, Except.ok.injEq] using hc
      rw [← hc]
      cases hits <;> simp
    obtain ⟨hhit, hinnerends⟩ := passing_ok hhits
    rw [hsome]
    refine exists_congr fun t => ?_
    rw [hhit, hmem]
    have ht : (∃ k, 1 ≤ k ∧ Allows depth k ∧ v.AtDistance name k o t) →
        v.Tells inner t (P t) := by
      rintro ⟨k, hk, _, hwalk, _⟩
      obtain ⟨hstores, htable⟩ := walk_stores hstore hlink.2 hk hwalk
      exact hinner t hstores htable
    constructor
    · rintro ⟨hdistance, hp⟩
      exact ⟨hdistance, (ht hdistance _ hp).mp rfl⟩
    · rintro ⟨hdistance, hP⟩
      obtain ⟨_, hp⟩ := hinnerends t ((hmem t).mpr hdistance)
      exact ⟨hdistance, ((ht hdistance).true_iff hp).mpr hP⟩

end View

end LinkQuery
