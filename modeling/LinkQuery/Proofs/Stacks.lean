import LinkQuery.OperatorStacks
import LinkQuery.Proofs.Refusal
/-!
# Precedence with stacks

An operand of rank `k` starts where the latest operator binds less closely than `k`, and ends where
applying the operators of rank `k` leaves one more operand than there was at its start.

Main statements:
- `OperatorStacks.Lands.connected`: an operator of rank `k` behind its left operand, and the whole
  operand behind the right one.
- `OperatorStacks.reduce_keeps`: what is read off the operands alike before and behind an operator.
-/
namespace LinkQuery.OperatorStacks

variable {ω α : Type} {apply : ω → List α → Except QueryError (List α)} {rank : ω → Nat}
  {s t : OperatorStacks ω α} {q : α} {k : Nat}

/-- Applying fewer operators first makes no difference. -/
theorem applyWhile_weaken {strong weak : ω → Bool} {operands operands' : List α}
    {operators operators' : List ω} (hweak : ∀ op, strong op = true → weak op = true)
    (h : applyWhile apply strong operands operators = .ok (operands', operators')) :
    applyWhile apply weak operands operators = applyWhile apply weak operands' operators' := by
  induction operators generalizing operands with
  | nil =>
    simp only [applyWhile, Except.ok.injEq, Prod.mk.injEq] at h
    obtain ⟨rfl, rfl⟩ := h
    rfl
  | cons op rest ih =>
    unfold applyWhile at h
    split at h
    · rename_i hstrong
      rw [applyWhile, if_pos (hweak op hstrong)]
      split at h
      · cases h
      · exact ih h
    · simp only [Except.ok.injEq, Prod.mk.injEq] at h
      obtain ⟨rfl, rfl⟩ := h
      rfl

theorem reduce_eq_ok {test : ω → Bool} (h : s.reduce apply test = .ok t) :
    applyWhile apply test s.operands s.operators = .ok (t.operands, t.operators) ∧
      t.outer = s.outer := by
  unfold reduce at h
  cases hwhile : applyWhile apply test s.operands s.operators with
  | error why =>
    rw [hwhile] at h
    cases h
  | ok found =>
    rw [hwhile] at h
    obtain rfl := Except.ok.inj h
    exact ⟨rfl, rfl⟩

theorem reduce_weaken {strong weak : ω → Bool} (hweak : ∀ op, strong op = true → weak op = true)
    (h : s.reduce apply strong = .ok t) : s.reduce apply weak = t.reduce apply weak := by
  obtain ⟨hwhile, houter⟩ := reduce_eq_ok h
  unfold reduce
  rw [applyWhile_weaken hweak hwhile, houter]

/-- Nothing is applied when the latest operator fails the test. -/
theorem reduce_of_head {test : ω → Bool} (h : ∀ op ∈ s.operators.head?, test op = false) :
    s.reduce apply test = .ok s := by
  obtain ⟨operands, operators, outer⟩ := s
  cases operators with
  | nil => rfl
  | cons op rest =>
    have hop : test op = false := h op rfl
    have hstop : applyWhile apply test operands (op :: rest) = .ok (operands, op :: rest) := by
      simp [applyWhile, hop]
    unfold reduce
    rw [hstop]
    rfl

/-- One operator is applied before the rest. -/
theorem reduce_cons {test : ω → Bool} {op : ω} {operands operands' : List α} {rest : List ω}
    {outer : List (List ω)} (htest : test op = true) (happly : apply op operands = .ok operands') :
    reduce apply test ⟨operands, op :: rest, outer⟩ =
      reduce apply test ⟨operands', rest, outer⟩ := by
  simp [reduce, applyWhile, htest, happly]

/-! ## Operands of a rank -/

/-- The latest operator binds less closely than the rank. -/
def Clear (rank : ω → Nat) (k : Nat) (s : OperatorStacks ω α) : Prop :=
  ∀ op ∈ s.operators.head?, rank op < k

/-- Behind an operand of the rank: applying the operators of the rank leaves the operand. -/
def Lands (apply : ω → List α → Except QueryError (List α)) (rank : ω → Nat) (k : Nat)
    (s : OperatorStacks ω α) (q : α) (t : OperatorStacks ω α) : Prop :=
  t.reduce apply (k ≤ rank ·) = .ok (s.push q)

theorem Clear.of_nil (h : s.operators = []) : s.Clear rank k := by
  simp [Clear, h]

theorem Clear.waiting {op : ω} (h : rank op < k) : (s.waiting op).Clear rank k := by
  rintro _ ⟨⟩
  exact h

theorem Clear.reduce (h : s.Clear rank k) : (s.push q).reduce apply (k ≤ rank ·) = .ok (s.push q) :=
  reduce_of_head fun op hop => by simpa using h op hop

/-- A single operand. -/
theorem Lands.push (h : s.Clear rank k) : Lands apply rank k s q (s.push q) :=
  h.reduce

/-- An operand that binds more closely. -/
theorem Lands.weaken {j : Nat} (h : Lands apply rank j s q t) (hj : k ≤ j) (hs : s.Clear rank k) :
    Lands apply rank k s q t := by
  refine (reduce_weaken (fun op hop => ?_) h).trans hs.reduce
  simp only [decide_eq_true_eq] at hop ⊢
  omega

/-- An operator of the rank behind its left operand, and the whole behind the right operand. -/
theorem Lands.connected {op : ω} {left right : α} (h : Lands apply rank k s left t)
    (hs : s.Clear rank k) (hop : rank op = k)
    (happly : apply op (right :: left :: s.operands) = .ok (q :: s.operands)) :
    t.connected apply rank op = .ok ((s.push left).waiting op) ∧
      ∀ u, Lands apply rank (k + 1) ((s.push left).waiting op) right u →
        Lands apply rank k s q u := by
  constructor
  · unfold OperatorStacks.connected
    rw [hop, show t.reduce apply _ = _ from h]
    rfl
  · intro u hu
    refine (reduce_weaken (fun op hop => ?_) hu).trans ?_
    · simp only [decide_eq_true_eq] at hop ⊢
      omega
    · refine (reduce_cons (by simp [hop]) happly).trans ?_
      exact hs.reduce

/-- Behind the parentheses around an operand whose operators all have its rank. -/
theorem Lands.closed {unopened : InternalCause} (h : Lands apply rank k s.opened q t)
    (hrank : ∀ op, k ≤ rank op) : t.closed apply unopened = .ok (s.push q) := by
  have hall : t.reduce apply (fun _ => true) = .ok (s.opened.push q) := by
    simpa [Lands, hrank] using h
  unfold OperatorStacks.closed
  rw [hall]
  rfl

/-- Behind a whole expression. -/
theorem Lands.finish {unclosed : InternalCause} (h : Lands apply rank k empty q t)
    (hrank : ∀ op, k ≤ rank op) : t.finish apply unclosed = .ok [q] := by
  have hall : t.reduce apply (fun _ => true) = .ok (empty.push q) := by
    simpa [Lands, hrank] using h
  unfold OperatorStacks.finish
  rw [hall]
  rfl

/-! ## What operators leave as it is -/

section Keeps

variable {β : Type} {read : List α → β}
  (happly : ∀ op operands operands', apply op operands = .ok operands' →
    read operands' = read operands)
include happly

theorem applyWhile_keeps {test : ω → Bool} {operands operands' : List α} {operators left : List ω}
    (h : applyWhile apply test operands operators = .ok (operands', left)) :
    read operands' = read operands := by
  induction operators generalizing operands with
  | nil =>
    obtain ⟨rfl, -⟩ := Prod.ext_iff.mp (Except.ok.inj h)
    rfl
  | cons op rest ih =>
    unfold applyWhile at h
    split at h
    · split at h
      · cases h
      · rename_i between hop
        exact (ih h).trans (happly op operands between hop)
    · obtain ⟨rfl, -⟩ := Prod.ext_iff.mp (Except.ok.inj h)
      rfl

theorem reduce_keeps {test : ω → Bool} (h : s.reduce apply test = .ok t) :
    read t.operands = read s.operands :=
  applyWhile_keeps happly (reduce_eq_ok h).1

theorem connected_keeps {op : ω} (h : s.connected apply rank op = .ok t) :
    read t.operands = read s.operands := by
  obtain ⟨reduced, hreduced, h⟩ := bind_eq_ok h
  obtain rfl := Except.ok.inj h
  exact @reduce_keeps _ _ _ s reduced _ _ happly _ hreduced

theorem closed_keeps {unopened : InternalCause} (h : s.closed apply unopened = .ok t) :
    read t.operands = read s.operands := by
  obtain ⟨reduced, hreduced, h⟩ := bind_eq_ok h
  split at h
  · cases h
  · obtain rfl := Except.ok.inj h
    exact @reduce_keeps _ _ _ s reduced _ _ happly _ hreduced

theorem finish_keeps {unclosed : InternalCause} {operands : List α}
    (h : s.finish apply unclosed = .ok operands) : read operands = read s.operands := by
  obtain ⟨reduced, hreduced, h⟩ := bind_eq_ok h
  split at h
  · obtain rfl := Except.ok.inj h
    exact reduce_keeps happly hreduced
  · cases h

end Keeps

end LinkQuery.OperatorStacks
