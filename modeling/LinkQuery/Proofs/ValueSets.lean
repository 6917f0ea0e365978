import LinkQuery.Proofs.Reaching
import LinkQuery.Store.Evaluation
import Mathlib.Algebra.Order.Field.Rat
import Mathlib.Data.Finset.Card
/-!
# Lists of values as sets

Literals stand for data: a number stands for its value, whatever decimal places it is written with.
A list whose literals stand for different data is a finite set of data, and operators on such lists
that count shared literals are operators on these sets.

Main statements:
- `Literal.beq_iff_datum`: literals are equal exactly when they stand for the same.
- `PathOp.holds_iff`: comparing lists without repeats is comparing sets.
-/
namespace LinkQuery

open Time (Timestamp)

/-! ## What literals stand for -/

/-- The value of a decimal. -/
def Decimal.value (d : Decimal) : ℚ :=
  d.coefficient / 10 ^ d.scale

/-- Decimals are equal exactly when their values are. -/
theorem Decimal.beq_iff_value {a b : Decimal} : (a == b) = true ↔ a.value = b.value := by
  have hpower : ∀ n, (Text.powerOfTen n : ℚ) = 10 ^ n := fun n => by
    simp [Text.powerOfTen]
  have hcast : a.coefficient * Text.powerOfTen b.scale = b.coefficient * Text.powerOfTen a.scale ↔
      (a.coefficient * 10 ^ b.scale : ℚ) = b.coefficient * 10 ^ a.scale := by
    rw [← hpower, ← hpower]
    exact_mod_cast Iff.rfl
  have hne : ∀ n, (10 ^ n : ℚ) ≠ 0 := fun n => pow_ne_zero n (OfNat.ofNat_ne_zero 10)
  rw [Decimal.beq_iff, hcast, value, value, div_eq_div_iff (hne _) (hne _)]

/-- What a literal stands for. -/
inductive Datum where
  | text (value : String)
  | number (value : ℚ)
  | boolean (value : Bool)
  | timestamp (value : Timestamp)
deriving DecidableEq

namespace Literal

/-- What the literal stands for. -/
def datum : Literal → Datum
  | .text value => .text value
  | .number value => .number value.value
  | .boolean value => .boolean value
  | .timestamp value => .timestamp value

/-- Literals are equal exactly when they stand for the same. -/
theorem beq_iff_datum {a b : Literal} : (a == b) = true ↔ a.datum = b.datum := by
  show same a b = true ↔ _
  cases a <;> cases b <;> simp [same, datum, Decimal.beq_iff_value]

theorem contains_iff {values : List Literal} {a : Literal} :
    values.contains a = true ↔ a.datum ∈ values.map datum := by
  simp only [List.contains_iff_exists_mem_beq, beq_iff_datum, List.mem_map]
  exact exists_congr fun b => and_congr_right fun _ => eq_comm

/-- The data that the literals stand for. -/
def data (values : List Literal) : Finset Datum :=
  (values.map datum).toFinset

/-- The literals stand for different data. -/
def Distinct (values : List Literal) : Prop :=
  (values.map datum).Nodup

theorem mem_data {values : List Literal} {d : Datum} :
    d ∈ data values ↔ ∃ value ∈ values, value.datum = d := by
  simp [data]

theorem Distinct.card_data {values : List Literal} (h : Distinct values) :
    (data values).card = values.length := by
  rw [data, List.toFinset_card_of_nodup h, List.length_map]

/-- What is left of literals stands for different data. -/
theorem distinct_eraseDups (values : List Literal) : Distinct values.eraseDups := by
  refine List.pairwise_map.mpr ((pairwise_eraseDupsBy _ values).imp fun {a b} hother heq => ?_)
  rw [beq_iff_datum.mpr heq.symm] at hother
  cases hother

/-- What is left of literals stands for the same data. -/
theorem mem_data_eraseDups {values : List Literal} {d : Datum} :
    d ∈ data values.eraseDups ↔ d ∈ data values := by
  simp only [mem_data]
  constructor
  · rintro ⟨value, hvalue, rfl⟩
    exact ⟨value, mem_of_mem_eraseDupsBy hvalue, rfl⟩
  · rintro ⟨value, hvalue, rfl⟩
    have hself : ∀ value : Literal, (value == value) = true := fun _ => beq_iff_datum.mpr rfl
    obtain ⟨kept, hkept, hsame⟩ := exists_mem_eraseDupsBy hself hvalue
    exact ⟨kept, hkept, (beq_iff_datum.mp hsame).symm⟩

/-- Literals that stand for the same identity are that identity. -/
theorem distinct_texts {names : List String} (h : names.Nodup) : Distinct (names.map .text) := by
  rw [Distinct, List.map_map]
  exact h.map fun a b heq => Datum.text.inj heq

/-- The literals of one list that another contains are as many as the data they share. -/
theorem countP_contains {left right : List Literal} (h : Distinct left) :
    left.countP right.contains = (data left ∩ data right).card := by
  have hfiltered : Distinct (left.filter right.contains) := h.sublist (List.filter_sublist.map _)
  rw [List.countP_eq_length_filter, ← hfiltered.card_data]
  congr 1
  ext d
  simp only [Finset.mem_inter, mem_data, List.mem_filter, contains_iff, List.mem_map]
  constructor
  · rintro ⟨value, ⟨hleft, hright⟩, rfl⟩
    exact ⟨⟨value, hleft, rfl⟩, hright⟩
  · rintro ⟨⟨value, hleft, rfl⟩, hright⟩
    exact ⟨value, ⟨hleft, hright⟩, rfl⟩

end Literal

/-! ## Operators on sets -/

namespace PathOp

open Literal (data Distinct)

/-- Two sets compare as the operator is named. -/
def Compares (op : PathOp) (left right : Set Datum) : Prop :=
  match op with
  | .equals => left = right
  | .differs => left ≠ right
  | .intersects => (left ∩ right).Nonempty
  | .contains => right ⊆ left
  | .disjoint => ¬(left ∩ right).Nonempty

/-- The left set, or the right one, is shared if as many data are. -/
theorem card_inter_eq_left {left right : Finset Datum} :
    (left ∩ right).card = left.card ↔ left ⊆ right := by
  rw [← Finset.inter_eq_left]
  exact ⟨Finset.eq_of_subset_of_card_le Finset.inter_subset_left ∘ Eq.ge, congrArg _⟩

/-- Comparing lists of different data is comparing the sets of data. -/
theorem holds_iff {op : PathOp} {left right : List Literal} (hleft : Distinct left)
    (hright : Distinct right) :
    op.holds left right = true ↔ op.Compares (data left : Set Datum) (data right : Set Datum) := by
  have hinleft : (data left ∩ data right).card = left.length ↔ data left ⊆ data right := by
    rw [← hleft.card_data, card_inter_eq_left]
  have hinright : (data left ∩ data right).card = right.length ↔ data right ⊆ data left := by
    rw [← hright.card_data, Finset.inter_comm, card_inter_eq_left]
  have hequal : (data left ∩ data right).card = left.length ∧
      (data left ∩ data right).card = right.length ↔ data left = data right := by
    rw [hinleft, hinright, Finset.Subset.antisymm_iff]
  unfold holds Compares
  rw [Literal.countP_contains hleft]
  cases op with
  | equals => simpa using hequal
  | differs =>
    have hdiffer := not_congr hequal
    simpa only [Bool.not_eq_true', Bool.eq_false_iff, ne_eq, Bool.and_eq_true, beq_iff_eq,
      Finset.coe_inj] using hdiffer
  | intersects => simp [← Finset.coe_inter, Finset.card_pos]
  | contains => simpa using hinright
  | disjoint => simp [← Finset.coe_inter, Finset.not_nonempty_iff_eq_empty]

end PathOp

end LinkQuery
