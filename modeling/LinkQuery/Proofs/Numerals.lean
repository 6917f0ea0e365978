import LinkQuery.Decimal.Reader
import LinkQuery.Text.Blank
import Mathlib.Algebra.Order.Group.Nat
/-!
# Numbers as text and back

A number that is written is read back: whole numbers with any number of zeros in front, and decimals
with all of their places.

Main statements:
- `Text.unsigned?_toString`: a whole number is read back.
- `Decimal.ofText?_text`: a decimal that fits is read back.
- `Decimal.ofText?_fits`: a decimal that is read fits.
-/
namespace LinkQuery

namespace Text

/-! ## Digits -/

/-- The number that digits write behind a number that is already read. -/
def digitsFrom (n : Nat) (cs : List Char) : Nat :=
  cs.foldl (fun n c => n * 10 + digitValue c) n

@[simp]
theorem digitsFrom_nil (n : Nat) : digitsFrom n [] = n := rfl

@[simp]
theorem digitsFrom_cons (n : Nat) (c : Char) (cs : List Char) :
    digitsFrom n (c :: cs) = digitsFrom (n * 10 + digitValue c) cs := by
  rw [digitsFrom, List.foldl_cons, digitsFrom]

theorem digitsFrom_append (n : Nat) (a b : List Char) :
    digitsFrom n (a ++ b) = digitsFrom (digitsFrom n a) b :=
  List.foldl_append

theorem digitsValue_eq (cs : List Char) : digitsValue cs = digitsFrom 0 cs := rfl

theorem le_digitsFrom (n : Nat) (cs : List Char) : n ≤ digitsFrom n cs := by
  induction cs generalizing n with
  | nil => exact Nat.le_refl n
  | cons c cs ih =>
    have := ih (n * 10 + digitValue c)
    rw [digitsFrom_cons]
    omega

theorem digitsFrom_eq (n : Nat) (cs : List Char) :
    digitsFrom n cs = Nat.ofDigitChars 10 cs n := by
  induction cs generalizing n with
  | nil => rfl
  | cons c cs ih =>
    rw [digitsFrom_cons, ih, Nat.ofDigitChars_cons, digitValue, Nat.mul_comm]

/-- The digits of a number write it. -/
theorem digitsValue_toDigits (n : Nat) : digitsValue (Nat.toDigits 10 n) = n := by
  rw [digitsValue_eq, digitsFrom_eq, Nat.ofDigitChars_ten_toDigits]

theorem isDigit_of_mem_toDigits {n : Nat} {c : Char} (h : c ∈ Nat.toDigits 10 n) :
    c.isDigit = true :=
  Nat.isDigit_of_mem_toDigits (by decide) (by decide) h

theorem toList_padded (width n : Nat) : (padded width n).toList =
    List.replicate (width - (Nat.toDigits 10 n).length) '0' ++ Nat.toDigits 10 n :=
  String.toList_ofList

theorem digitsValue_padded (width n : Nat) : digitsValue (padded width n).toList = n := by
  rw [toList_padded, digitsValue_eq, digitsFrom_append, digitsFrom_eq, digitsFrom_eq,
    Nat.ofDigitChars_replicate_zero, Nat.mul_zero, Nat.ofDigitChars_ten_toDigits]

theorem isDigit_of_mem_padded {width n : Nat} {c : Char} (h : c ∈ (padded width n).toList) :
    c.isDigit = true := by
  rw [toList_padded] at h
  rcases List.mem_append.mp h with h | h
  · rw [List.eq_of_mem_replicate h]
    decide
  · exact isDigit_of_mem_toDigits h

theorem length_padded_ge (width n : Nat) : width ≤ (padded width n).toList.length := by
  rw [toList_padded, List.length_append, List.length_replicate]
  omega

/-- A number that needs no more digits is padded to exactly the width. -/
theorem length_padded {width n : Nat} (hwidth : 0 < width) (h : n < 10 ^ width) :
    (padded width n).toList.length = width := by
  have hdigits := (Nat.length_toDigits_le_iff (b := 10) (by decide) hwidth).mpr h
  rw [toList_padded, List.length_append, List.length_replicate]
  omega

/-- Digits are read as their value. -/
theorem digits?_digits {cs : List Char} (hne : cs ≠ []) (h : ∀ c ∈ cs, c.isDigit = true) :
    digits? cs = some (digitsValue cs) := by
  have hall : cs.all Char.isDigit = true := List.all_eq_true.mpr h
  have hnonempty : cs.isEmpty = false := by simpa using hne
  simp [digits?, hall, hnonempty]

/-- A whole number that fits is read back. -/
theorem unsigned?_toString {bits n : Nat} (h : n < bitBound bits) :
    unsigned? bits (toString n) = some n := by
  have hne : Nat.toDigits 10 n ≠ [] := Nat.toDigits_ne_nil
  have hdigits := digits?_digits hne fun c hc => isDigit_of_mem_toDigits hc
  have hread : ((digits? (Nat.toDigits 10 n)).filter (· < bitBound bits)) = some n := by
    rw [hdigits, digitsValue_toDigits]
    simp [Option.filter, h]
  unfold unsigned?
  rw [Nat.toString_eq_ofList_toDigits, String.toList_ofList]
  split
  · rename_i cs heq
    have hplus : '+'.isDigit = true := isDigit_of_mem_toDigits (n := n) (by rw [heq]; simp)
    exact absurd hplus (by decide)
  · exact hread

/-! ## White space -/

/-- A text with no white space at its ends stays as it is. -/
theorem trim_of_ends {text : String} (hfirst : ∀ c ∈ text.toList.head?, isBlank c = false)
    (hlast : ∀ c ∈ text.toList.getLast?, isBlank c = false) : trim text = text := by
  have hdrop : ∀ cs : List Char, (∀ c ∈ cs.head?, isBlank c = false) → dropBlanks cs = cs := by
    intro cs h
    cases cs with
    | nil => rfl
    | cons c cs => simp [dropBlanks, h c rfl]
  rw [trim, hdrop _ hfirst, hdrop, List.reverse_reverse, String.ofList_toList]
  rwa [List.head?_reverse]

theorem isBlank_of_isDigit {c : Char} (h : c.isDigit = true) : isBlank c = false := by
  rw [Char.isDigit_iff_toNat] at h
  have hzero : '0'.toNat = 48 := rfl
  have hnine : '9'.toNat = 57 := rfl
  simp only [isBlank, Ranges.has, blankRanges, List.any_cons, List.any_nil, Bool.or_false,
    Bool.or_eq_false_iff, Bool.and_eq_false_iff, decide_eq_false_iff_not]
  omega

end Text

namespace Decimal

open Text

/-- The decimal can be kept: its coefficient and its scale are not too large. -/
structure Fits (d : Decimal) : Prop where
  coefficient : d.coefficient.natAbs < coefficientBound
  scale : d.scale ≤ maxScale

/-! ## Writing -/

/-- The magnitude is written as digits, with a point in front of the last of them. -/
theorem toList_magnitudeText (d : Decimal) : ∃ whole places,
    d.magnitudeText.toList = whole ++ (if d.scale = 0 then [] else '.' :: places) ∧
      whole ≠ [] ∧ (∀ c ∈ whole ++ places, c.isDigit = true) ∧ places.length = d.scale ∧
      digitsValue (whole ++ places) = d.coefficient.natAbs := by
  have hlength := length_padded_ge (d.scale + 1) d.coefficient.natAbs
  have hvalue := digitsValue_padded (d.scale + 1) d.coefficient.natAbs
  have hdigits : ∀ c ∈ (padded (d.scale + 1) d.coefficient.natAbs).toList, c.isDigit = true :=
    fun c hc => isDigit_of_mem_padded hc
  have hmagnitude : d.magnitudeText = if d.scale = 0 then
      padded (d.scale + 1) d.coefficient.natAbs
    else String.ofList ((padded (d.scale + 1) d.coefficient.natAbs).toList.take
        ((padded (d.scale + 1) d.coefficient.natAbs).length - d.scale)) ++ "." ++
      String.ofList ((padded (d.scale + 1) d.coefficient.natAbs).toList.drop
        ((padded (d.scale + 1) d.coefficient.natAbs).length - d.scale)) := rfl
  rw [hmagnitude]
  generalize padded (d.scale + 1) d.coefficient.natAbs = digits at *
  rw [← String.length_toList]
  by_cases hscale : d.scale = 0
  · refine ⟨digits.toList, [], ?_, ?_, ?_, ?_, ?_⟩
    · simp [hscale]
    · rintro hnil
      simp [hnil] at hlength
    · simpa using hdigits
    · simp [hscale]
    · simpa using hvalue
  · refine ⟨digits.toList.take (digits.toList.length - d.scale),
      digits.toList.drop (digits.toList.length - d.scale), ?_, ?_, ?_, ?_, ?_⟩
    · simp [hscale]
    · intro hnil
      have := congrArg List.length hnil
      simp only [List.length_take, List.length_nil] at this
      omega
    · rwa [List.take_append_drop]
    · rw [List.length_drop]
      omega
    · rwa [List.take_append_drop]

/-! ## Reading what is written -/

/-- Digits that fit are read on one after another. -/
theorem scan_digits {point digits : Bool} {coefficient scale : Nat} (cs tail : List Char)
    (hdigits : ∀ c ∈ cs, c.isDigit = true)
    (hbound : digitsFrom coefficient cs < coefficientBound)
    (hscale : point = true → scale + cs.length ≤ maxScale) :
    scan point digits coefficient scale (cs ++ tail) =
      scan point (digits || !cs.isEmpty) (digitsFrom coefficient cs)
        (if point then scale + cs.length else scale) tail := by
  induction cs generalizing digits coefficient scale with
  | nil => simp
  | cons c cs ih =>
    simp only [List.mem_cons, forall_eq_or_imp] at hdigits
    rw [digitsFrom_cons] at hbound
    have hnext : coefficient * 10 + digitValue c < coefficientBound :=
      Nat.lt_of_le_of_lt (le_digitsFrom _ cs) hbound
    have hroom : ¬ (point && decide (scale ≥ maxScale)) = true := by
      simp only [Bool.and_eq_true, decide_eq_true_eq, not_and]
      intro hpoint
      have := hscale hpoint
      simp only [List.length_cons] at this
      omega
    have hstep := @ih true (coefficient * 10 + digitValue c)
      (if point then scale + 1 else scale) hdigits.2 hbound (by
        intro hpoint
        have := hscale hpoint
        simp only [List.length_cons] at this
        simp only [hpoint, if_true]
        omega)
    rw [List.cons_append, scan]
    simp only [hroom, hdigits.1, hnext, if_true, hstep]
    cases point with
    | true => simp [Nat.add_assoc, Nat.add_comm 1]
    | false => simp

/-- The magnitude is read back. -/
theorem scan_magnitudeText {d : Decimal} (h : d.Fits) :
    scan false false 0 0 d.magnitudeText.toList = some (d.coefficient.natAbs, d.scale) := by
  obtain ⟨whole, places, htext, hne, hdigits, hlength, hvalue⟩ := toList_magnitudeText d
  have hnonempty : whole.isEmpty = false := by simpa using hne
  rw [digitsValue_eq, digitsFrom_append] at hvalue
  have hbound : digitsFrom (digitsFrom 0 whole) places < coefficientBound := by
    rw [hvalue]
    exact h.coefficient
  have hwhole := @scan_digits false false 0 0 whole (if d.scale = 0 then [] else '.' :: places)
    (fun c hc => hdigits c (List.mem_append_left _ hc))
    (Nat.lt_of_le_of_lt (le_digitsFrom _ places) hbound) (by simp)
  rw [htext, hwhole]
  simp only [Bool.false_eq_true, if_false, hnonempty, Bool.not_false, Bool.or_true]
  by_cases hscale : d.scale = 0
  · have hplaces : places = [] := List.eq_nil_of_length_eq_zero (hlength.trans hscale)
    simp only [hplaces, digitsFrom_nil] at hvalue
    simp [hscale, scan, hvalue]
  · have hpoint : ('.' : Char).isDigit = false := by decide
    have hmore := @scan_digits true true (digitsFrom 0 whole) 0 places []
      (fun c hc => hdigits c (List.mem_append_right _ hc)) hbound
      (fun _ => by rw [hlength, Nat.zero_add]; exact h.scale)
    rw [List.append_nil] at hmore
    simp [hscale, scan, hpoint, hmore, hvalue, hlength]

/-- A number that does not begin with a sign is read without one. -/
theorem plain?_unsigned {c : Char} {cs : List Char} (h : c.isDigit = true) :
    plain? (c :: cs) = (scan false false 0 0 (c :: cs)).map fun found =>
      ⟨1 * (found.1 : Int), found.2⟩ := by
  unfold plain?
  split
  · rename_i heq
    obtain rfl := (List.cons.inj heq).1
    exact absurd h (by decide)
  · rename_i heq
    obtain rfl := (List.cons.inj heq).1
    exact absurd h (by decide)
  · rfl

/-- A decimal that fits is read back, with all of its places. -/
theorem ofText?_text {d : Decimal} (h : d.Fits) : ofText? d.text = some d := by
  have hscan := scan_magnitudeText h
  obtain ⟨whole, places, htext, hne, hdigits, -, -⟩ := toList_magnitudeText d
  have hplain : plain? d.text.toList = some d := by
    obtain ⟨coefficient, scale⟩ := d
    dsimp only at hscan
    unfold text
    split
    · rename_i hnegative
      have hminus : ∀ m : String, ("-" ++ m).toList = '-' :: m.toList := fun m => by simp
      rw [hminus]
      simp only [plain?, hscan, Option.map_some, Option.some.injEq, mk.injEq, and_true]
      dsimp only at hnegative
      omega
    · rename_i hpositive
      dsimp only at hpositive
      obtain ⟨c, more, rfl⟩ := List.exists_cons_of_ne_nil hne
      have hc : c.isDigit = true := hdigits c (by simp)
      rw [htext, List.cons_append] at hscan ⊢
      rw [plain?_unsigned hc, hscan]
      simp only [Option.map_some, Option.some.injEq, mk.injEq, and_true]
      omega
  simp only [ofText?, hplain]

/-- No white space stands around a written number. -/
theorem trim_text (d : Decimal) : trim d.text = d.text := by
  obtain ⟨whole, places, htext, hne, hdigits, hlength, -⟩ := toList_magnitudeText d
  have hblank : ∀ c ∈ d.magnitudeText.toList, isBlank c = false := by
    intro c hc
    rw [htext] at hc
    split at hc
    · rw [List.append_nil] at hc
      exact isBlank_of_isDigit (hdigits c (List.mem_append_left _ hc))
    · rcases List.mem_append.mp hc with hc | hc
      · exact isBlank_of_isDigit (hdigits c (List.mem_append_left _ hc))
      · rcases List.mem_cons.mp hc with rfl | hc
        · decide
        · exact isBlank_of_isDigit (hdigits c (List.mem_append_right _ hc))
  have hall : ∀ c ∈ d.text.toList, isBlank c = false := by
    intro c hc
    unfold text at hc
    split at hc
    · rw [String.toList_append] at hc
      rcases List.mem_append.mp hc with hc | hc
      · obtain rfl : c = '-' := by simpa using hc
        decide
      · exact hblank c hc
    · exact hblank c hc
  exact trim_of_ends (fun c hc => hall c (List.mem_of_mem_head? hc))
    fun c hc => hall c (List.mem_of_mem_getLast? hc)

/-! ## What is read fits -/

/-- The coefficient and the scale can be kept. -/
def Kept (found : Nat × Nat) : Prop :=
  found.1 < coefficientBound ∧ found.2 ≤ maxScale

theorem coefficientBound_pos : 0 < coefficientBound := by
  unfold coefficientBound
  exact Nat.pow_pos (by decide)

theorem roundAt_kept {coefficient scale : Nat} {c : Char} {rest : List Char} {found : Nat × Nat}
    (hcoefficient : coefficient < coefficientBound) (hscale : scale ≤ maxScale)
    (h : roundAt coefficient scale c rest = some found) : Kept found := by
  have hrounded : (if c.isDigit && Text.digitValue c ≥ 5 then coefficient + 1 else coefficient) ≤
      coefficientBound := by
    split <;> omega
  unfold roundAt at h
  split at h
  · cases h
  · dsimp only at h
    generalize (if c.isDigit && Text.digitValue c ≥ 5 then coefficient + 1 else coefficient) = n
      at h hrounded
    split at h
    · obtain rfl := Option.some.inj h
      exact ⟨‹_›, hscale⟩
    · split at h
      · cases h
      · obtain rfl := Option.some.inj h
        have := coefficientBound_pos
        exact ⟨by dsimp only; omega, by dsimp only; omega⟩

theorem scan_kept {point digits : Bool} {coefficient scale : Nat} {cs : List Char}
    {found : Nat × Nat} (hcoefficient : coefficient < coefficientBound) (hscale : scale ≤ maxScale)
    (h : scan point digits coefficient scale cs = some found) : Kept found := by
  induction cs generalizing point digits coefficient scale with
  | nil =>
    unfold scan at h
    split at h
    · obtain rfl := Option.some.inj h
      exact ⟨hcoefficient, hscale⟩
    · cases h
  | cons c cs ih =>
    rw [scan] at h
    split at h
    · exact roundAt_kept hcoefficient hscale h
    · rename_i hroom
      split at h
      · dsimp only at h
        split at h
        · refine ih ‹_› ?_ h
          split
          · rename_i hpoint
            simp only [hpoint, Bool.true_and, decide_eq_true_eq] at hroom
            omega
          · exact hscale
        · split at h
          · exact roundAt_kept hcoefficient hscale h
          · cases h
      · split at h
        · exact ih hcoefficient hscale h
        · split at h
          · exact ih hcoefficient hscale h
          · cases h

theorem plain?_fits {cs : List Char} {d : Decimal} (h : plain? cs = some d) : d.Fits := by
  have hread : ∀ (sign : Int) (cs : List Char), sign.natAbs = 1 →
      (scan false false 0 0 cs).map (fun found => (⟨sign * (found.1 : Int), found.2⟩ : Decimal)) =
        some d → d.Fits := by
    intro sign cs hsign h
    obtain ⟨found, hfound, rfl⟩ := Option.map_eq_some_iff.mp h
    have hkept := scan_kept coefficientBound_pos (Nat.zero_le _) hfound
    refine ⟨?_, hkept.2⟩
    rw [Int.natAbs_mul, hsign, Nat.one_mul, Int.natAbs_natCast]
    exact hkept.1
  unfold plain? at h
  split at h
  · exact hread (-1) _ rfl h
  · exact hread 1 _ rfl h
  · exact hread 1 _ rfl h

theorem lower_fits {d e : Decimal} {exponent : Nat} (hd : d.Fits)
    (h : d.lower exponent = some e) : e.Fits := by
  unfold lower at h
  split at h
  · cases h
  · split at h
    · obtain rfl := Option.some.inj h
      refine ⟨?_, Nat.le_refl _⟩
      have hrounded : (roundPlaces d.coefficient (d.scale + exponent - maxScale)).natAbs =
          (d.coefficient.natAbs + powerOfTen (d.scale + exponent - maxScale) / 2) /
            powerOfTen (d.scale + exponent - maxScale) := by
        unfold roundPlaces
        split
        · rw [Int.natAbs_neg, Int.natAbs_natCast]
        · rw [Int.natAbs_natCast]
      have hpower : 0 < powerOfTen (d.scale + exponent - maxScale) := Nat.pow_pos (by decide)
      dsimp only
      rw [hrounded]
      generalize powerOfTen (d.scale + exponent - maxScale) = power at hpower
      have hlt : (d.coefficient.natAbs + power / 2) / power < coefficientBound := by
        have hbound := hd.coefficient
        generalize d.coefficient.natAbs = n at hbound
        generalize coefficientBound = bound at hbound
        rw [Nat.div_lt_iff_lt_mul hpower]
        obtain ⟨less, rfl⟩ : ∃ k, power = k + 1 := ⟨power - 1, by omega⟩
        have hmul : less ≤ bound * less := Nat.le_mul_of_pos_left less (by omega)
        rw [Nat.mul_add, Nat.mul_one]
        omega
      exact hlt
    · obtain rfl := Option.some.inj h
      exact ⟨hd.coefficient, by dsimp only; omega⟩

theorem raise_fits {d e : Decimal} {exponent : Nat} (hd : d.Fits)
    (h : d.raise exponent = some e) : e.Fits := by
  unfold raise at h
  split at h
  · obtain rfl := Option.some.inj h
    have hscale := hd.scale
    exact ⟨hd.coefficient, by dsimp only; omega⟩
  · split at h
    · cases h
    · dsimp only at h
      split at h
      · obtain rfl := Option.some.inj h
        exact ⟨‹_›, Nat.zero_le _⟩
      · cases h

/-- A decimal that is read fits. -/
theorem ofText?_fits {text : String} {d : Decimal} (h : ofText? text = some d) : d.Fits := by
  unfold ofText? at h
  dsimp only at h
  split at h
  · obtain rfl := Option.some.inj h
    exact plain?_fits ‹_›
  · split at h
    · cases h
    · obtain ⟨base, hbase, hmoved⟩ := Option.bind_eq_some_iff.mp h
      have hfits := plain?_fits hbase
      unfold withExponent at hmoved
      split at hmoved
      · obtain ⟨exponent, -, hmoved⟩ := Option.bind_eq_some_iff.mp hmoved
        exact lower_fits hfits hmoved
      · obtain ⟨exponent, -, hmoved⟩ := Option.bind_eq_some_iff.mp hmoved
        exact raise_fits hfits hmoved

/-- A decimal still fits without its places. -/
theorem truncate_fits {d : Decimal} (h : d.Fits) : d.truncate.Fits := by
  refine ⟨?_, Nat.zero_le _⟩
  rw [truncate, Int.natAbs_tdiv]
  exact Nat.lt_of_le_of_lt (Nat.div_le_self _ _) h.coefficient

/-- A decimal without places is whole, and stays as it is without them. -/
theorem whole_of_scale {d : Decimal} (h : d.scale = 0) : d.isWhole = true ∧ d.truncate = d := by
  obtain ⟨coefficient, scale⟩ := d
  dsimp only at h
  subst h
  constructor
  · simp [isWhole, powerOfTen, Nat.mod_one]
  · simp [truncate, powerOfTen]

end Decimal

end LinkQuery
