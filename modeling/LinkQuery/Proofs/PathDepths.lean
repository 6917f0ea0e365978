import LinkQuery.Proofs.Heights
import LinkQuery.Proofs.Levels
import Mathlib.Data.Finset.Dedup
import Mathlib.Data.Finset.Lattice.Fold
import Mathlib.Order.Lattice.Nat
/-!
# Depths of paths

A path goes down one level for each of its segments, and farther into the filters inside them. While
its log is read, each piece adds a segment, puts a filter inside the last one, or changes nothing
that goes down; the levels of the log grow alike.

Main statements:
- `Path.roomy_of_deepest`: the room for the filters inside a path.
- `Path.grown_of_read`: a path that is read has grown by the pieces of its log.
- `Path.deepensInside_of_grown`: the log has the depth of the segments.
-/
namespace LinkQuery

open Rule Language

open TokenLog (pathDepth isStill Deepens DeepensInside Fits)

/-! ## Depths of segments -/

/-- The largest of some numbers is one of them, unless there are none but zeros. -/
theorem exists_eq_sup {α : Type} {s : Finset α} {f : α → Nat} (h : s.sup f ≠ 0) :
    ∃ a ∈ s, s.sup f = f a := by
  refine Finset.exists_mem_eq_sup s ?_ f
  rw [Finset.nonempty_iff_ne_empty]
  rintro rfl
  exact h rfl

/-- How far the filters inside a segment go down from it. -/
def Segment.depthInside (s : Segment) : Nat :=
  s.logs.toFinset.sup fun log => pathDepth log + 1

namespace Path

/-- How far segments in a row go down, with the filters inside them. -/
def deepest : List Segment → Nat
  | [] => 0
  | first :: rest => max first.depthInside (deepest rest) + 1

section Segments

variable {front back segments : List Segment} {segment last last' : Segment}
  {inner log : List Token} {i : Nat}

theorem deepest_concat :
    deepest (front ++ [last]) = max (deepest front) (front.length + 1 + last.depthInside) := by
  induction front with
  | nil => simp [deepest, Nat.add_comm]
  | cons first front ih =>
    simp only [List.cons_append, deepest, ih, List.length_cons]
    omega

/-- The logs inside the segments are all that matters. -/
theorem deepest_congr (h : front.map Segment.logs = back.map Segment.logs) :
    deepest front = deepest back := by
  induction front generalizing back with
  | nil =>
    obtain rfl : back = [] := by simpa using h.symm
    rfl
  | cons first front ih =>
    cases back with
    | nil => cases h
    | cons other back =>
      simp only [List.map_cons, List.cons.injEq] at h
      simp only [deepest, Segment.depthInside, h.1, ih h.2]

theorem depthInside_more (h : ∀ other, other ∈ last'.logs ↔ other ∈ last.logs ∨ other = log) :
    last'.depthInside = max last.depthInside (pathDepth log + 1) := by
  have hlogs : last'.logs.toFinset = insert log last.logs.toFinset := by
    ext other
    simp [h, or_comm]
  rw [Segment.depthInside, hlogs, Finset.sup_insert, Segment.depthInside, max_comm]

theorem lt_depthInside (h : inner ∈ segment.logs) : pathDepth inner < segment.depthInside :=
  Finset.le_sup (f := fun log => pathDepth log + 1) (List.mem_toFinset.mpr h)

/-- A segment goes no farther down than one of the filters inside it. -/
theorem depthInside_attained (h : segment.depthInside ≠ 0) :
    ∃ inner ∈ segment.logs, segment.depthInside = pathDepth inner + 1 := by
  obtain ⟨inner, hinner, hsup⟩ := exists_eq_sup h
  exact ⟨inner, List.mem_toFinset.mp hinner, hsup⟩

theorem le_deepest (h : segments[i]? = some segment) :
    i + 1 + segment.depthInside ≤ deepest segments := by
  induction segments generalizing i with
  | nil => cases h
  | cons first rest ih =>
    cases i with
    | zero =>
      obtain rfl := Option.some.inj h
      simp only [deepest]
      omega
    | succ i =>
      have hrest := ih h
      simp only [deepest]
      omega

/-- Segments go no farther down than one of them. -/
theorem deepest_attained (h : segments ≠ []) : ∃ i segment, segments[i]? = some segment ∧
    deepest segments = i + 1 + segment.depthInside := by
  induction segments with
  | nil => exact absurd rfl h
  | cons first rest ih =>
    by_cases hfirst : deepest rest ≤ first.depthInside
    · refine ⟨0, first, rfl, ?_⟩
      simp only [deepest]
      omega
    · have hne : rest ≠ [] := by
        rintro rfl
        simp [deepest] at hfirst
      obtain ⟨i, segment, hsegment, hdeepest⟩ := ih hne
      refine ⟨i + 1, segment, hsegment, ?_⟩
      simp only [deepest]
      omega

end Segments

/-! ## Room for the filters inside a path -/

/-- There is room for the segments and for the filters inside them, less behind each segment. -/
def Roomy (inner : LogSet) : Nat → List Segment → Prop
  | _, [] => True
  | 0, _ :: _ => False
  | room + 1, first :: rest =>
    (∀ log ∈ first.logs, inner log ∧ Fits room log) ∧ Roomy inner room rest

section Roomy

variable {inner : LogSet} {room : Nat} {segments : List Segment}

theorem roomy_nil : Roomy inner room [] := by
  simp [Roomy]

/-- Segments that go no farther down have room. -/
theorem roomy_of_deepest (hlogs : ∀ segment ∈ segments, ∀ log ∈ segment.logs, inner log)
    (h : deepest segments ≤ room) : Roomy inner room segments := by
  induction segments generalizing room with
  | nil => exact roomy_nil
  | cons first rest ih =>
    rw [List.forall_mem_cons] at hlogs
    cases room with
    | zero => simp [deepest] at h
    | succ room =>
      simp only [deepest] at h
      refine ⟨fun log hlog => ⟨hlogs.1 log hlog, TokenLog.fits_of_pathDepth ?_⟩,
        ih hlogs.2 (by omega)⟩
      have hbelow := lt_depthInside hlog
      omega

end Roomy

/-! ## Growing paths -/

/-- The segments so far, with those in front of the open quantifiers. -/
def soFar (frames : List Frame) (read : List Segment) : List Segment :=
  (read ++ frames.flatMap Frame.outside).reverse

/-- What a piece of a path does to the segments in front of it: it adds a segment, puts a filter
inside the last one, or leaves all filters as they are. -/
inductive Grows (inner : LogSet) : List Token → List Segment → List Segment → Prop
  | segment {front : List Segment} {last : Segment} (hlogs : last.logs = []) (value : String)
    (p : Nat) : Grows inner [⟨.word, value, p⟩] front (front ++ [last])
  | filter {lead log : List Token} {front : List Segment} {last last' : Segment}
    (hlead : lead.all isStill = true) (hlog : inner log)
    (hlogs : ∀ other, other ∈ last'.logs ↔ other ∈ last.logs ∨ other = log) (p q : Nat) :
    Grows inner (lead ++ ⟨.marker .whereStart, "", p⟩ :: (log ++ [⟨.marker .whereEnd, "", q⟩]))
      (front ++ [last]) (front ++ [last'])
  | still {tokens : List Token} {front back : List Segment} (htokens : tokens.all isStill = true)
    (hlogs : front.map Segment.logs = back.map Segment.logs) : Grows inner tokens front back

/-- The segments that the pieces of a log add up to. -/
inductive Grown (inner : LogSet) : List Token → List Segment → Prop
  | nil : Grown inner [] []
  | piece {tokens piece : List Token} {front back : List Segment} (h : Grown inner tokens front)
    (hpiece : Grows inner piece front back) : Grown inner (tokens ++ piece) back

/-! ## Reading -/

section Reading

variable {inner : LogSet} {frames : List Frame} {read before segments : List Segment}
  {last : Segment} {tokens rest after done : List Token}

theorem soFar_cons : soFar frames (last :: before) = soFar frames before ++ [last] := by
  simp [soFar]

/-- Something stands in front of the mark or the block of a segment. -/
theorem segmentsFrom_started {t : Token} (ht : t.kind = .marker .transitive ∨
      t.kind = .marker .whereStart)
    (h : segmentsFrom frames read (t :: rest) = .ok (segments, after)) :
    ∃ last before, read = last :: before := by
  cases read with
  | cons last before => exact ⟨last, before, rfl⟩
  | nil =>
    rw [segmentsFrom.eq_def] at h
    rcases ht with ht | ht
    · simp [ht, internal] at h
    · simp only [ht] at h
      split at h
      · cases h
      · cases h

theorem segmentsFrom_conditioned {word : String} {quantifier : Quantifier} {p p' : Nat}
    (hword : Quantifier.ofKeyword? word = some quantifier)
    (h : segmentsFrom frames read
      (⟨.keyword, word, p⟩ :: ⟨.marker .whereStart, "", p'⟩ :: rest) = .ok (segments, after)) :
    ∃ last before, read = last :: before := by
  cases read with
  | cons last before => exact ⟨last, before, rfl⟩
  | nil =>
    rw [segmentsFrom.eq_def] at h
    simp only [hword, Token.isMarker] at h
    simp only [reduceCtorEq, TokenKind.marker.injEq, beq_iff_eq, if_false, if_true] at h
    split at h
    · cases h
    · cases h

theorem Piece.noNumberFirst (h : Piece inner tokens) : NoNumberFirst tokens := by
  cases h <;> simp [NoNumberFirst]

/-- The segments that are read are as deep as the log that they are read from. -/
theorem deepensInside_of_grown (hinner : ∀ log, inner log → Deepens (pathDepth log) log)
    (h : Grown inner tokens segments) :
    DeepensInside segments.length (deepest segments) tokens := by
  induction h with
  | nil => exact .nil
  | @piece tokens piece front back _ hpiece ih =>
    cases hpiece with
    | @segment _ last hlogs value p =>
      have hinside : last.depthInside = 0 := by simp [Segment.depthInside, hlogs]
      rw [deepest_concat, hinside, List.length_append]
      exact ih.append (.word value p)
    | @filter lead log front last last' hlead hlog hlogs p q =>
      have hblock := (DeepensInside.still hlead).append (.block (hinner log hlog) p q)
      have hall := ih.append hblock
      rw [deepest_concat] at hall
      rw [deepest_concat, depthInside_more hlogs]
      simp only [List.length_append, List.length_singleton] at hall ⊢
      convert hall using 1
      omega
    | still htokens hlogs =>
      have hall := ih.append (.still htokens)
      have hlength := congrArg List.length hlogs
      rw [List.length_map, List.length_map] at hlength
      rwa [← hlength, ← deepest_congr hlogs, ← Nat.max_eq_left ih.ahead_le]

/-- The filters inside the segments are those of the pieces. -/
theorem Grown.logs (h : Grown inner tokens segments) :
    ∀ segment ∈ segments, ∀ log ∈ segment.logs, inner log := by
  induction h with
  | nil => simp
  | @piece tokens piece front back _ hpiece ih =>
    cases hpiece with
    | segment hlogs value p =>
      rw [List.forall_mem_append, List.forall_mem_singleton, hlogs]
      exact ⟨ih, by simp⟩
    | @filter lead log front last last' hlead hlog hlogs p q =>
      rw [List.forall_mem_append, List.forall_mem_singleton] at ih ⊢
      refine ⟨ih.1, fun other hother => ?_⟩
      rcases (hlogs other).mp hother with hother | rfl
      · exact ih.2 other hother
      · exact hlog
    | still htokens hlogs =>
      intro segment hsegment
      obtain ⟨other, hother, hsame⟩ : ∃ other ∈ front, other.logs = segment.logs := by
        have hmem : segment.logs ∈ back.map Segment.logs := List.mem_map_of_mem hsegment
        rw [← hlogs] at hmem
        exact List.mem_map.mp hmem
      rw [← hsame]
      exact ih other hother

/-- A piece has a depth when the filters inside it do. -/
theorem Piece.deepensInside (hinner : ∀ log, inner log → ∃ k, Deepens k log)
    (h : Piece inner tokens) : ∃ ahead k, DeepensInside ahead k tokens := by
  cases h with
  | word value p => exact ⟨1, 1, .word value p⟩
  | transitive p => exact ⟨0, 0, .still rfl⟩
  | limited value p q => exact ⟨0, 0, .still rfl⟩
  | block h p q =>
    obtain ⟨k, hk⟩ := hinner _ h
    exact ⟨0, k + 1, .block hk p q⟩
  | condition hword h p p' q =>
    obtain ⟨k, hk⟩ := hinner _ h
    exact ⟨_, _, DeepensInside.append (a := [_]) (.still rfl) (.block hk p' q)⟩
  | quantStart hword p p' => exact ⟨0, 0, .still rfl⟩
  | quantEnd p => exact ⟨0, 0, .still rfl⟩

/-- Reading a piece lets the segments grow by it. -/
theorem Piece.grows {r : List Segment × List Token}
    (hbalanced : ∀ log, inner log → Block.Balanced log) (h : Piece inner tokens)
    (hrest : NoNumberFirst rest) (hread : segmentsFrom frames read (tokens ++ rest) = .ok r) :
    ∃ frames' read', Grows inner tokens (soFar frames read) (soFar frames' read') ∧
      segmentsFrom frames' read' rest = .ok r := by
  cases h with
  | word value p =>
    rw [List.singleton_append, segmentsFrom_word] at hread
    refine ⟨_, _, ?_, hread⟩
    rw [soFar_cons]
    exact .segment rfl value p
  | transitive p =>
    obtain ⟨last, before, rfl⟩ := segmentsFrom_started (Or.inl rfl) hread
    rw [List.singleton_append, segmentsFrom_transitive _ _ _ _ _ hrest] at hread
    refine ⟨_, _, .still rfl ?_, hread⟩
    simp [soFar_cons, Segment.repeated, Segment.logs]
  | limited value p p' =>
    obtain ⟨last, before, rfl⟩ := segmentsFrom_started (Or.inl rfl) hread
    cases hlimit : Text.unsigned? 32 value with
    | none =>
      have hbad := segmentsFrom_badLimit frames before last rest p p' hlimit
      cases hread.symm.trans hbad
    | some limit =>
      have hlast := segmentsFrom_limit frames before last rest p p' hlimit
      refine ⟨_, _, .still rfl ?_, hlast.symm.trans hread⟩
      simp [soFar_cons, Segment.repeated, Segment.logs]
  | @block log hlog p p' =>
    obtain ⟨last, before, rfl⟩ := segmentsFrom_started (Or.inr rfl) hread
    rw [List.cons_append, List.append_assoc, List.singleton_append,
      segmentsFrom_block _ _ _ _ _ (Block.take?_balanced (hbalanced log hlog) p' rest)] at hread
    refine ⟨_, _, ?_, hread⟩
    rw [soFar_cons, soFar_cons]
    have hlead : ([] : List Token).all isStill = true := rfl
    refine .filter hlead hlog (fun other => ?_) p p'
    simp only [Segment.logs, Segment.filteredBy, List.mem_append, List.mem_singleton]
    tauto
  | @condition word quantifier log hword hlog p p' p'' =>
    obtain ⟨last, before, rfl⟩ := segmentsFrom_conditioned hword hread
    rw [List.cons_append, List.cons_append, List.append_assoc, List.singleton_append,
      segmentsFrom_condition _ _ _ _ _ _ hword
        (Block.take?_balanced (hbalanced log hlog) p'' rest)] at hread
    split at hread
    · cases hread
    · rename_i hnone
      refine ⟨_, _, ?_, hread⟩
      rw [soFar_cons, soFar_cons]
      have hnone : last.condition = none := by simpa using hnone
      have hlead : [(⟨.keyword, word, p⟩ : Token)].all isStill = true := rfl
      refine .filter hlead hlog (fun other => ?_) p' p''
      simp [Segment.logs, hnone]
  | quantStart hword p p' =>
    have hstart := segmentsFrom_quantifier frames read rest p p' hword
    refine ⟨_, [], .still rfl ?_, hstart.symm.trans hread⟩
    simp [soFar]
  | quantEnd p =>
    cases frames with
    | nil =>
      rw [List.singleton_append, segmentsFrom.eq_def] at hread
      cases hread
    | cons frame frames =>
      rw [List.singleton_append, segmentsFrom_quantEnd] at hread
      refine ⟨_, _, .still rfl ?_, hread⟩
      simp [soFar, Frame.close, Segment.quantifiedBy, Segment.logs, Function.comp_def]

/-- What is read up to the end of a path has grown by its pieces. -/
theorem grown_of_segmentsFrom {q : Nat} (hbalanced : ∀ log, inner log → Block.Balanced log)
    (h : Repeated (Piece inner) tokens) (hdone : Grown inner done (soFar frames read))
    (hread : segmentsFrom frames read (tokens ++ ⟨.marker .pathEnd, "", q⟩ :: rest) =
      .ok (segments, after)) :
    Grown inner (done ++ tokens) segments ∧ after = rest := by
  obtain ⟨pieces, rfl, hpieces⟩ := h
  induction pieces generalizing frames read done with
  | nil =>
    rw [List.flatten_nil, List.nil_append] at hread
    cases frames with
    | nil =>
      rw [segmentsFrom_pathEnd] at hread
      obtain ⟨rfl, rfl⟩ := Prod.mk.inj (Except.ok.inj hread)
      simpa [soFar] using hdone
    | cons frame frames =>
      rw [segmentsFrom.eq_def] at hread
      cases hread
  | cons piece pieces ih =>
    rw [List.forall_mem_cons] at hpieces
    rw [List.flatten_cons, List.append_assoc] at hread
    have hnumber : NoNumberFirst (pieces.flatten ++ ⟨.marker .pathEnd, "", q⟩ :: rest) := by
      refine NoNumberFirst.append ?_ (by simp [NoNumberFirst])
      have hrest : Repeated (Piece inner) pieces.flatten := ⟨pieces, rfl, hpieces.2⟩
      exact hrest.induction (by simp [NoNumberFirst]) fun _ _ hpiece hrest =>
        hpiece.noNumberFirst.append hrest
    obtain ⟨frames', read', hgrows, hread'⟩ := hpieces.1.grows hbalanced hnumber hread
    rw [List.flatten_cons, ← List.append_assoc]
    exact ih (hdone.piece hgrows) hpieces.2 hread'

/-- The segments of a path have grown by its pieces, and what follows the path is left. -/
theorem grown_of_read {n q : Nat} {body : List Token} {path : Path}
    (h : PathBody (Generates Part.body n) body)
    (hread : Path.read (body ++ ⟨.marker .pathEnd, "", q⟩ :: rest) = .ok (path, after)) :
    Grown (FilterBelow n) body path.segments ∧ after = rest := by
  unfold Path.read at hread
  split at hread
  · cases hread
  · rename_i segments behind hsegments
    split at hread
    · cases hread
    · rename_i found hfound
      obtain ⟨rfl, rfl⟩ := Prod.mk.inj (Except.ok.inj hread)
      have hbalanced : ∀ log, FilterBelow n log → Block.Balanced log :=
        fun log hlog => hlog.filterLog.balanced
      have hgrown : Grown (FilterBelow n) ([] ++ body) segments ∧ behind = rest :=
        grown_of_segmentsFrom hbalanced (pieces_of_pathBody h) .nil hsegments
      cases segments with
      | nil => cases hfound
      | cons first more =>
        obtain rfl := Option.some.inj hfound
        exact hgrown

end Reading

end Path

end LinkQuery
