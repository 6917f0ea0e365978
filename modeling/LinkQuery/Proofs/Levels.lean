import LinkQuery.Proofs.PathLogs
import LinkQuery.TokenLog
/-!
# Levels of logs

The depth of a log counts the words of a path and the blocks inside it, with a stack of the open
blocks. A log that deepens by a number of levels ends on the level where it begins and goes just so
far down on the way. So a part of a log is as deep as it is alone, and it has as much room as the
log is given.

Main statements:
- `TokenLog.Deepens.append`, `TokenLog.Deepens.path`, `TokenLog.DeepensInside.block`: the levels of
  logs that are put together.
- `TokenLog.Fits.left`, `TokenLog.Fits.right`: the parts of a log that fits.
- `Path.pieces_of_generates`: the pieces of the logs of segments and steps.
-/
namespace LinkQuery

open Rule Language

/-! ## Depths -/

namespace TokenLog

namespace Depth

variable (d : Depth) (t : Token) (log : List Token)

/-- The depth behind a log. -/
def after : Depth :=
  log.foldl step d

theorem after_cons : d.after (t :: log) = (d.step t).after log := rfl

theorem after_append (other : List Token) : d.after (log ++ other) = (d.after log).after other :=
  List.foldl_append

theorem deepest_le_step : d.deepest ≤ (d.step t).deepest := by
  have hsame : (d.reaching t).deepest = d.deepest := by
    unfold reaching
    split
    · rfl
    · rfl
    · unfold closed; split <;> rfl
    · unfold closed; split <;> rfl
    · split <;> rfl
    · rfl
  simp only [step, hsame]
  exact Nat.le_max_left _ _

theorem current_le_step : (d.step t).current ≤ (d.step t).deepest :=
  Nat.le_max_right _ _

theorem deepest_le_after : d.deepest ≤ (d.after log).deepest := by
  induction log generalizing d with
  | nil => exact Nat.le_refl _
  | cons t log ih => exact Nat.le_trans (d.deepest_le_step t) (ih (d.step t))

theorem current_le_after {d : Depth} (h : d.current ≤ d.deepest) :
    (d.after log).current ≤ (d.after log).deepest := by
  induction log generalizing d with
  | nil => exact h
  | cons t log ih => exact ih (d.current_le_step t)

/-- The same blocks and the same level. -/
def SameLevel (d e : Depth) : Prop :=
  d.frames = e.frames ∧ d.current = e.current

/-- How deep the log in front was does not matter for the level. -/
theorem SameLevel.step {d e : Depth} (h : SameLevel d e) : SameLevel (d.step t) (e.step t) := by
  obtain ⟨frames, current, deepest⟩ := d
  obtain ⟨_, _, other⟩ := e
  obtain ⟨rfl, rfl⟩ := h
  cases frames <;> grind [SameLevel, Depth.step, reaching, opened, closed, deeper, inPath]

theorem SameLevel.after {d e : Depth} (h : SameLevel d e) :
    SameLevel (d.after log) (e.after log) := by
  induction log generalizing d e with
  | nil => exact h
  | cons t log ih => exact ih (h.step t)

end Depth

/-! ## Logs with a depth -/

/-- The token is no marker. -/
def isUnmarked (t : Token) : Bool :=
  match t.kind with
  | .marker _ => false
  | _ => true

/-- The token is the start or the end of a path or of a filter inside one. -/
def isBlockMark (t : Token) : Bool :=
  match t.kind with
  | .marker .pathStart | .marker .pathEnd | .marker .whereStart | .marker .whereEnd => true
  | _ => false

/-- The token changes no level, inside of paths either. -/
def isStill (t : Token) : Bool :=
  match t.kind with
  | .word => false
  | _ => !isBlockMark t

theorem Depth.reaching_of_isStill {t : Token} (h : isStill t = true) (d : Depth) :
    d.reaching t = d := by
  unfold reaching
  split <;> simp_all [isStill, isBlockMark]

/-- Outside of paths, the log ends on the level where it begins and goes `k` levels down. -/
def Deepens (k : Nat) (log : List Token) : Prop :=
  ∀ d : Depth, d.inPath = false → d.current ≤ d.deepest →
    d.after log = { d with deepest := max d.deepest (d.current + k) }

/-- Inside a path, the log ends some levels farther down and goes `k` levels down on the way. -/
def DeepensInside (ahead k : Nat) (log : List Token) : Prop :=
  ∀ d : Depth, d.inPath = true → d.current ≤ d.deepest →
    d.after log =
      { d with current := d.current + ahead, deepest := max d.deepest (d.current + k) }

section Deepening

variable {a b log : List Token} {t : Token} {k m n ahead more : Nat}

theorem Deepens.nil : Deepens 0 [] := by
  intro d _ hsound
  simp [Depth.after, hsound]

theorem Deepens.append (ha : Deepens m a) (hb : Deepens n b) : Deepens (max m n) (a ++ b) := by
  intro d hd hsound
  have hbehind := hb ⟨d.frames, d.current, max d.deepest (d.current + m)⟩ hd (by simp only; omega)
  rw [Depth.after_append, ha d hd hsound, hbehind]
  simp only [Depth.mk.injEq, true_and]
  omega

/-- Outside of paths, only the marks of blocks change the level. -/
theorem Deepens.token (h : isBlockMark t = false) : Deepens 0 [t] := by
  intro d hd hsound
  have hreach : d.reaching t = d := by
    unfold Depth.reaching
    split <;> simp_all [isBlockMark]
  simp [Depth.after, Depth.step, hreach, hsound]

theorem isBlockMark_of_isUnmarked (h : isUnmarked t = true) : isBlockMark t = false := by
  unfold isBlockMark
  split <;> simp_all [isUnmarked]

theorem Deepens.unmarked (h : log.all isUnmarked = true) : Deepens 0 log := by
  induction log with
  | nil => exact .nil
  | cons t log ih =>
    simp only [List.all_cons, Bool.and_eq_true] at h
    exact (Deepens.token (isBlockMark_of_isUnmarked h.1)).append (a := [t]) (ih h.2)

/-- A path is as deep as its segments. -/
theorem Deepens.path (h : DeepensInside ahead k log) (p q : Nat) :
    Deepens k (⟨.marker .pathStart, "", p⟩ :: (log ++ [⟨.marker .pathEnd, "", q⟩])) := by
  intro d _ hsound
  have hinside := h (d.step ⟨.marker .pathStart, "", p⟩) rfl (Depth.current_le_step ..)
  rw [Depth.after_cons, Depth.after_append, hinside]
  simp only [Depth.after, Depth.step, Depth.reaching, Depth.closed, Depth.opened, List.foldl_cons,
    List.foldl_nil, Depth.mk.injEq, true_and]
  omega

theorem Deepens.pathDepth (h : Deepens k log) : pathDepth log = k := by
  have hall : (Depth.zero.after log).deepest = max 0 (0 + k) :=
    congrArg Depth.deepest (h .zero rfl (Nat.le_refl _))
  simpa [TokenLog.pathDepth, Depth.after] using hall

theorem DeepensInside.nil : DeepensInside 0 0 [] := by
  intro d _ hsound
  simp [Depth.after, hsound]

theorem DeepensInside.append (ha : DeepensInside ahead m a) (hb : DeepensInside more n b) :
    DeepensInside (ahead + more) (max m (ahead + n)) (a ++ b) := by
  intro d hd hsound
  have hbelow := Depth.current_le_after a hsound
  rw [ha d hd hsound] at hbelow
  have hbehind := hb ⟨d.frames, d.current + ahead, max d.deepest (d.current + m)⟩ hd hbelow
  rw [Depth.after_append, ha d hd hsound, hbehind]
  simp only [Depth.mk.injEq, true_and]
  omega

/-- A word of a path is a level. -/
theorem DeepensInside.word (value : String) (p : Nat) : DeepensInside 1 1 [⟨.word, value, p⟩] := by
  intro d hd _
  simp [Depth.after, Depth.step, Depth.reaching, hd, Depth.deeper]

theorem DeepensInside.still (h : log.all isStill = true) : DeepensInside 0 0 log := by
  induction log with
  | nil => exact .nil
  | cons t log ih =>
    simp only [List.all_cons, Bool.and_eq_true] at h
    have hfirst : DeepensInside 0 0 [t] := by
      intro d _ hsound
      simp [Depth.after, Depth.step, Depth.reaching_of_isStill h.1, hsound]
    exact hfirst.append (a := [t]) (ih h.2)

/-- A filter inside a path is one level, and as deep as its log. -/
theorem DeepensInside.block (h : Deepens k log) (p q : Nat) : DeepensInside 0 (k + 1)
    (⟨.marker .whereStart, "", p⟩ :: (log ++ [⟨.marker .whereEnd, "", q⟩])) := by
  intro d _ hsound
  have hinside := h (d.step ⟨.marker .whereStart, "", p⟩) rfl (Depth.current_le_step ..)
  rw [Depth.after_cons, Depth.after_append, hinside]
  simp only [Depth.after, Depth.step, Depth.reaching, Depth.closed, Depth.opened, Depth.deeper,
    List.foldl_cons, List.foldl_nil, Depth.mk.injEq, true_and]
  omega

theorem DeepensInside.ahead_le (h : DeepensInside ahead k log) : ahead ≤ k := by
  have hall := h ⟨[⟨true, 0⟩], 0, 0⟩ rfl (Nat.le_refl _)
  have hbelow := Depth.current_le_after (d := ⟨[⟨true, 0⟩], 0, 0⟩) log (Nat.le_refl _)
  rw [hall] at hbelow
  simpa using hbelow

end Deepening

/-! ## Logs that close their blocks -/

/-- Outside of paths, the blocks and the level behind the log are those in front of it. -/
def Closes (log : List Token) : Prop :=
  ∀ d : Depth, d.inPath = false →
    (d.after log).frames = d.frames ∧ (d.after log).current = d.current

theorem Depth.inPath_congr {d e : Depth} (h : e.frames = d.frames) : e.inPath = d.inPath := by
  simp only [Depth.inPath, h]

section Closing

variable {a b log : List Token} {k : Nat}

/-- A log that deepens closes its blocks. -/
theorem Deepens.closes (h : Deepens k log) : Closes log := by
  intro d hd
  have hlog := h ⟨d.frames, d.current, d.current⟩ hd (Nat.le_refl _)
  have hsame : d.SameLevel ⟨d.frames, d.current, d.current⟩ := ⟨rfl, rfl⟩
  have hafter := hsame.after log
  rwa [hlog] at hafter

theorem Closes.nil : Closes [] :=
  fun _ _ => ⟨rfl, rfl⟩

theorem Closes.append (ha : Closes a) (hb : Closes b) : Closes (a ++ b) := by
  intro d hd
  obtain ⟨hframes, hcurrent⟩ := ha d hd
  obtain ⟨hframes', hcurrent'⟩ := hb (d.after a) ((Depth.inPath_congr hframes).trans hd)
  rw [Depth.after_append]
  exact ⟨hframes'.trans hframes, hcurrent'.trans hcurrent⟩

theorem Closes.unmarked (h : log.all isUnmarked = true) : Closes log :=
  (Deepens.unmarked h).closes

end Closing

/-! ## Room -/

/-- Outside of paths there is room for the log: it is not deeper by more levels. -/
def Fits (room : Nat) (log : List Token) : Prop :=
  ∃ d : Depth, d.inPath = false ∧ d.current ≤ d.deepest ∧
    (d.after log).deepest ≤ d.current + room

section Room

variable {a b log : List Token} {k room : Nat}

theorem fits_of_pathDepth (h : pathDepth log ≤ room) : Fits room log :=
  ⟨.zero, rfl, Nat.le_refl _, by simpa [Depth.zero, pathDepth, Depth.after] using h⟩

theorem Fits.mono (h : Fits room log) {more : Nat} (hle : room ≤ more) : Fits more log := by
  obtain ⟨d, hd, hsound, hdeep⟩ := h
  exact ⟨d, hd, hsound, by omega⟩

theorem Fits.left (h : Fits room (a ++ b)) : Fits room a := by
  obtain ⟨d, hd, hsound, hdeep⟩ := h
  rw [Depth.after_append] at hdeep
  exact ⟨d, hd, hsound, Nat.le_trans (Depth.deepest_le_after _ b) hdeep⟩

theorem Fits.right (h : Fits room (a ++ b)) (ha : Closes a) : Fits room b := by
  obtain ⟨d, hd, hsound, hdeep⟩ := h
  obtain ⟨hframes, hcurrent⟩ := ha d hd
  rw [Depth.after_append] at hdeep
  refine ⟨d.after a, (Depth.inPath_congr hframes).trans hd, Depth.current_le_after a hsound, ?_⟩
  rwa [hcurrent]

/-- A log with a depth has no less room. -/
theorem Deepens.le_of_fits (h : Deepens k log) (hfits : Fits room log) : k ≤ room := by
  obtain ⟨d, hd, hsound, hdeep⟩ := hfits
  rw [h d hd hsound] at hdeep
  simp only at hdeep
  omega

end Room

end TokenLog

/-! ## Pieces of paths -/

theorem Rule.Repeated.append {α : Type} {A : ListSet α} {a b : List α} (ha : Repeated A a)
    (hb : Repeated A b) : Repeated A (a ++ b) := by
  obtain ⟨parts, rfl, hparts⟩ := ha
  obtain ⟨more, rfl, hmore⟩ := hb
  exact ⟨parts ++ more, by simp, List.forall_mem_append.mpr ⟨hparts, hmore⟩⟩

theorem Rule.Repeated.one {α : Type} {A : ListSet α} {a : List α} (h : A a) : Repeated A a := by
  simpa using Repeated.cons h (Repeated.nil A)

namespace Path

/-- A piece of the log of a path. -/
inductive Piece (inner : LogSet) : LogSet
  | word (value : String) (p : Nat) : Piece inner [⟨.word, value, p⟩]
  | transitive (p : Nat) : Piece inner [⟨.marker .transitive, "", p⟩]
  | limited (value : String) (p q : Nat) :
    Piece inner [⟨.marker .transitive, "", p⟩, ⟨.number, value, q⟩]
  | block {log : List Token} (h : inner log) (p q : Nat) :
    Piece inner (⟨.marker .whereStart, "", p⟩ :: (log ++ [⟨.marker .whereEnd, "", q⟩]))
  | condition {word : String} {quantifier : Quantifier} {log : List Token}
    (hword : Quantifier.ofKeyword? word = some quantifier) (h : inner log) (p p' q : Nat) :
    Piece inner (⟨.keyword, word, p⟩ :: ⟨.marker .whereStart, "", p'⟩ ::
      (log ++ [⟨.marker .whereEnd, "", q⟩]))
  | quantStart {word : String} {quantifier : Quantifier}
    (hword : Quantifier.ofKeyword? word = some quantifier) (p p' : Nat) :
    Piece inner [⟨.keyword, word, p⟩, ⟨.marker .quantStart, "", p'⟩]
  | quantEnd (p : Nat) : Piece inner [⟨.marker .quantEnd, "", p⟩]

section Grammar

variable {lang : Part → LogSet} {inner : LogSet}

theorem pieces_body (hsegment : ∀ log, lang .segment log → Repeated (Piece inner) log)
    (hstep : ∀ log, lang .step log → Repeated (Piece inner) log) :
    ∀ log, PathBody lang log → Repeated (Piece inner) log := by
  intro log hlog
  obtain ⟨first, more, rfl, hfirst, hmore⟩ := hlog
  refine (hsegment first hfirst).append ?_
  exact hmore.induction (.nil _) fun step rest h hrest => (hstep step h).append hrest

theorem pieces_quantifiedPath (hbody : ∀ log, PathBody lang log → Repeated (Piece inner) log) :
    ∀ log, Produces lang quantifiedPath log → Repeated (Piece inner) log := by
  intro log hlog
  rw [produces_quantifiedPath] at hlog
  obtain ⟨_, _, rfl, ⟨word, hmem, p, rfl⟩, _, _, rfl, ⟨p', rfl⟩, body, _, rfl, hpath, q, rfl⟩ := hlog
  obtain ⟨quantifier, hword, -⟩ := quantifier_of_word hmem
  have hinside : Repeated (Piece inner) (body ++ [⟨.marker .quantEnd, "", q⟩]) :=
    (hbody body hpath).append (.one (.quantEnd q))
  have hall : Repeated (Piece inner) ([⟨.keyword, word, p⟩, ⟨.marker .quantStart, "", p'⟩] ++
      (body ++ [⟨.marker .quantEnd, "", q⟩])) := Repeated.cons (.quantStart hword p p') hinside
  exact hall

variable (hfilter : ∀ log, lang .filter log → inner log)
include hfilter

theorem piece_whereBlock : ∀ log, Produces lang whereBlock log → Piece inner log := by
  intro log hlog
  rw [produces_whereBlock] at hlog
  obtain ⟨_, _, rfl, ⟨p, rfl⟩, block, _, rfl, hblock, q, rfl⟩ := hlog
  exact .block (hfilter block hblock) p q

theorem piece_conditionBlock : ∀ log, Produces lang conditionBlock log → Piece inner log := by
  intro log hlog
  rw [produces_conditionBlock] at hlog
  obtain ⟨_, _, rfl, ⟨word, hmem, p, rfl⟩, _, _, rfl, ⟨p', rfl⟩, block, _, rfl, hblock, q, rfl⟩ :=
    hlog
  obtain ⟨quantifier, hword, -⟩ := quantifier_of_word hmem
  exact .condition hword (hfilter block hblock) p p' q

theorem pieces_namedSegment :
    ∀ log, Produces lang namedSegment log → Repeated (Piece inner) log := by
  intro log hlog
  rw [produces_namedSegment] at hlog
  obtain ⟨_, _, rfl, ⟨value, p, rfl⟩, mark, blocks, rfl, hmark, hblocks⟩ := hlog
  refine Repeated.cons (.word value p) (Repeated.append ?_ ?_)
  · rcases hmark with rfl | hmark
    · exact .nil _
    · rw [produces_transitiveMark] at hmark
      obtain ⟨_, _, rfl, ⟨p, rfl⟩, rfl | ⟨limit, q, rfl⟩⟩ := hmark
      · exact .one (.transitive p)
      · exact .one (.limited limit p q)
  · refine hblocks.induction (.nil _) fun block rest h hrest => ?_
    exact Repeated.cons (piece_whereBlock hfilter block h) hrest

end Grammar

/-- The logs of filters that nest to fewer levels. -/
def FilterBelow (n : Nat) : LogSet :=
  fun log => ∃ m < n, Generates Part.body m .filter log

theorem FilterBelow.filterLog {n : Nat} {log : List Token} (h : FilterBelow n log) :
    FilterLog log := by
  obtain ⟨m, -, h⟩ := h
  exact ⟨m, h⟩

/-- The logs of segments and steps are pieces one after another. -/
theorem pieces_of_generates (limit : Nat) : ∀ n ≤ limit,
    (∀ log, Generates Part.body n .segment log → Repeated (Piece (FilterBelow limit)) log) ∧
      ∀ log, Generates Part.body n .step log → Repeated (Piece (FilterBelow limit)) log := by
  intro n
  induction n with
  | zero => exact fun _ => ⟨fun _ h => h.elim, fun _ h => h.elim⟩
  | succ n ih =>
    intro hn
    have hfilter : ∀ log, Generates Part.body n .filter log → FilterBelow limit log :=
      fun log h => ⟨n, hn, h⟩
    obtain ⟨hsegment, hstep⟩ := ih (Nat.le_of_succ_le hn)
    refine ⟨fun log hlog => ?_, fun log hlog => ?_⟩
    · rcases (produces_segment _ log).mp hlog with hlog | hlog
      · exact pieces_quantifiedPath (pieces_body hsegment hstep) log hlog
      · exact pieces_namedSegment hfilter log hlog
    · rcases (produces_step _ log).mp hlog with hlog | hlog | hlog | hlog
      · exact .one (piece_whereBlock hfilter log hlog)
      · exact pieces_quantifiedPath (pieces_body hsegment hstep) log hlog
      · exact .one (piece_conditionBlock hfilter log hlog)
      · exact pieces_namedSegment hfilter log hlog

theorem pieces_of_pathBody {n : Nat} {log : List Token}
    (h : PathBody (Generates Part.body n) log) : Repeated (Piece (FilterBelow n)) log :=
  pieces_body (pieces_of_generates n n (Nat.le_refl n)).1
    (pieces_of_generates n n (Nat.le_refl n)).2 log h

end Path

end LinkQuery
