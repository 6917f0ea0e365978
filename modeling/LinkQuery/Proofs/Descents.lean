import LinkQuery.Proofs.Depths
import LinkQuery.Proofs.Rollback
/-!
# Ways down into a filter

Building a filter goes down along its paths and into the filters inside their segments, which are
read from their own logs. Each segment on the way is a level, with those in front of it on its path,
and so is each filter that is entered. The depth of a log is the deepest level of any way down, so a
limit on the depth of the flat log is a limit on how far building it goes down.

Main statements:
- `Filter.Descends.le_pathDepth`: no way goes farther down than the log is deep.
- `Filter.descends_or_refused`: some way does, unless it ends in a filter that is refused.
- `Filter.pathDepth_greatest`: both, for the log of every text that the grammar accepts.
-/
namespace LinkQuery

open Rule Language
open TokenLog (pathDepth)

/-! ## Refused logs -/

/-- Why reading elements refuses a log: it does not for other reasons, except as one that no grammar
produces. -/
def QueryError.IsOfReading (why : QueryError) : Prop :=
  (∃ text, why = .invalid (.transitiveDepth text)) ∨
    (∃ link, why = .invalid (.repeatedCondition link)) ∨ ∃ cause, why = .internal cause

theorem Path.segmentsFrom_error {frames : List Frame} {read : List Segment} {tokens : List Token}
    {why : QueryError} (h : segmentsFrom frames read tokens = .error why) : why.IsOfReading := by
  fun_induction segmentsFrom frames read tokens <;>
    grind [internal, invalid, depthLimit, QueryError.IsOfReading]

theorem Path.read_error {tokens : List Token} {why : QueryError}
    (h : Path.read tokens = .error why) : why.IsOfReading := by
  unfold Path.read at h
  split at h
  · rename_i hsegments
    obtain rfl := Except.error.inj h
    exact segmentsFrom_error hsegments
  · split at h
    · obtain rfl := Except.error.inj h
      exact Or.inr (Or.inr ⟨_, rfl⟩)
    · cases h

theorem Element.collect_error {form : LogForm} {calls : List Bool} {done : List Element}
    {tokens : List Token} {why : QueryError} (h : collect form calls done tokens = .error why) :
    why.IsOfReading := by
  fun_induction collect form calls done tokens with
  | case1 => cases h
  | case2 calls done t rest hstart why' hread =>
    obtain rfl := Except.error.inj h
    exact Path.read_error hread
  | case3 calls done t rest hstart p after hread ih => exact ih h
  | case4 =>
    obtain rfl := Except.error.inj h
    exact Or.inr (Or.inr ⟨_, rfl⟩)
  | case5 calls done t rest hstart his m after hnull ih => exact ih h
  | case6 calls done t rest hstart his ih => exact ih h

/-! ## Ways down -/

namespace Filter

open Element (ofTokens)

/-- A way down from a filter enters a filter at a level. The filters and conditions of a segment are
entered one level below it, and a segment counts with those in front of it. -/
inductive Enters : List Token → Nat → List Token → Prop
  | here {log : List Token} : Enters log 0 log
  | inside {log inner last : List Token} {es : List Element} {path : Path} {segment : Segment}
    {i n : Nat} (hread : ofTokens .filter log = .ok es) (hpath : .path path ∈ es)
    (hsegment : path.segments[i]? = some segment) (hinner : inner ∈ segment.logs)
    (h : Enters inner n last) : Enters log (i + 1 + 1 + n) last

/-- A way down from a filter reaches a level: it ends in a filter or at a segment of a path in it. -/
inductive Descends (log : List Token) : Nat → Prop
  | filter {last : List Token} {n : Nat} (h : Enters log n last) : Descends log n
  | segment {last : List Token} {es : List Element} {path : Path} {i n : Nat}
    (h : Enters log n last) (hread : ofTokens .filter last = .ok es) (hpath : .path path ∈ es)
    (hsegment : i < path.segments.length) : Descends log (n + (i + 1))

/-- Reading the elements of the filter refuses a limit on the steps along a link, or a second
condition on a segment. -/
def IsRefused (log : List Token) : Prop :=
  (∃ text, ofTokens .filter log = invalid (.transitiveDepth text)) ∨
    ∃ link, ofTokens .filter log = invalid (.repeatedCondition link)

section Descents

variable {n k : Nat} {log last inner : List Token} {es : List Element} {path : Path}
  {segment : Segment} {i : Nat}

/-- Reading the elements of a filter gives elements or refuses the log: it is one of the grammar. -/
theorem elements_yield (h : Path.FilterLog log) : Yields (fun _ => True) (ofTokens .filter log) := by
  -- What the elements are depends on no schema and no clock.
  let scope : Scope := ⟨.empty, ⟨.utc, "UTC", ⟨0, 0, 0⟩⟩⟩
  let nested : Nested := fun _ _ => .error .overflow
  have hnested : nested.Builds scope.schema (fun _ => True) (Path.InnerLog log.length) :=
    fun _ _ _ => trivial
  obtain ⟨v, hv⟩ : ∃ v, Derivation (termTree scope nested "") .disjunction log v :=
    derivation_of_filterLog h
  rcases buildWith_derivation scope.clock.shows_any hnested hv with
    ⟨why, hwhy, helements, -⟩ | ⟨⟨es, helements⟩, -⟩
  · rw [helements]
    exact hwhy
  · rw [helements]
    trivial

theorem isRefused_of_error {why : QueryError} (h : Path.FilterLog log)
    (hread : ofTokens .filter log = .error why) : IsRefused log := by
  have hrefusal := elements_yield h
  rw [hread] at hrefusal
  rcases Element.collect_error hread with ⟨text, rfl⟩ | ⟨link, rfl⟩ | ⟨cause, rfl⟩
  · exact Or.inl ⟨text, hread⟩
  · exact Or.inr ⟨link, hread⟩
  · exact hrefusal.elim

/-! ### No way goes farther down -/

theorem depthInside_le (hlog : Generates Part.body n .filter log)
    (hread : ofTokens .filter log = .ok es) (hpath : .path path ∈ es)
    (hsegment : path.segments[i]? = some segment) :
    i + 1 + segment.depthInside ≤ pathDepth log := by
  rw [pathDepth_eq hlog hread]
  exact (Path.le_deepest hsegment).trans (Element.deepest_path_le hpath)

/-- What is entered goes no farther down than the log in front of it. -/
theorem Enters.le_pathDepth (h : Enters log k last) (hlog : Path.FilterLog log) :
    Path.FilterLog last ∧ k + pathDepth last ≤ pathDepth log := by
  induction h with
  | here => exact ⟨hlog, by omega⟩
  | @inside log inner last es path segment i k hread hpath hsegment hinner _ ih =>
    obtain ⟨n, hlog⟩ := hlog
    have hbelow := logs_below hlog hread hpath (List.mem_of_getElem? hsegment) hinner
    obtain ⟨hlast, hinside⟩ := ih hbelow.filterLog
    have hlevels := depthInside_le hlog hread hpath hsegment
    have hfilters := Path.lt_depthInside hinner
    exact ⟨hlast, by omega⟩

theorem Descends.le_pathDepth (h : Descends log k) (hlog : Path.FilterLog log) :
    k ≤ pathDepth log := by
  cases h with
  | filter h =>
    obtain ⟨-, hlevels⟩ := h.le_pathDepth hlog
    omega
  | @segment last es path i n h hread hpath hsegment =>
    obtain ⟨⟨m, hlast⟩, hlevels⟩ := h.le_pathDepth hlog
    have hinside := depthInside_le hlast hread hpath (List.getElem?_eq_getElem hsegment)
    omega

/-! ### Some way goes as far down -/

theorem Descends.inside (hread : ofTokens .filter log = .ok es) (hpath : .path path ∈ es)
    (hsegment : path.segments[i]? = some segment) (hinner : inner ∈ segment.logs)
    (h : Descends inner k) : Descends log (i + 1 + 1 + k) := by
  cases h with
  | filter h => exact .filter (.inside hread hpath hsegment hinner h)
  | segment h hread' hpath' hsegment' =>
    rw [← Nat.add_assoc]
    exact .segment (.inside hread hpath hsegment hinner h) hread' hpath' hsegment'

/-- Some way down follows the depth of the log to its end, or to a filter that is refused. -/
theorem descends_or_refused (h : Generates Part.body n .filter log) :
    Descends log (pathDepth log) ∨
      ∃ k last, Enters log k last ∧ IsRefused last ∧ pathDepth log = k + pathDepth last := by
  induction n using Nat.strongRecOn generalizing log with
  | ind n ih =>
    cases hread : ofTokens .filter log with
    | error why => exact Or.inr ⟨0, log, .here, isRefused_of_error ⟨n, h⟩ hread, by omega⟩
    | ok es =>
      have hdepth := pathDepth_eq h hread
      by_cases hzero : Element.deepest es = 0
      · rw [hdepth, hzero]
        exact Or.inl (.filter .here)
      obtain ⟨path, hpath, hdeepest⟩ := Element.deepest_attained hzero
      obtain ⟨i, segment, hsegment, hsegments⟩ :=
        Path.deepest_attained (List.cons_ne_nil path.first path.rest)
      have hlevels : pathDepth log = i + 1 + segment.depthInside := by
        rw [hdepth, hdeepest, ← hsegments, Path.segments]
      by_cases hinside : segment.depthInside = 0
      · obtain ⟨hlength, -⟩ := List.getElem?_eq_some_iff.mp hsegment
        have hend : Descends log (0 + (i + 1)) := .segment .here hread hpath hlength
        rw [hlevels, hinside]
        simpa using Or.inl hend
      obtain ⟨inner, hinner, hattained⟩ := Path.depthInside_attained hinside
      obtain ⟨m, hm, hlog⟩ := logs_below h hread hpath (List.mem_of_getElem? hsegment) hinner
      have hstep : pathDepth log = i + 1 + 1 + pathDepth inner := by omega
      rcases ih m hm hlog with hdescends | ⟨k, last, hlast, hrefused, hrest⟩
      · rw [hstep]
        exact Or.inl (hdescends.inside hread hpath hsegment hinner)
      · exact Or.inr ⟨_, last, .inside hread hpath hsegment hinner hlast, hrefused, by omega⟩

/-- The grammar accepts a limit past 32 bits, but no elements are read with it. -/
example : (match Rule.matchAt Part.body ExpressionKind.filter.rule
      (.start "Boss^(4294967296).Name IS NULL".toList 16) with
    | .matched s => match ofTokens .filter s.log.toList with
      | .error (.invalid (.transitiveDepth text)) => some (text, pathDepth s.log.toList)
      | _ => none
    | _ => none) = some ("4294967296", 2) := by decide +kernel

/--
The depth of the log of a filter is the deepest level that a way down into it reaches, or a filter
whose elements are refused lies at the end of the deepest way.
-/
theorem pathDepth_greatest {input : List Char} {maxNesting : Nat} {s : State}
    (h : Rule.matchAt Part.body ExpressionKind.filter.rule (.start input maxNesting) = .matched s) :
    (∀ level, Descends s.log.toList level → level ≤ pathDepth s.log.toList) ∧
      (Descends s.log.toList (pathDepth s.log.toList) ∨
        ∃ level last, Enters s.log.toList level last ∧ IsRefused last ∧
          pathDepth s.log.toList = level + pathDepth last) := by
  have htidy := Rule.matchAt_tidy Part.body ExpressionKind.filter.rule (.start input maxNesting)
  rw [h] at htidy
  obtain ⟨count, tokens, hlog, rfl⟩ := htidy
  have htokens : ((State.start input maxNesting).past count tokens).log.toList = tokens := by
    simp [State.past, State.start]
  rw [htokens]
  exact ⟨fun _ hdown => hdown.le_pathDepth ⟨_, hlog⟩, descends_or_refused hlog⟩

/-- A condition inside a filter on the boss, below the last segment of the path. -/
theorem pathDepth_greatest_boss : ∃ s, Rule.matchAt Part.body ExpressionKind.filter.rule
      (.start "Boss.WHERE(Boss.ANY(Name = 'Ann').Name = 'Bob').Boss.Name IS NULL".toList 16) =
        .matched s ∧
      pathDepth s.log.toList = 5 ∧ (∀ level, Descends s.log.toList level → level ≤ 5) ∧
      (Descends s.log.toList 5 ∨ ∃ level last, Enters s.log.toList level last ∧ IsRefused last ∧
        5 = level + pathDepth last) := by
  have hmatched : (match Rule.matchAt Part.body ExpressionKind.filter.rule
      (.start "Boss.WHERE(Boss.ANY(Name = 'Ann').Name = 'Bob').Boss.Name IS NULL".toList 16) with
      | .matched s => some (pathDepth s.log.toList)
      | _ => none) = some 5 := by decide +kernel
  split at hmatched
  · rename_i s hmatch
    have hdepth := Option.some.inj hmatched
    obtain ⟨hbound, hattained⟩ := pathDepth_greatest hmatch
    rw [hdepth] at hbound hattained
    exact ⟨s, hmatch, hdepth, hbound, hattained⟩
  · cases hmatched

end Descents

end Filter

end LinkQuery
