import LinkQuery.Proofs.AlikePaths
import LinkQuery.Proofs.Elements
import LinkQuery.Proofs.MatchedLogs
/-!
# Filters spelled out

A filter may leave its connectives to be understood: terms side by side are joined by `AND`, and a
comma between alternatives is `OR`. A comparison with `= NULL` is a test for null. Spelled out, a
matched log has a keyword for each of these; the filters inside its paths are spelled out as well.

Main statements:
- `Path.read_spelled`: the path of a matched log is alike when it is spelled out.
- `Element.adds_spelledPath`: so it is as an element, in all places.
-/
namespace LinkQuery

open Rule Language

namespace Rule

/-- The token with an implied `AND`, or a comma between two items of a list, as a keyword. -/
def Matched.spelled (x : Matched) : Token :=
  if x.token.isMarker .impliedAnd then .ofKeyword "AND" x.token.position
  else if x.separates && x.token.isSymbol "," then .ofKeyword "OR" x.token.position
  else x.token

/-- The matched log begins with `NULL`. -/
def beginsNull (m : List Matched) : Bool := m.head?.any (·.token.isKeyword "NULL")

/-- The log of a match with its connectives and its tests for null spelled out. -/
def spelledOut : List Matched → List Token
  | [] => []
  | x :: rest =>
    (if x.token.isSymbol "=" && beginsNull rest then .ofKeyword "IS" x.token.position
      else x.spelled) :: spelledOut rest

@[simp]
theorem spelledOut_nil : spelledOut [] = [] := rfl

theorem spelledOut_length (m : List Matched) : (spelledOut m).length = (logOf m).length := by
  induction m with
  | nil => rfl
  | cons x rest ih => simpa [spelledOut] using ih

theorem beginsNull_append {a b : List Matched} (ha : beginsNull a = false)
    (hb : beginsNull b = false) : beginsNull (a ++ b) = false := by
  cases a with
  | nil => exact hb
  | cons x a => exact ha

theorem spelledOut_cons {x : Matched} (hx : x.token.isSymbol "=" = false) (m : List Matched) :
    spelledOut (x :: m) = x.spelled :: spelledOut m := by
  simp [spelledOut, hx]

/-- Logs in order are spelled out in order, unless the second one begins with `NULL`. -/
theorem spelledOut_append (a : List Matched) {b : List Matched} (hb : beginsNull b = false) :
    spelledOut (a ++ b) = spelledOut a ++ spelledOut b := by
  induction a with
  | nil => rfl
  | cons x a ih =>
    have hnext : beginsNull (a ++ b) = beginsNull a := by
      cases a with
      | nil => exact hb
      | cons y a => rfl
    simp only [List.cons_append, spelledOut, hnext, ih]

/-- The token is spelled out as it stands. -/
def isSpelled (t : Token) : Bool := !t.isSymbol "=" && !t.isMarker .impliedAnd

theorem spelled_of_isSpelled {t : Token} (h : isSpelled t = true) :
    Matched.spelled ⟨t, false⟩ = t := by
  simp only [isSpelled, Bool.and_eq_true, Bool.not_eq_true'] at h
  simp [Matched.spelled, h.2]

/-- A token that is spelled out, in front of a log. -/
theorem spelledOut_spelled {t : Token} (h : isSpelled t = true) (m : List Matched) :
    spelledOut (⟨t, false⟩ :: m) = t :: spelledOut m := by
  have hequals : t.isSymbol "=" = false := by
    simp only [isSpelled, Bool.and_eq_true, Bool.not_eq_true'] at h
    exact h.1
  rw [spelledOut_cons hequals, spelled_of_isSpelled h]

/-- A token that is spelled out, between two logs. -/
theorem spelledOut_between {t : Token} (h : isSpelled t = true) (hnull : t.isKeyword "NULL" = false)
    (a b : List Matched) :
    spelledOut (a ++ ⟨t, false⟩ :: b) = spelledOut a ++ t :: spelledOut b := by
  rw [spelledOut_append a (b := ⟨t, false⟩ :: b) hnull, spelledOut_spelled h]

/-- A log between two tokens that are spelled out. -/
theorem spelledOut_enclosed {t u : Token} (ht : isSpelled t = true) (hu : isSpelled u = true)
    (hnull : u.isKeyword "NULL" = false) (m : List Matched) :
    spelledOut (unseparated [t] ++ (m ++ unseparated [u])) = t :: (spelledOut m ++ [u]) :=
  (spelledOut_spelled ht _).trans (congrArg _ (spelledOut_between hu hnull m []))

theorem spelledOut_unseparated {log : List Token} (h : ∀ t ∈ log, isSpelled t = true) :
    spelledOut (unseparated log) = log := by
  induction log with
  | nil => rfl
  | cons t log ih =>
    simp only [List.mem_cons, forall_eq_or_imp] at h
    exact (spelledOut_spelled h.1 _).trans (congrArg _ (ih h.2))

/-- Without `NULL` and implied connectives, a log is spelled out as it stands. -/
theorem spelledOut_withoutNull {log : List Token}
    (h : ∀ t ∈ log, t.isKeyword "NULL" = false ∧ t.isMarker .impliedAnd = false) :
    spelledOut (unseparated log) = log := by
  induction log with
  | nil => rfl
  | cons t log ih =>
    simp only [List.mem_cons, forall_eq_or_imp] at h
    have hnext : beginsNull (unseparated log) = false := by
      cases log with
      | nil => rfl
      | cons x log => exact (h.2 x List.mem_cons_self).1
    have hone : Matched.spelled ⟨t, false⟩ = t := by simp [Matched.spelled, h.1.2]
    have hlog := ih h.2
    simp only [unseparated] at hnext hlog
    simp [spelledOut, unseparated, hnext, hone, hlog]

end Rule

/-! ## The matched logs of paths -/

section Shapes

variable (lang : Part → ListSet Matched)

/-- The matched logs of a segment and the steps behind it. -/
def Language.MatchedBody : ListSet Matched :=
  Chained (lang .segment) (Repeated (lang .step))

theorem matches_path : Matches lang path =
    Chained (Lone (.marker .pathStart) "")
      (Chained (MatchedBody lang) (Lone (.marker .pathEnd) "")) := by
  simp [path, MatchedBody, Matches, MatchesAll, chained_assoc]

theorem matches_quantifiedPath : Matches lang quantifiedPath =
    Chained (LoneKeyword quantifierWords) (Chained (Lone (.marker .quantStart) "")
      (Chained (MatchedBody lang) (Lone (.marker .quantEnd) ""))) := by
  simp [quantifiedPath, MatchedBody, Matches, MatchesAll, chained_assoc]

theorem matches_whereBlock : Matches lang whereBlock =
    Chained (Lone (.marker .whereStart) "")
      (Chained (lang .filter) (Lone (.marker .whereEnd) "")) := by
  simp [whereBlock, Matches, MatchesAll]

theorem matches_conditionBlock : Matches lang conditionBlock =
    Chained (LoneKeyword quantifierWords) (Matches lang whereBlock) := by
  rw [matches_whereBlock]
  simp [conditionBlock, Matches, MatchesAll]

theorem matches_namedSegment : Matches lang namedSegment =
    Chained (fun m => ∃ value, Lone .word value m)
      (Chained (fun m => m = [] ∨ Matches lang transitiveMark m)
        (Repeated (Matches lang whereBlock))) := by
  simp [namedSegment, Matches, MatchesAll]

theorem matches_segment (m : List Matched) : Matches lang Language.segment m ↔
    Matches lang quantifiedPath m ∨ Matches lang namedSegment m := by
  simp [Language.segment, Matches, MatchesAny]

theorem matches_step (m : List Matched) : Matches lang Language.step m ↔
    Matches lang whereBlock m ∨ Matches lang quantifiedPath m ∨
      Matches lang conditionBlock m ∨ Matches lang namedSegment m := by
  simp [Language.step, ahead, Matches, MatchesAny, MatchesAll]

end Shapes

/-! ## Reading paths twice -/

namespace Path

/-- Reading the tokens leads from some segments to others, or refuses them. -/
def Walks (frames : List Frame) (read : List Segment) (tokens : List Token)
    (r : Except InvalidCause (List Segment)) : Prop :=
  ∀ rest, NoNumberFirst rest → segmentsFrom frames read (tokens ++ rest) =
    match r with
    | .error cause => invalid cause
    | .ok next => segmentsFrom frames next rest

namespace Walks

variable {frames : List Frame} {read next : List Segment} {a b : List Token}
  {r : Except InvalidCause (List Segment)} {cause : InvalidCause}

theorem append (ha : Walks frames read a (.ok next)) (hb : Walks frames next b r)
    (hquiet : NoNumberFirst b) : Walks frames read (a ++ b) r := by
  intro rest hrest
  rw [List.append_assoc, ha _ (hquiet.append hrest)]
  exact hb rest hrest

theorem refused (ha : Walks frames read a (.error cause)) (hquiet : NoNumberFirst b) :
    Walks frames read (a ++ b) (.error cause) := by
  intro rest hrest
  rw [List.append_assoc, ha _ (hquiet.append hrest)]

end Walks

variable {R : List Token → List Token → Prop}

/-- Both logs lead from segments that are alike to segments that are alike, or are refused alike;
`started` says whether there has to be a segment in front. -/
def Pairs (R : List Token → List Token → Prop) (started : Bool) (a b : List Token) : Prop :=
  ∀ frames frames' read read', List.Forall₂ (Segment.Alike R) read read' →
    (started = true → read ≠ []) →
    (∃ cause, Walks frames read a (.error cause) ∧ Walks frames' read' b (.error cause)) ∨
      ∃ next next', List.Forall₂ (Segment.Alike R) next next' ∧ next ≠ [] ∧
        Walks frames read a (.ok next) ∧ Walks frames' read' b (.ok next')

/-- A matched log inside a path: as it is and spelled out, it is read alike. -/
structure Respells (R : List Token → List Token → Prop) (started : Bool) (m : List Matched) :
    Prop where
  quiet : NoNumberFirst (logOf m)
  quietSpelled : NoNumberFirst (spelledOut m)
  noNull : beginsNull m = false
  balanced : Block.Balanced (spelledOut m)
  pairs : Pairs R started (logOf m) (spelledOut m)

/-- A filter inside a path: its log is balanced, also spelled out, and related to that. -/
structure Filters (R : List Token → List Token → Prop) (m : List Matched) : Prop where
  related : R (logOf m) (spelledOut m)
  balanced : Block.Balanced (logOf m)
  balancedSpelled : Block.Balanced (spelledOut m)

namespace Respells

variable {started : Bool} {m a b : List Matched}

theorem append (ha : Respells R started a) (hb : Respells R true b) :
    Respells R started (a ++ b) := by
  have hspelled := spelledOut_append a hb.noNull
  refine ⟨?_, ?_, beginsNull_append ha.noNull hb.noNull, ?_, ?_⟩
  · rw [logOf_append]
    exact ha.quiet.append hb.quiet
  · rw [hspelled]
    exact ha.quietSpelled.append hb.quietSpelled
  · rw [hspelled]
    exact ha.balanced.append hb.balanced
  · intro frames frames' read read' hread hstarted
    rw [logOf_append, hspelled]
    rcases ha.pairs frames frames' read read' hread hstarted with
      ⟨cause, h, h'⟩ | ⟨next, next', hnext, hne, h, h'⟩
    · exact Or.inl ⟨cause, h.refused hb.quiet, h'.refused hb.quietSpelled⟩
    · rcases hb.pairs frames frames' next next' hnext fun _ => hne with
        ⟨cause, hmore, hmore'⟩ | ⟨last, last', hlast, hne, hmore, hmore'⟩
      · exact Or.inl ⟨cause, h.append hmore hb.quiet, h'.append hmore' hb.quietSpelled⟩
      · exact Or.inr ⟨last, last', hlast, hne, h.append hmore hb.quiet,
          h'.append hmore' hb.quietSpelled⟩

theorem nil : Respells R true [] := by
  refine ⟨by simp [NoNumberFirst], by simp [NoNumberFirst], rfl, Block.Balanced.nil, ?_⟩
  intro frames frames' read read' hread hstarted
  exact Or.inr ⟨read, read', hread, hstarted rfl, fun _ _ => rfl, fun _ _ => rfl⟩

/-- Tokens that are spelled out and that lead from segments that are alike to segments that are
alike, or are refused alike. -/
theorem tokens {t : Token} {more : List Token} (hspelled : ∀ x ∈ t :: more, isSpelled x = true)
    (hnumber : t.kind ≠ .number) (hnull : t.isKeyword "NULL" = false)
    (hflat : ∀ x ∈ t :: more, x.isMarker .whereStart = false ∧ x.isMarker .whereEnd = false)
    (hpairs : Pairs R started (t :: more) (t :: more)) :
    Respells R started (unseparated (t :: more)) := by
  have hsame := spelledOut_unseparated hspelled
  have hquiet : NoNumberFirst (t :: more) := by
    rintro _ ⟨⟩
    exact hnumber
  have hbalanced : ∀ log : List Token, (∀ x ∈ log, x.isMarker .whereStart = false ∧
      x.isMarker .whereEnd = false) → Block.Balanced log := by
    intro log hlog
    induction log with
    | nil => exact Block.Balanced.nil
    | cons x log ih =>
      simp only [List.mem_cons, forall_eq_or_imp] at hlog
      exact (Block.Balanced.token hlog.1.1 hlog.1.2).append (ih hlog.2)
  refine ⟨?_, ?_, hnull, ?_, ?_⟩
  · rwa [logOf_unseparated]
  · rwa [hsame]
  · rw [hsame]
    exact hbalanced _ hflat
  · rwa [logOf_unseparated, hsame]

theorem word (value : String) (p : Nat) :
    Respells R started (unseparated [⟨.word, value, p⟩]) := by
  refine tokens (by simp; rfl) (by simp) rfl (by simp; exact ⟨rfl, rfl⟩) ?_
  intro frames frames' read read' hread _
  exact Or.inr ⟨_, _, .cons (Segment.Alike.named value p) hread, by simp,
    fun rest _ => segmentsFrom_word frames read rest value p,
    fun rest _ => segmentsFrom_word frames' read' rest value p⟩

theorem transitive (p : Nat) :
    Respells R true (unseparated [⟨.marker .transitive, "", p⟩]) := by
  refine tokens (by simp; rfl) (by simp) rfl (by simp; exact ⟨rfl, rfl⟩) ?_
  intro frames frames' read read' hread hstarted
  cases hread with
  | nil => exact absurd rfl (hstarted rfl)
  | cons hlast hbefore =>
    exact Or.inr ⟨_, _, .cons (hlast.repeated none) hbefore, by simp,
      fun rest hrest => segmentsFrom_transitive frames _ _ rest p hrest,
      fun rest hrest => segmentsFrom_transitive frames' _ _ rest p hrest⟩

theorem limited (value : String) (p q : Nat) :
    Respells R true (unseparated [⟨.marker .transitive, "", p⟩, ⟨.number, value, q⟩]) := by
  refine tokens (by simp; exact ⟨rfl, rfl⟩) (by simp) rfl
    (by simp; exact ⟨⟨rfl, rfl⟩, rfl, rfl⟩) ?_
  intro frames frames' read read' hread hstarted
  cases hread with
  | nil => exact absurd rfl (hstarted rfl)
  | cons hlast hbefore =>
    cases hlimit : Text.unsigned? 32 value with
    | none =>
      exact Or.inl ⟨.transitiveDepth value,
        fun rest _ => segmentsFrom_badLimit frames _ _ rest p q hlimit,
        fun rest _ => segmentsFrom_badLimit frames' _ _ rest p q hlimit⟩
    | some limit =>
      exact Or.inr ⟨_, _, .cons (hlast.repeated (some limit)) hbefore, by simp,
        fun rest _ => segmentsFrom_limit frames _ _ rest p q hlimit,
        fun rest _ => segmentsFrom_limit frames' _ _ rest p q hlimit⟩

theorem spelledOut_block (p q : Nat) (m : List Matched) :
    spelledOut (unseparated [⟨.marker .whereStart, "", p⟩] ++
        (m ++ unseparated [⟨.marker .whereEnd, "", q⟩])) =
      ⟨.marker .whereStart, "", p⟩ :: (spelledOut m ++ [⟨.marker .whereEnd, "", q⟩]) :=
  spelledOut_enclosed rfl rfl rfl m

theorem block (h : Filters R m) (p q : Nat) :
    Respells R true (unseparated [⟨.marker .whereStart, "", p⟩] ++
      (m ++ unseparated [⟨.marker .whereEnd, "", q⟩])) := by
  have hlog : logOf (unseparated [⟨.marker .whereStart, "", p⟩] ++
      (m ++ unseparated [⟨.marker .whereEnd, "", q⟩])) =
      ⟨.marker .whereStart, "", p⟩ :: (logOf m ++ [⟨.marker .whereEnd, "", q⟩]) := by simp
  refine ⟨?_, ?_, rfl, ?_, ?_⟩
  · simp [NoNumberFirst, hlog]
  · simp [NoNumberFirst, spelledOut_block]
  · rw [spelledOut_block]
    exact h.balancedSpelled.block p q
  · intro frames frames' read read' hread hstarted
    rw [hlog, spelledOut_block]
    cases hread with
    | nil => exact absurd rfl (hstarted rfl)
    | cons hlast hbefore =>
      refine Or.inr ⟨_, _, .cons (hlast.filteredBy h.related) hbefore, by simp,
        fun rest _ => ?_, fun rest _ => ?_⟩
      · rw [List.cons_append, List.append_assoc, List.singleton_append]
        exact segmentsFrom_block frames _ _ rest p (Block.take?_balanced h.balanced q rest)
      · rw [List.cons_append, List.append_assoc, List.singleton_append]
        exact segmentsFrom_block frames' _ _ rest p (Block.take?_balanced h.balancedSpelled q rest)

/-- No quantifier is `NULL`. -/
theorem quantifier_not_null {word : String} (hword : word ∈ quantifierWords) (p : Nat) :
    (⟨.keyword, word, p⟩ : Token).isKeyword "NULL" = false := by
  have hwords : quantifierWords.all (· != "NULL") = true := by decide
  have hnull : word ≠ "NULL" := by simpa using List.all_eq_true.mp hwords word hword
  simp [Token.isKeyword, hnull]

theorem condition {word : String} (hword : word ∈ quantifierWords) (h : Filters R m)
    (p p' q : Nat) :
    Respells R true (unseparated [⟨.keyword, word, p⟩] ++
      (unseparated [⟨.marker .whereStart, "", p'⟩] ++
        (m ++ unseparated [⟨.marker .whereEnd, "", q⟩]))) := by
  obtain ⟨quantifier, hquantifier, -⟩ := quantifier_of_word hword
  have hlog : logOf (unseparated [⟨.keyword, word, p⟩] ++
      (unseparated [⟨.marker .whereStart, "", p'⟩] ++
        (m ++ unseparated [⟨.marker .whereEnd, "", q⟩]))) =
      ⟨.keyword, word, p⟩ :: ⟨.marker .whereStart, "", p'⟩ ::
        (logOf m ++ [⟨.marker .whereEnd, "", q⟩]) := by simp
  have hspelled : spelledOut (unseparated [⟨.keyword, word, p⟩] ++
      (unseparated [⟨.marker .whereStart, "", p'⟩] ++
        (m ++ unseparated [⟨.marker .whereEnd, "", q⟩]))) =
      ⟨.keyword, word, p⟩ :: ⟨.marker .whereStart, "", p'⟩ ::
        (spelledOut m ++ [⟨.marker .whereEnd, "", q⟩]) :=
    (spelledOut_spelled rfl _).trans (congrArg _ (spelledOut_block p' q m))
  refine ⟨?_, ?_, quantifier_not_null hword p, ?_, ?_⟩
  · simp [NoNumberFirst, hlog]
  · simp [NoNumberFirst, hspelled]
  · rw [hspelled]
    exact (Block.Balanced.token rfl rfl).append (h.balancedSpelled.block p' q)
  · intro frames frames' read read' hread hstarted
    rw [hlog, hspelled]
    cases hread with
    | nil => exact absurd rfl (hstarted rfl)
    | @cons last last' before before' hlast hbefore =>
      have hstep := fun rest => segmentsFrom_condition frames before last rest p p' hquantifier
        (Block.take?_balanced h.balanced q rest)
      have hstep' := fun rest => segmentsFrom_condition frames' before' last' rest p p' hquantifier
        (Block.take?_balanced h.balancedSpelled q rest)
      by_cases hsecond : last.condition.isSome = true
      · have hsecond' : last'.condition.isSome = true := hlast.condition_isSome.trans hsecond
        refine Or.inl ⟨.repeatedCondition last.name, fun rest _ => ?_, fun rest _ => ?_⟩
        · simpa [hsecond] using hstep rest
        · simpa [hsecond', hlast.name_eq] using hstep' rest
      · have hsecond' : ¬ last'.condition.isSome = true := by rwa [hlast.condition_isSome]
        refine Or.inr ⟨_, _, .cons (hlast.conditioned (c := ⟨quantifier, logOf m⟩)
          (d := ⟨quantifier, spelledOut m⟩) ⟨rfl, h.related⟩) hbefore, by simp,
          fun rest _ => ?_, fun rest _ => ?_⟩
        · simpa [hsecond] using hstep rest
        · simpa [hsecond'] using hstep' rest

theorem quantified {word : String} (hword : word ∈ quantifierWords) (h : Respells R false m)
    (p p' q : Nat) :
    Respells R started (unseparated [⟨.keyword, word, p⟩] ++
      (unseparated [⟨.marker .quantStart, "", p'⟩] ++
        (m ++ unseparated [⟨.marker .quantEnd, "", q⟩]))) := by
  obtain ⟨quantifier, hquantifier, -⟩ := quantifier_of_word hword
  have hlog : logOf (unseparated [⟨.keyword, word, p⟩] ++
      (unseparated [⟨.marker .quantStart, "", p'⟩] ++
        (m ++ unseparated [⟨.marker .quantEnd, "", q⟩]))) =
      ⟨.keyword, word, p⟩ :: ⟨.marker .quantStart, "", p'⟩ ::
        (logOf m ++ [⟨.marker .quantEnd, "", q⟩]) := by simp
  have hspelled : spelledOut (unseparated [⟨.keyword, word, p⟩] ++
      (unseparated [⟨.marker .quantStart, "", p'⟩] ++
        (m ++ unseparated [⟨.marker .quantEnd, "", q⟩]))) =
      ⟨.keyword, word, p⟩ :: ⟨.marker .quantStart, "", p'⟩ ::
        (spelledOut m ++ [⟨.marker .quantEnd, "", q⟩]) :=
    (spelledOut_spelled rfl _).trans (congrArg _ (spelledOut_enclosed rfl rfl rfl m))
  have hend : NoNumberFirst [⟨.marker .quantEnd, "", q⟩] := by simp [NoNumberFirst]
  refine ⟨?_, ?_, quantifier_not_null hword p, ?_, ?_⟩
  · simp [NoNumberFirst, hlog]
  · simp [NoNumberFirst, hspelled]
  · rw [hspelled]
    exact (Block.Balanced.token rfl rfl).append ((Block.Balanced.token rfl rfl).append
      (h.balanced.append (Block.Balanced.token rfl rfl)))
  · intro frames frames' read read' hread _
    rw [hlog, hspelled]
    have hopen : ∀ frames read body rest, segmentsFrom frames read
        ((⟨.keyword, word, p⟩ :: ⟨.marker .quantStart, "", p'⟩ ::
          (body ++ [⟨.marker .quantEnd, "", q⟩])) ++ rest) =
        segmentsFrom (⟨quantifier, read⟩ :: frames) []
          (body ++ (⟨.marker .quantEnd, "", q⟩ :: rest)) := by
      intro frames read body rest
      rw [List.cons_append, List.cons_append, segmentsFrom_quantifier _ _ _ p p' hquantifier,
        List.append_assoc, List.singleton_append]
    have hquiet : ∀ rest, NoNumberFirst (⟨.marker .quantEnd, "", q⟩ :: rest) := by
      simp [NoNumberFirst]
    rcases h.pairs (⟨quantifier, read⟩ :: frames) (⟨quantifier, read'⟩ :: frames') [] [] .nil
      (by simp) with ⟨cause, hinside, hinside'⟩ | ⟨next, next', hnext, hne, hinside, hinside'⟩
    · refine Or.inl ⟨cause, fun rest _ => ?_, fun rest _ => ?_⟩
      · rw [hopen]
        exact hinside _ (hquiet rest)
      · rw [hopen]
        exact hinside' _ (hquiet rest)
    · refine Or.inr ⟨Frame.close ⟨quantifier, read⟩ next, Frame.close ⟨quantifier, read'⟩ next',
        ?_, ?_, fun rest _ => ?_, fun rest _ => ?_⟩
      · refine List.rel_append ?_ hread
        rw [List.forall₂_map_left_iff, List.forall₂_map_right_iff]
        exact hnext.imp fun _ _ hone => hone.quantifiedBy quantifier
      · simp [Frame.close, hne]
      · rw [hopen, hinside _ (hquiet rest)]
        exact segmentsFrom_quantEnd _ _ _ _ q
      · rw [hopen, hinside' _ (hquiet rest)]
        exact segmentsFrom_quantEnd _ _ _ _ q

end Respells

/-! ## The grammar -/

section Parts

variable {lang : Part → ListSet Matched} {started : Bool}

theorem respells_body
    (hsegment : ∀ started m, lang .segment m → Respells R started m)
    (hstep : ∀ m, lang .step m → Respells R true m) :
    ∀ m, MatchedBody lang m → Respells R started m := by
  rintro _ ⟨first, more, rfl, hfirst, hmore⟩
  refine (hsegment started first hfirst).append ?_
  exact hmore.induction Respells.nil fun step rest h hrest => (hstep step h).append hrest

theorem respells_quantifiedPath (hbody : ∀ m, MatchedBody lang m → Respells R false m) :
    ∀ m, Matches lang quantifiedPath m → Respells R started m := by
  intro m hm
  rw [matches_quantifiedPath] at hm
  obtain ⟨_, _, rfl, ⟨word, hword, p, rfl⟩, _, _, rfl, ⟨p', rfl⟩, body, _, rfl, hpath, q, rfl⟩ := hm
  exact Respells.quantified hword (hbody body hpath) p p' q

variable (hfilter : ∀ m, lang .filter m → Filters R m)
include hfilter

theorem respells_whereBlock : ∀ m, Matches lang whereBlock m → Respells R true m := by
  intro m hm
  rw [matches_whereBlock] at hm
  obtain ⟨_, _, rfl, ⟨p, rfl⟩, inside, _, rfl, hinside, q, rfl⟩ := hm
  exact Respells.block (hfilter inside hinside) p q

theorem respells_conditionBlock : ∀ m, Matches lang conditionBlock m → Respells R true m := by
  intro m hm
  rw [matches_conditionBlock, matches_whereBlock] at hm
  obtain ⟨_, _, rfl, ⟨word, hword, p, rfl⟩, _, _, rfl, ⟨p', rfl⟩, inside, _, rfl, hinside, q,
    rfl⟩ := hm
  exact Respells.condition hword (hfilter inside hinside) p p' q

theorem respells_namedSegment : ∀ m, Matches lang namedSegment m → Respells R started m := by
  intro m hm
  rw [matches_namedSegment] at hm
  obtain ⟨_, _, rfl, ⟨value, p, rfl⟩, mark, blocks, rfl, hmark, hblocks⟩ := hm
  refine (Respells.word value p).append (Respells.append ?_ ?_)
  · rcases hmark with rfl | hmark
    · exact Respells.nil
    · simp only [transitiveMark, Matches, MatchesAll, matches_hidden, chained_nil_left,
        chained_nil_right] at hmark
      obtain ⟨_, _, rfl, ⟨p, rfl⟩, rfl | ⟨limit, q, rfl⟩⟩ := hmark
      · exact Respells.transitive p
      · exact Respells.limited limit p q
  · refine hblocks.induction Respells.nil fun block rest h hrest => ?_
    exact (respells_whereBlock hfilter block h).append hrest

end Parts

/-- Segments and steps are read alike when the filters at lower levels are related. -/
theorem respells_of_parses : ∀ n : Nat,
    (∀ k < n, ∀ m, Parses Part.body k .filter m → Filters R m) →
    (∀ started m, Parses Part.body n .segment m → Respells R started m) ∧
      ∀ m, Parses Part.body n .step m → Respells R true m := by
  intro n
  induction n with
  | zero => exact fun _ => ⟨fun _ _ h => h.elim, fun _ h => h.elim⟩
  | succ n ih =>
    intro hfilter
    have hbelow := ih fun k hk => hfilter k (Nat.lt_succ_of_lt hk)
    have hinner := hfilter n (Nat.lt_succ_self n)
    have hbody : ∀ m, MatchedBody (Parses Part.body n) m → Respells R false m :=
      respells_body hbelow.1 hbelow.2
    refine ⟨fun started m hm => ?_, fun m hm => ?_⟩
    · rcases (matches_segment _ m).mp hm with hm | hm
      · exact respells_quantifiedPath hbody m hm
      · exact respells_namedSegment hinner m hm
    · rcases (matches_step _ m).mp hm with hm | hm | hm | hm
      · exact respells_whereBlock hinner m hm
      · exact respells_quantifiedPath hbody m hm
      · exact respells_conditionBlock hinner m hm
      · exact respells_namedSegment hinner m hm

/-- Reading the body of a path as it is and spelled out gives paths that are alike and leaves what
follows, or refuses both. -/
theorem read_spelled {body : List Matched} (h : Respells R false body) (q : Nat) :
    (∃ cause, (∀ rest, read (logOf body ++ ⟨.marker .pathEnd, "", q⟩ :: rest) = invalid cause) ∧
        ∀ rest, read (spelledOut body ++ ⟨.marker .pathEnd, "", q⟩ :: rest) = invalid cause) ∨
      ∃ p p' : Path, p.Alike R p' ∧
        (∀ rest, read (logOf body ++ ⟨.marker .pathEnd, "", q⟩ :: rest) = .ok (p, rest)) ∧
        ∀ rest, read (spelledOut body ++ ⟨.marker .pathEnd, "", q⟩ :: rest) = .ok (p', rest) := by
  have hend : ∀ rest : List Token, NoNumberFirst (⟨.marker .pathEnd, "", q⟩ :: rest) := by
    simp [NoNumberFirst]
  have hread : ∀ {tokens : List Token} {next : List Segment} {first : Segment}
      {more : List Segment}, Walks [] [] tokens (.ok next) → next.reverse = first :: more →
      ∀ rest, read (tokens ++ ⟨.marker .pathEnd, "", q⟩ :: rest) = .ok (⟨first, more⟩, rest) := by
    intro tokens next first more hwalks hnext rest
    simp only [read, hwalks _ (hend rest), segmentsFrom_pathEnd, hnext, ofSegments?]
  rcases h.pairs [] [] [] [] .nil (by simp) with
    ⟨cause, hwalks, hwalks'⟩ | ⟨next, next', hnext, hne, hwalks, hwalks'⟩
  · refine Or.inl ⟨cause, fun rest => ?_, fun rest => ?_⟩
    · rw [read, hwalks _ (hend rest)]
      rfl
    · rw [read, hwalks' _ (hend rest)]
      rfl
  · have hreverse := List.rel_reverse hnext
    obtain ⟨first, more, hfirst⟩ : ∃ first more, next.reverse = first :: more :=
      List.exists_cons_of_ne_nil (by simpa using hne)
    rw [hfirst] at hreverse
    obtain ⟨first', more', hone, hmore, hfirst'⟩ := List.forall₂_cons_left_iff.mp hreverse
    exact Or.inr ⟨⟨first, more⟩, ⟨first', more'⟩, .cons hone hmore, hread hwalks hfirst,
      hread hwalks' hfirst'⟩

end Path

/-! ## Paths as elements -/

namespace Element

/-- The matched log is that of a path, which is read as this one. -/
def IsPathLog (m : List Matched) (p : Path) : Prop :=
  ∃ position body, logOf m = ⟨.marker .pathStart, "", position⟩ :: body ∧
    ∀ rest, Path.read (body ++ rest) = .ok (p, rest)

/-- The log of a path adds a path in all places, and spelled out one that is alike. -/
structure AddsPaths (R : List Token → List Token → Prop) (m : List Matched)
    (r : Except QueryError (Path × Path)) : Prop where
  noNull : beginsNull m = false
  balanced : Block.Balanced (spelledOut m)
  adds : ∀ form calls, Adds form calls (logOf m) (r.map fun found => [.path found.1])
  addsSpelled : ∀ form calls, Adds form calls (spelledOut m) (r.map fun found => [.path found.2])
  alike : Yields (fun found => IsPathLog m found.1 ∧ found.1.Alike R found.2) r

theorem adds_spelledPath {R : List Token → List Token → Prop} {n : Nat} {m : List Matched}
    (hfilter : ∀ k < n, ∀ m, Parses Part.body k .filter m → Path.Filters R m)
    (h : Matches (Parses Part.body n) Language.path m) : ∃ r, AddsPaths R m r := by
  rw [matches_path] at h
  obtain ⟨_, _, rfl, ⟨position, rfl⟩, body, _, rfl, hbody, q, rfl⟩ := h
  obtain ⟨hsegment, hstep⟩ := Path.respells_of_parses n hfilter
  have hbody : Path.Respells R false body := Path.respells_body hsegment hstep body hbody
  have hlog : logOf (unseparated [⟨.marker .pathStart, "", position⟩] ++
      (body ++ unseparated [⟨.marker .pathEnd, "", q⟩])) =
      ⟨.marker .pathStart, "", position⟩ :: (logOf body ++ [⟨.marker .pathEnd, "", q⟩]) := by simp
  have hspelled : spelledOut (unseparated [⟨.marker .pathStart, "", position⟩] ++
      (body ++ unseparated [⟨.marker .pathEnd, "", q⟩])) =
      ⟨.marker .pathStart, "", position⟩ :: (spelledOut body ++ [⟨.marker .pathEnd, "", q⟩]) :=
    spelledOut_enclosed rfl rfl rfl body
  have hbalanced : Block.Balanced (⟨.marker .pathStart, "", position⟩ ::
      (spelledOut body ++ [⟨.marker .pathEnd, "", q⟩])) :=
    (Block.Balanced.token rfl rfl).append (hbody.balanced.append (Block.Balanced.token rfl rfl))
  rcases Path.read_spelled hbody q with ⟨cause, hread, hread'⟩ | ⟨p, p', halike, hread, hread'⟩
  · refine ⟨invalid cause, rfl, hspelled ▸ hbalanced, fun form calls done rest => ?_,
      fun form calls done rest => ?_, trivial⟩
    · rw [hlog]
      simpa using collect_badPath position (hread rest)
    · rw [hspelled]
      simpa using collect_badPath position (hread' rest)
  · refine ⟨.ok (p, p'), rfl, hspelled ▸ hbalanced, fun form calls done rest => ?_,
      fun form calls done rest => ?_, ⟨position, _, hlog, fun rest => ?_⟩, halike⟩
    · rw [hlog]
      show _ = collect form calls (.path p :: done) rest
      simpa using collect_path position (hread rest)
    · rw [hspelled]
      show _ = collect form calls (.path p' :: done) rest
      simpa using collect_path position (hread' rest)
    · rw [List.append_assoc, List.singleton_append]
      exact hread rest

end Element

end LinkQuery
