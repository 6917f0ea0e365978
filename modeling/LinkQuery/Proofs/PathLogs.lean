import LinkQuery.Language.Kind
import LinkQuery.Path.Reading
import LinkQuery.Proofs.Logs
import LinkQuery.Proofs.Refusal
/-!
# Reading the logs of paths

The logs that the grammar generates for paths have blocks that close where they should, and reading
them ends at the end of the path with proper segments, or refuses a limit or a second condition.

Main statements:
- `Block.take?_balanced`: a block of a balanced log is found whole.
- `Path.read_log`: the log of a path is read as a path with proper segments, or refused.
-/
namespace LinkQuery

open Rule Language

/-! ## The logs of paths -/

section Shapes

variable (lang : Part → LogSet)

/-- The logs of a segment and the steps behind it. -/
def Language.PathBody : LogSet :=
  Chained (lang .segment) (Repeated (lang .step))

theorem produces_path : Produces lang path =
    Chained (Single (.marker .pathStart) "")
      (Chained (PathBody lang) (Single (.marker .pathEnd) "")) := by
  simp [path, PathBody, Produces, ProducesAll, chained_assoc]

theorem produces_modifiablePath : Produces lang modifiablePath = Produces lang path := by
  simp [path, modifiablePath, without, Produces, ProducesAll]

theorem produces_quantifiedPath : Produces lang quantifiedPath =
    Chained (OneKeyword quantifierWords) (Chained (Single (.marker .quantStart) "")
      (Chained (PathBody lang) (Single (.marker .quantEnd) ""))) := by
  simp [quantifiedPath, PathBody, Produces, ProducesAll, chained_assoc]

theorem produces_conditionBlock : Produces lang conditionBlock =
    Chained (OneKeyword quantifierWords) (Chained (Single (.marker .whereStart) "")
      (Chained (lang .filter) (Single (.marker .whereEnd) ""))) := by
  simp [conditionBlock, Produces, ProducesAll]

theorem produces_whereBlock : Produces lang whereBlock =
    Chained (Single (.marker .whereStart) "")
      (Chained (lang .filter) (Single (.marker .whereEnd) "")) := by
  simp [whereBlock, Produces, ProducesAll]

theorem produces_transitiveMark : Produces lang transitiveMark =
    Chained (Single (.marker .transitive) "")
      (fun log => log = [] ∨ ∃ value, Single .number value log) := by
  simp [transitiveMark, Produces, ProducesAll]

theorem produces_namedSegment : Produces lang namedSegment =
    Chained (fun log => ∃ value, Single .word value log)
      (Chained (fun log => log = [] ∨ Produces lang transitiveMark log)
        (Repeated (Produces lang whereBlock))) := by
  simp [namedSegment, Produces, ProducesAll]

theorem produces_segment (log : List Token) : Produces lang Language.segment log ↔
    Produces lang quantifiedPath log ∨ Produces lang namedSegment log := by
  simp [Language.segment, Produces, ProducesAny]

theorem produces_step (log : List Token) : Produces lang Language.step log ↔
    Produces lang whereBlock log ∨ Produces lang quantifiedPath log ∨
      Produces lang conditionBlock log ∨ Produces lang namedSegment log := by
  simp [Language.step, ahead, Produces, ProducesAny, ProducesAll]

/-- The logs of the fields below a field, in parentheses or behind a point. -/
def Language.FieldChildren : LogSet :=
  Chained (Single (.marker .childrenStart) "")
    (Chained (fun log => lang .fieldList log ∨ lang .fieldItem log)
      (Single (.marker .childrenEnd) ""))

theorem produces_fieldItem (log : List Token) : Produces lang Language.fieldItem log ↔
    Single .symbol "*" log ∨
      Chained (fun log => ∃ value, Single .word value log)
        (Chained (fun log => log = [] ∨ ∃ value, Single .number value log)
          (Chained (Repeated (Produces lang whereBlock))
            (fun log => log = [] ∨ FieldChildren lang log))) log := by
  have hchildren : ∀ log, (Chained (Single (.marker .childrenStart) "")
        (Chained (lang .fieldList) (Single (.marker .childrenEnd) "")) log ∨
      Chained (Single (.marker .childrenStart) "")
        (Chained (lang .fieldItem) (Single (.marker .childrenEnd) "")) log) ↔
      FieldChildren lang log := by
    intro log
    simp only [FieldChildren, Chained]
    grind
  simp [Language.fieldItem, Produces, ProducesAny, ProducesAll, hchildren]

end Shapes

/-! ## Balanced logs -/

namespace Block

/-- The blocks that open in the tokens close in them, and the other way round. -/
def Balanced (tokens : List Token) : Prop :=
  ∀ depth body rest,
    takeWithin depth body (tokens ++ rest) = takeWithin depth (tokens.reverse ++ body) rest

theorem Balanced.nil : Balanced [] := fun _ _ _ => rfl

theorem Balanced.append {a b : List Token} (ha : Balanced a) (hb : Balanced b) :
    Balanced (a ++ b) := by
  intro depth body rest
  rw [List.append_assoc, ha, hb, List.reverse_append, List.append_assoc]

theorem Balanced.token {t : Token} (hstart : t.isMarker .whereStart = false)
    (hend : t.isMarker .whereEnd = false) : Balanced [t] := by
  intro depth body rest
  simp [takeWithin, hstart, hend]

theorem Balanced.block {tokens : List Token} (h : Balanced tokens) (p q : Nat) :
    Balanced (⟨.marker .whereStart, "", p⟩ :: tokens ++ [⟨.marker .whereEnd, "", q⟩]) := by
  intro depth body rest
  simp only [List.cons_append, List.append_assoc, takeWithin, Token.isMarker, beq_self_eq_true,
    if_true]
  rw [h]
  simp [takeWithin, Token.isMarker]

/-- The block of a balanced log in front of its end. -/
theorem take?_balanced {tokens : List Token} (h : Balanced tokens) (q : Nat) (rest : List Token) :
    take? (tokens ++ ⟨.marker .whereEnd, "", q⟩ :: rest) = some (tokens, rest) := by
  rw [take?, h]
  simp [takeWithin, Token.isMarker]

theorem takeWithin_block_length {depth : Nat} {body tokens block rest : List Token}
    (h : takeWithin depth body tokens = some (block, rest)) :
    block.length + rest.length < body.length + tokens.length := by
  induction tokens generalizing depth body with
  | nil => simp [takeWithin] at h
  | cons t tokens ih =>
    unfold takeWithin at h
    split at h
    · have := ih h
      simp only [List.length_cons] at this ⊢
      omega
    · split at h
      · cases depth with
        | zero =>
          simp only [Option.some.injEq, Prod.mk.injEq] at h
          simp [← h.1, ← h.2]
        | succ depth =>
          have := ih h
          simp only [List.length_cons] at this ⊢
          omega
      · have := ih h
        simp only [List.length_cons] at this ⊢
        omega

/-- A block and what follows it take up less than the log. -/
theorem take?_block_length {tokens block rest : List Token}
    (h : take? tokens = some (block, rest)) : block.length + rest.length < tokens.length := by
  simpa using takeWithin_block_length h

theorem balanced_closed {lang : Part → LogSet} (h : ∀ part log, lang part log → Balanced log) :
    Closed lang Balanced :=
  ⟨Balanced.nil, fun _ _ => Balanced.append, h⟩

/-- The atoms that neither open nor close a block. -/
def keeps (a : Atom) : Bool :=
  a.kind != .marker .whereStart && a.kind != .marker .whereEnd

/-- Rules that log neither end of a block themselves have balanced logs. -/
theorem balanced_of_keeps {lang : Part → LogSet} (h : ∀ part log, lang part log → Balanced log)
    {rule : PartRule} (hrule : rule.atoms.all keeps = true) :
    ∀ log, Produces lang rule log → Balanced log := by
  refine Produces.closed (balanced_closed h) rule fun a ha t ht => ?_
  have hkeeps := List.all_eq_true.mp hrule a ha
  simp only [keeps, Bool.and_eq_true, bne_iff_ne, ne_eq] at hkeeps
  exact Balanced.token (by simp [Token.isMarker, ht.1, hkeeps.1])
    (by simp [Token.isMarker, ht.1, hkeeps.2])

section Parts

variable {lang : Part → LogSet} (h : ∀ part log, lang part log → Balanced log)
include h

theorem balanced_whereBlock : ∀ log, Produces lang whereBlock log → Balanced log := by
  intro log hlog
  rw [produces_whereBlock] at hlog
  obtain ⟨_, _, rfl, ⟨p, rfl⟩, block, _, rfl, hblock, q, rfl⟩ := hlog
  exact (h _ _ hblock).block p q

theorem balanced_conditionBlock : ∀ log, Produces lang conditionBlock log → Balanced log := by
  intro log hlog
  rw [produces_conditionBlock] at hlog
  obtain ⟨_, _, rfl, ⟨word, -, p, rfl⟩, hrest⟩ := hlog
  refine Balanced.append (Balanced.token rfl rfl) ?_
  rw [← produces_whereBlock] at hrest
  exact balanced_whereBlock h _ hrest

theorem balanced_namedSegment : ∀ log, Produces lang namedSegment log → Balanced log := by
  intro log hlog
  rw [produces_namedSegment] at hlog
  obtain ⟨_, _, rfl, ⟨value, p, rfl⟩, mark, blocks, rfl, hmark, hblocks⟩ := hlog
  refine Balanced.append (Balanced.token rfl rfl) (Balanced.append ?_ ?_)
  · obtain rfl | hmark := hmark
    · exact Balanced.nil
    · exact balanced_of_keeps h (by decide) mark hmark
  · exact Repeated.closed (balanced_closed h) (balanced_whereBlock h) blocks hblocks

theorem balanced_segment : ∀ log, Produces lang Language.segment log → Balanced log := by
  intro log hlog
  rw [produces_segment] at hlog
  rcases hlog with hlog | hlog
  · exact balanced_of_keeps h (by decide) log hlog
  · exact balanced_namedSegment h log hlog

theorem balanced_step : ∀ log, Produces lang Language.step log → Balanced log := by
  intro log hlog
  rw [produces_step] at hlog
  rcases hlog with hlog | hlog | hlog | hlog
  · exact balanced_whereBlock h log hlog
  · exact balanced_of_keeps h (by decide) log hlog
  · exact balanced_conditionBlock h log hlog
  · exact balanced_namedSegment h log hlog

theorem balanced_fieldItem : ∀ log, Produces lang Language.fieldItem log → Balanced log := by
  have hclosed := balanced_closed h
  intro log hlog
  rw [produces_fieldItem] at hlog
  rcases hlog with ⟨p, rfl⟩ | hlog
  · exact Balanced.token rfl rfl
  · refine Chained.closed hclosed ?_ (Chained.closed hclosed ?_ (Chained.closed hclosed ?_ ?_)) log hlog
    · rintro _ ⟨value, p, rfl⟩
      exact Balanced.token rfl rfl
    · rintro _ (rfl | ⟨value, p, rfl⟩)
      · exact Balanced.nil
      · exact Balanced.token rfl rfl
    · exact Repeated.closed hclosed (balanced_whereBlock h)
    · rintro _ (rfl | ⟨_, _, rfl, ⟨p, rfl⟩, fields, _, rfl, hfields, q, rfl⟩)
      · exact Balanced.nil
      · refine Balanced.append (Balanced.token rfl rfl) (Balanced.append ?_ (Balanced.token rfl rfl))
        exact hfields.elim (h _ _) (h _ _)

end Parts

/-- The logs that the grammar generates are balanced. -/
theorem balanced_of_generates :
    ∀ (n : Nat) (part : Part) (log : List Token), Generates Part.body n part log → Balanced log := by
  intro n
  induction n with
  | zero => exact fun _ _ h => h.elim
  | succ n ih =>
    intro part log hlog
    cases part with
    | filter => exact balanced_of_keeps ih (by decide +kernel) log hlog
    | segment => exact balanced_segment ih log hlog
    | step => exact balanced_step ih log hlog
    | groupItem => exact balanced_of_keeps ih (by decide) log hlog
    | metric => exact balanced_of_keeps ih (by decide) log hlog
    | fieldList => exact balanced_of_keeps ih (by decide) log hlog
    | fieldItem => exact balanced_fieldItem ih log hlog

end Block

/-! ## Proper segments -/

theorem Text.unsigned?_lt {bits n : Nat} {text : String}
    (h : Text.unsigned? bits text = some n) : n < Text.bitBound bits := by
  unfold Text.unsigned? at h
  split at h <;> exact (by simpa using (Option.filter_eq_some_iff.mp h).2)

/-- The filters and the condition of the segment are logs of a set. -/
structure Segment.Inside (inner : LogSet) (s : Segment) : Prop where
  filters : ∀ filter ∈ s.filters, inner filter
  condition : ∀ c ∈ s.condition, inner c.tokens

namespace Segment.Inside

variable {inner : LogSet} {s : Segment}

theorem named (name : String) (position : Nat) : (Segment.named name position).Inside inner :=
  ⟨by simp [Segment.named], by simp [Segment.named]⟩

theorem quantifiedBy (h : s.Inside inner) (q : Quantifier) : (s.quantifiedBy q).Inside inner :=
  ⟨h.filters, h.condition⟩

theorem repeated (h : s.Inside inner) (depth : Option Nat) : (s.repeated depth).Inside inner :=
  ⟨h.filters, h.condition⟩

theorem filteredBy (h : s.Inside inner) {filter : List Token} (hfilter : inner filter) :
    (s.filteredBy filter).Inside inner := by
  refine ⟨?_, h.condition⟩
  intro other hother
  rcases List.mem_append.mp hother with hother | hother
  · exact h.filters other hother
  · rw [List.mem_singleton.mp hother]
    exact hfilter

theorem conditioned (h : s.Inside inner) {c : Condition} (hc : inner c.tokens) :
    ({ s with condition := some c } : Segment).Inside inner := by
  refine ⟨h.filters, ?_⟩
  rintro _ ⟨⟩
  exact hc

theorem and {other : LogSet} (h : s.Inside inner) (hother : s.Inside other) :
    s.Inside (fun log => inner log ∧ other log) :=
  ⟨fun f hf => ⟨h.filters f hf, hother.filters f hf⟩,
    fun c hc => ⟨h.condition c hc, hother.condition c hc⟩⟩

end Segment.Inside

/-- A segment whose filters and condition are logs of a set, that nothing counts, and whose limit
fits into 32 bits. -/
structure Segment.Proper (inner : LogSet) (s : Segment) : Prop where
  inside : s.Inside inner
  condition : ∀ c ∈ s.condition, c.quantifier ≠ .count
  quantifier : s.quantifier ≠ some .count
  depth : ∀ limit ∈ s.depth, limit < Text.bitBound 32

namespace Segment.Proper

variable {inner : LogSet} {s : Segment}

theorem named (name : String) (position : Nat) : (Segment.named name position).Proper inner :=
  ⟨Inside.named name position, by simp [Segment.named], by simp [Segment.named],
    by simp [Segment.named]⟩

theorem quantifiedBy (h : s.Proper inner) {q : Quantifier} (hq : q ≠ .count) :
    (s.quantifiedBy q).Proper inner := by
  refine ⟨h.inside.quantifiedBy q, h.condition, ?_, h.depth⟩
  cases hs : s.quantifier with
  | none => simpa [Segment.quantifiedBy, hs] using hq
  | some own =>
    have hown := h.quantifier
    rw [hs] at hown
    simpa [Segment.quantifiedBy, hs] using hown

theorem repeated (h : s.Proper inner) {d : Option Nat} (hdepth : ∀ n ∈ d, n < Text.bitBound 32) :
    (s.repeated d).Proper inner := by
  refine ⟨h.inside.repeated d, h.condition, h.quantifier, ?_⟩
  intro limit hlimit
  cases d with
  | none => exact h.depth limit hlimit
  | some n =>
    obtain rfl : n = limit := by simpa [Segment.repeated] using hlimit
    exact hdepth n rfl

theorem filteredBy (h : s.Proper inner) {filter : List Token} (hfilter : inner filter) :
    (s.filteredBy filter).Proper inner :=
  ⟨h.inside.filteredBy hfilter, h.condition, h.quantifier, h.depth⟩

theorem conditioned (h : s.Proper inner) {c : Condition} (htokens : inner c.tokens)
    (hcount : c.quantifier ≠ .count) : ({ s with condition := some c } : Segment).Proper inner := by
  refine ⟨h.inside.conditioned htokens, ?_, h.quantifier, h.depth⟩
  rintro _ ⟨⟩
  exact hcount

end Segment.Proper

/-- A path of proper segments. -/
def Path.Proper (inner : LogSet) (p : Path) : Prop :=
  ∀ s ∈ p.segments, s.Proper inner

theorem Path.Proper.mono {inner outer : LogSet} {p : Path} (h : p.Proper inner)
    (hlog : ∀ log, inner log → outer log) : p.Proper outer :=
  fun s hs => ⟨⟨fun f hf => hlog f ((h s hs).inside.filters f hf),
    fun c hc => hlog _ ((h s hs).inside.condition c hc)⟩, (h s hs).condition, (h s hs).quantifier,
    (h s hs).depth⟩

/-! ## Reading segments -/

namespace Path

section Steps

variable (frames : List Frame) (read before : List Segment) (last : Segment) (rest : List Token)

theorem segmentsFrom_word (value : String) (p : Nat) :
    segmentsFrom frames read (⟨.word, value, p⟩ :: rest) =
      segmentsFrom frames (.named value p :: read) rest := by
  rw [segmentsFrom.eq_def]

theorem segmentsFrom_transitive (p : Nat) (h : ∀ t ∈ rest.head?, t.kind ≠ .number) :
    segmentsFrom frames (last :: before) (⟨.marker .transitive, "", p⟩ :: rest) =
      segmentsFrom frames (last.repeated none :: before) rest := by
  rw [segmentsFrom.eq_def]
  cases rest with
  | nil => rfl
  | cons t rest =>
    have ht : t.kind ≠ .number := h t rfl
    simp [ht]

theorem segmentsFrom_limit {value : String} {limit : Nat} (p q : Nat)
    (h : Text.unsigned? 32 value = some limit) :
    segmentsFrom frames (last :: before)
        (⟨.marker .transitive, "", p⟩ :: ⟨.number, value, q⟩ :: rest) =
      segmentsFrom frames (last.repeated (some limit) :: before) rest := by
  rw [segmentsFrom.eq_def]
  simp [depthLimit, h]

theorem segmentsFrom_badLimit {value : String} (p q : Nat) (h : Text.unsigned? 32 value = none) :
    segmentsFrom frames (last :: before)
        (⟨.marker .transitive, "", p⟩ :: ⟨.number, value, q⟩ :: rest) =
      invalid (.transitiveDepth value) := by
  rw [segmentsFrom.eq_def]
  simp [depthLimit, h, invalid]

theorem segmentsFrom_block {block tokens : List Token} (p : Nat)
    (h : Block.take? tokens = some (block, rest)) :
    segmentsFrom frames (last :: before) (⟨.marker .whereStart, "", p⟩ :: tokens) =
      segmentsFrom frames (last.filteredBy block :: before) rest := by
  rw [segmentsFrom.eq_def]
  simp only
  grind

theorem segmentsFrom_condition {block tokens : List Token} {word : String} {q : Quantifier}
    (p p' : Nat) (hword : Quantifier.ofKeyword? word = some q)
    (h : Block.take? tokens = some (block, rest)) :
    segmentsFrom frames (last :: before)
        (⟨.keyword, word, p⟩ :: ⟨.marker .whereStart, "", p'⟩ :: tokens) =
      if last.condition.isSome then invalid (.repeatedCondition last.name)
      else segmentsFrom frames ({ last with condition := some ⟨q, block⟩ } :: before) rest := by
  rw [segmentsFrom.eq_def]
  simp [Token.isMarker, hword]
  grind

theorem segmentsFrom_quantifier {word : String} {q : Quantifier} (p p' : Nat)
    (hword : Quantifier.ofKeyword? word = some q) :
    segmentsFrom frames read (⟨.keyword, word, p⟩ :: ⟨.marker .quantStart, "", p'⟩ :: rest) =
      segmentsFrom (⟨q, read⟩ :: frames) [] rest := by
  rw [segmentsFrom.eq_def]
  simp [Token.isMarker, hword]

theorem segmentsFrom_quantEnd (frame : Frame) (p : Nat) :
    segmentsFrom (frame :: frames) read (⟨.marker .quantEnd, "", p⟩ :: rest) =
      segmentsFrom frames (frame.close read) rest := by
  rw [segmentsFrom.eq_def]

theorem segmentsFrom_pathEnd (p : Nat) :
    segmentsFrom [] read (⟨.marker .pathEnd, "", p⟩ :: rest) = .ok (read.reverse, rest) := by
  rw [segmentsFrom.eq_def]

end Steps

/-- The tokens do not begin with a number, which could be the limit of a link in front. -/
def NoNumberFirst (tokens : List Token) : Prop :=
  ∀ t ∈ tokens.head?, t.kind ≠ .number

theorem NoNumberFirst.append {a b : List Token} (ha : NoNumberFirst a) (hb : NoNumberFirst b) :
    NoNumberFirst (a ++ b) := by
  cases a with
  | nil => exact hb
  | cons t a => exact ha

/-- Reading the tokens leads from some segments to others that satisfy `P`, or refuses them. -/
def Leads (frames : List Frame) (read : List Segment) (tokens : List Token)
    (P : List Segment → Prop) : Prop :=
  (∃ cause, ∀ rest, NoNumberFirst rest →
      segmentsFrom frames read (tokens ++ rest) = invalid cause) ∨
    ∃ behind, P behind ∧ ∀ rest, NoNumberFirst rest →
      segmentsFrom frames read (tokens ++ rest) = segmentsFrom frames behind rest

theorem Leads.append {frames : List Frame} {read : List Segment} {a b : List Token}
    {P Q : List Segment → Prop} (ha : Leads frames read a P) (hb : NoNumberFirst b)
    (hnext : ∀ behind, P behind → Leads frames behind b Q) : Leads frames read (a ++ b) Q := by
  rcases ha with ⟨cause, ha⟩ | ⟨behind, hP, ha⟩
  · refine Or.inl ⟨cause, fun rest hrest => ?_⟩
    rw [List.append_assoc]
    exact ha _ (hb.append hrest)
  · rcases hnext behind hP with ⟨cause, hnext⟩ | ⟨further, hQ, hnext⟩
    · refine Or.inl ⟨cause, fun rest hrest => ?_⟩
      rw [List.append_assoc, ha _ (hb.append hrest), hnext rest hrest]
    · refine Or.inr ⟨further, hQ, fun rest hrest => ?_⟩
      rw [List.append_assoc, ha _ (hb.append hrest), hnext rest hrest]

/-- Segments that have been read: all proper, and at least one if `started`. -/
def Good (inner : LogSet) (started : Bool) (read : List Segment) : Prop :=
  (started = true → read ≠ []) ∧ ∀ s ∈ read, s.Proper inner

theorem Good.last {inner : LogSet} {read : List Segment} (h : Good inner true read) :
    ∃ last before, read = last :: before ∧ last.Proper inner ∧ ∀ s ∈ before, s.Proper inner := by
  cases read with
  | nil => exact absurd rfl (h.1 rfl)
  | cons last before =>
    exact ⟨last, before, rfl, h.2 last List.mem_cons_self,
      fun s hs => h.2 s (List.mem_cons_of_mem _ hs)⟩

theorem Good.cons {inner : LogSet} {last : Segment} {before : List Segment} {started : Bool}
    (hlast : last.Proper inner) (hbefore : ∀ s ∈ before, s.Proper inner) :
    Good inner started (last :: before) :=
  ⟨fun _ => List.cons_ne_nil _ _, by simpa using ⟨hlast, hbefore⟩⟩

/-- Reading the tokens behind proper segments leads to proper segments; `started` says whether there
has to be a segment in front. -/
def Readable (inner : LogSet) (started : Bool) (tokens : List Token) : Prop :=
  NoNumberFirst tokens ∧
    ∀ frames read, Good inner started read → Leads frames read tokens (Good inner true)

namespace Readable

variable {inner : LogSet} {started : Bool}

theorem append {a b : List Token} (ha : Readable inner started a) (hb : Readable inner true b) :
    Readable inner started (a ++ b) :=
  ⟨ha.1.append hb.1, fun frames read hread =>
    (ha.2 frames read hread).append hb.1 fun behind hbehind => hb.2 frames behind hbehind⟩

theorem nil : Readable inner true [] :=
  ⟨by simp [NoNumberFirst], fun _ read hread => Or.inr ⟨read, hread, fun _ _ => rfl⟩⟩

theorem word (value : String) (position : Nat) :
    Readable inner started [⟨.word, value, position⟩] := by
  refine ⟨by simp [NoNumberFirst], fun frames read hread => ?_⟩
  refine Or.inr ⟨Segment.named value position :: read, ?_, ?_⟩
  · exact Good.cons (Segment.Proper.named value position) hread.2
  · exact fun rest _ => segmentsFrom_word frames read rest value position

theorem transitive (position : Nat) :
    Readable inner true [⟨.marker .transitive, "", position⟩] := by
  refine ⟨by simp [NoNumberFirst], fun frames read hread => ?_⟩
  obtain ⟨last, before, rfl, hlast, hbefore⟩ := hread.last
  refine Or.inr ⟨_, Good.cons (hlast.repeated (d := none) (by simp)) hbefore, ?_⟩
  exact fun rest hrest => segmentsFrom_transitive frames before last rest position hrest

theorem limited (value : String) (p q : Nat) :
    Readable inner true [⟨.marker .transitive, "", p⟩, ⟨.number, value, q⟩] := by
  refine ⟨by simp [NoNumberFirst], fun frames read hread => ?_⟩
  obtain ⟨last, before, rfl, hlast, hbefore⟩ := hread.last
  cases hlimit : Text.unsigned? 32 value with
  | none =>
    refine Or.inl ⟨.transitiveDepth value, fun rest _ => ?_⟩
    exact segmentsFrom_badLimit frames before last rest p q hlimit
  | some limit =>
    have hdepth : ∀ n ∈ some limit, n < Text.bitBound 32 := by
      rintro _ ⟨⟩
      exact Text.unsigned?_lt hlimit
    refine Or.inr ⟨_, Good.cons (hlast.repeated hdepth) hbefore, fun rest _ => ?_⟩
    exact segmentsFrom_limit frames before last rest p q hlimit

theorem block {tokens : List Token} (hinner : inner tokens) (hbalanced : Block.Balanced tokens)
    (p q : Nat) : Readable inner true
      (⟨.marker .whereStart, "", p⟩ :: (tokens ++ [⟨.marker .whereEnd, "", q⟩])) := by
  refine ⟨by simp [NoNumberFirst], fun frames read hread => ?_⟩
  obtain ⟨last, before, rfl, hlast, hbefore⟩ := hread.last
  refine Or.inr ⟨_, Good.cons (hlast.filteredBy hinner) hbefore, fun rest _ => ?_⟩
  rw [List.cons_append, List.append_assoc, List.singleton_append]
  exact segmentsFrom_block frames before last rest p (Block.take?_balanced hbalanced q rest)

theorem condition {word : String} {quantifier : Quantifier} {tokens : List Token}
    (hword : Quantifier.ofKeyword? word = some quantifier) (hcount : quantifier ≠ .count)
    (hinner : inner tokens) (hbalanced : Block.Balanced tokens) (p p' q : Nat) :
    Readable inner true (⟨.keyword, word, p⟩ :: ⟨.marker .whereStart, "", p'⟩ ::
      (tokens ++ [⟨.marker .whereEnd, "", q⟩])) := by
  refine ⟨by simp [NoNumberFirst], fun frames read hread => ?_⟩
  obtain ⟨last, before, rfl, hlast, hbefore⟩ := hread.last
  have hstep := fun rest => segmentsFrom_condition frames before last rest p p' hword
    (Block.take?_balanced hbalanced q rest)
  by_cases hsecond : last.condition.isSome = true
  · refine Or.inl ⟨.repeatedCondition last.name, fun rest _ => ?_⟩
    simpa [hsecond] using hstep rest
  · refine Or.inr ⟨_, Good.cons (hlast.conditioned (c := ⟨quantifier, tokens⟩) hinner hcount) hbefore, fun rest _ => ?_⟩
    simpa [hsecond] using hstep rest

theorem quantified {word : String} {quantifier : Quantifier} {body : List Token}
    (hword : Quantifier.ofKeyword? word = some quantifier) (hcount : quantifier ≠ .count)
    (hbody : Readable inner false body) (p p' q : Nat) :
    Readable inner started (⟨.keyword, word, p⟩ :: ⟨.marker .quantStart, "", p'⟩ ::
      (body ++ [⟨.marker .quantEnd, "", q⟩])) := by
  refine ⟨by simp [NoNumberFirst], fun frames read hread => ?_⟩
  have hend : NoNumberFirst [⟨.marker .quantEnd, "", q⟩] := by simp [NoNumberFirst]
  have hinside : Leads (⟨quantifier, read⟩ :: frames) [] body (Good inner true) :=
    hbody.2 _ [] ⟨by simp, by simp⟩
  rcases hinside with ⟨cause, hinside⟩ | ⟨inside, hgood, hinside⟩
  · refine Or.inl ⟨cause, fun rest hrest => ?_⟩
    rw [List.cons_append, List.cons_append, segmentsFrom_quantifier _ _ _ p p' hword,
      List.append_assoc]
    exact hinside _ (hend.append hrest)
  · refine Or.inr ⟨Frame.close ⟨quantifier, read⟩ inside, ?_, fun rest hrest => ?_⟩
    · obtain ⟨last, before, rfl, hlast, hbefore⟩ := hgood.last
      refine Good.cons (hlast.quantifiedBy hcount) ?_
      intro s hs
      rcases List.mem_append.mp hs with hs | hs
      · obtain ⟨inside, hinside, rfl⟩ := List.mem_map.mp hs
        exact (hbefore inside hinside).quantifiedBy hcount
      · exact hread.2 s hs
    · rw [List.cons_append, List.cons_append, segmentsFrom_quantifier _ _ _ p p' hword,
        List.append_assoc, hinside _ (hend.append hrest), List.singleton_append,
        segmentsFrom_quantEnd]

end Readable

/-- The quantifiers of the grammar do not count. -/
theorem quantifier_of_word {word : String} (h : word ∈ quantifierWords) :
    ∃ q, Quantifier.ofKeyword? word = some q ∧ q ≠ .count := by
  simp only [quantifierWords, List.mem_cons, List.not_mem_nil, or_false] at h
  rcases h with rfl | rfl | rfl
  · exact ⟨.any, by decide, by decide⟩
  · exact ⟨.all, by decide, by decide⟩
  · exact ⟨.none, by decide, by decide⟩

/-! ## Logs of the grammar -/

/-- The logs of filters, at any level of nesting. -/
def FilterLog : LogSet :=
  fun log => ∃ n, Generates Part.body n .filter log

theorem FilterLog.balanced {log : List Token} (h : FilterLog log) : Block.Balanced log := by
  obtain ⟨n, hlog⟩ := h
  exact Block.balanced_of_generates n .filter log hlog

section Parts

variable {lang : Part → LogSet} {started : Bool}

theorem readable_body
    (hsegment : ∀ started log, lang .segment log → Readable FilterLog started log)
    (hstep : ∀ log, lang .step log → Readable FilterLog true log) :
    ∀ log, PathBody lang log → Readable FilterLog started log := by
  rintro _ ⟨first, more, rfl, hfirst, hmore⟩
  refine (hsegment started first hfirst).append ?_
  exact hmore.induction Readable.nil fun step rest h hrest => (hstep step h).append hrest

theorem readable_quantifiedPath
    (hbody : ∀ log, PathBody lang log → Readable FilterLog false log) :
    ∀ log, Produces lang quantifiedPath log → Readable FilterLog started log := by
  intro log hlog
  rw [produces_quantifiedPath] at hlog
  obtain ⟨_, _, rfl, ⟨word, hmem, p, rfl⟩, _, _, rfl, ⟨p', rfl⟩, body, _, rfl, hpath, q, rfl⟩ := hlog
  obtain ⟨quantifier, hword, hcount⟩ := quantifier_of_word hmem
  exact Readable.quantified hword hcount (hbody body hpath) p p' q

variable (hfilter : ∀ log, lang .filter log → FilterLog log)
include hfilter

theorem readable_whereBlock :
    ∀ log, Produces lang whereBlock log → Readable FilterLog true log := by
  intro log hlog
  rw [produces_whereBlock] at hlog
  obtain ⟨_, _, rfl, ⟨p, rfl⟩, block, _, rfl, hblock, q, rfl⟩ := hlog
  have hinner := hfilter block hblock
  exact Readable.block hinner hinner.balanced p q

theorem readable_conditionBlock :
    ∀ log, Produces lang conditionBlock log → Readable FilterLog true log := by
  intro log hlog
  rw [produces_conditionBlock] at hlog
  obtain ⟨_, _, rfl, ⟨word, hmem, p, rfl⟩, _, _, rfl, ⟨p', rfl⟩, block, _, rfl, hblock, q, rfl⟩ :=
    hlog
  obtain ⟨quantifier, hword, hcount⟩ := quantifier_of_word hmem
  have hinner := hfilter block hblock
  exact Readable.condition hword hcount hinner hinner.balanced p p' q

theorem readable_namedSegment :
    ∀ log, Produces lang namedSegment log → Readable FilterLog started log := by
  intro log hlog
  rw [produces_namedSegment] at hlog
  obtain ⟨_, _, rfl, ⟨value, p, rfl⟩, mark, blocks, rfl, hmark, hblocks⟩ := hlog
  refine (Readable.word value p).append (Readable.append ?_ ?_)
  · rcases hmark with rfl | hmark
    · exact Readable.nil
    · rw [produces_transitiveMark] at hmark
      obtain ⟨_, _, rfl, ⟨p, rfl⟩, rfl | ⟨limit, q, rfl⟩⟩ := hmark
      · exact Readable.transitive p
      · exact Readable.limited limit p q
  · refine hblocks.induction Readable.nil fun block rest h hrest => ?_
    exact (readable_whereBlock hfilter block h).append hrest

end Parts

/-- The logs of segments and of steps can be read. -/
theorem readable_of_generates : ∀ (n : Nat),
    (∀ started log, Generates Part.body n .segment log → Readable FilterLog started log) ∧
      ∀ log, Generates Part.body n .step log → Readable FilterLog true log := by
  intro n
  induction n with
  | zero => exact ⟨fun _ _ h => h.elim, fun _ h => h.elim⟩
  | succ n ih =>
    have hfilter : ∀ log, Generates Part.body n .filter log → FilterLog log := fun _ h => ⟨n, h⟩
    have hbody : ∀ log, PathBody (Generates Part.body n) log → Readable FilterLog false log :=
      readable_body ih.1 ih.2
    refine ⟨fun started log hlog => ?_, fun log hlog => ?_⟩
    · rcases (produces_segment _ log).mp hlog with hlog | hlog
      · exact readable_quantifiedPath hbody log hlog
      · exact readable_namedSegment hfilter log hlog
    · rcases (produces_step _ log).mp hlog with hlog | hlog | hlog | hlog
      · exact readable_whereBlock hfilter log hlog
      · exact readable_quantifiedPath hbody log hlog
      · exact readable_conditionBlock hfilter log hlog
      · exact readable_namedSegment hfilter log hlog

/-! ## Logs inside logs -/

theorem Frame.close_inside {inner : LogSet} {frame : Frame} {read : List Segment}
    (hread : ∀ s ∈ read, s.Inside inner) (houtside : ∀ s ∈ frame.outside, s.Inside inner) :
    ∀ s ∈ frame.close read, s.Inside inner := by
  intro s hs
  rcases List.mem_append.mp hs with hs | hs
  · obtain ⟨inside, hinside, rfl⟩ := List.mem_map.mp hs
    exact (hread inside hinside).quantifiedBy _
  · exact houtside s hs

/-- The logs inside the segments that are read are shorter than the log read from. -/
theorem segmentsFrom_shorter (limit : Nat) {frames : List Frame} {read segments : List Segment}
    {tokens rest : List Token} (h : segmentsFrom frames read tokens = .ok (segments, rest))
    (hlimit : tokens.length ≤ limit) (hread : ∀ s ∈ read, s.Inside (·.length < limit))
    (hframes : ∀ frame ∈ frames, ∀ s ∈ frame.outside, s.Inside (·.length < limit)) :
    ∀ s ∈ segments, s.Inside (·.length < limit) := by
  fun_induction segmentsFrom frames read tokens <;>
    grind [internal, invalid, → Block.take?_block_length, Segment.Inside.named,
      Segment.Inside.repeated, Segment.Inside.filteredBy, Segment.Inside.conditioned,
      Frame.close_inside]

/-- The logs inside a path are shorter than the log it is read from. -/
theorem read_inside {limit : Nat} {path : Path} {tokens rest : List Token}
    (h : read tokens = .ok (path, rest)) (hlimit : tokens.length ≤ limit) :
    ∀ s ∈ path.segments, s.Inside (·.length < limit) := by
  unfold read at h
  split at h
  · cases h
  · rename_i segments after hread
    split at h
    · cases h
    · rename_i found hfound
      obtain ⟨rfl, -⟩ := Prod.mk.inj (Except.ok.inj h)
      cases segments with
      | nil => cases hfound
      | cons first more =>
        obtain rfl := Option.some.inj hfound
        exact segmentsFrom_shorter limit hread hlimit (by simp) (by simp)

/-- The logs of filters that are shorter than a log around them. -/
def InnerLog (limit : Nat) : LogSet :=
  fun log => FilterLog log ∧ log.length < limit

/-- Reading the log of a path gives a proper path and leaves what follows, or refuses the path. -/
theorem read_log {n limit : Nat} {body : List Token}
    (h : PathBody (Generates Part.body n) body) (hlimit : body.length < limit) (q : Nat) :
    (∃ cause, ∀ rest, read (body ++ ⟨.marker .pathEnd, "", q⟩ :: rest) = invalid cause) ∨
      ∃ p : Path, p.Proper (InnerLog limit) ∧
        ∀ rest, read (body ++ ⟨.marker .pathEnd, "", q⟩ :: rest) = .ok (p, rest) := by
  have hreadable : Readable FilterLog false body :=
    readable_body (readable_of_generates n).1 (readable_of_generates n).2 body h
  have hend : ∀ rest : List Token, NoNumberFirst (⟨.marker .pathEnd, "", q⟩ :: rest) := by
    simp [NoNumberFirst]
  rcases hreadable.2 [] [] ⟨by simp, by simp⟩ with ⟨cause, hlead⟩ | ⟨behind, hgood, hlead⟩
  · refine Or.inl ⟨cause, fun rest => ?_⟩
    rw [read, hlead _ (hend rest)]
    rfl
  · have hsegments : ∀ rest, segmentsFrom [] [] (body ++ ⟨.marker .pathEnd, "", q⟩ :: rest)
        = .ok (behind.reverse, rest) := by
      intro rest
      rw [hlead _ (hend rest), segmentsFrom_pathEnd]
    have hshort := segmentsFrom_shorter limit (hsegments [])
      (by simp only [List.length_append, List.length_cons, List.length_nil]; omega) (by simp)
      (by simp)
    obtain ⟨first, more, hrev⟩ : ∃ first more, behind.reverse = first :: more :=
      List.exists_cons_of_ne_nil (by simpa using hgood.1 rfl)
    refine Or.inr ⟨⟨first, more⟩, ?_, fun rest => ?_⟩
    · intro s hs
      have hmem : s ∈ behind.reverse := by
        rw [hrev]
        exact hs
      have hproper := hgood.2 s (List.mem_reverse.mp hmem)
      exact ⟨hproper.inside.and (hshort s hmem), hproper.condition, hproper.quantifier,
        hproper.depth⟩
    · simp only [read, hsegments rest, hrev, ofSegments?]

end Path

end LinkQuery
