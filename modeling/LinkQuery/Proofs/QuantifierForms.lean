import LinkQuery.Proofs.AcceptedTexts
import LinkQuery.Proofs.GroupMeaning
import LinkQuery.Proofs.SpokenLogs
import LinkQuery.Proofs.TermPhrases
/-!
# Quantifiers around paths and on conditions

A quantifier around the links of a path says the same as the quantifier on a condition behind each
of the links, with the next link inside: `ALL(A.B).C = 1` is `A.ALL(B.ALL(C = 1))`.

Main statements:
- `Filter.chainQuery_nested`: both forms have the same tree.
- `Compiler.quantifier_forms_agree`: both texts are refused, or compile to the same tree.
-/
namespace LinkQuery

open Rule Language

/-! ## Texts of paths -/

/-- How often a link is followed. -/
inductive RepeatMark where
  | once
  | unlimited
  | limited (digits : String)

namespace RepeatMark

/-- The text of a mark behind a name. -/
def text : RepeatMark → String
  | .once => ""
  | .unlimited => "^"
  | .limited digits => "^(" ++ digits ++ ")"

/-- What a mark says. -/
def lexemes : RepeatMark → List Lexeme
  | .once => []
  | .unlimited => [(.marker .transitive, "")]
  | .limited digits => [(.marker .transitive, ""), (.number, digits)]

/-- The limit is a number. -/
def Written : RepeatMark → Prop
  | .limited digits => IsNumber digits.toList
  | _ => True

/-- The segment with a mark; a limit has to fit into 32 bits. -/
def mark (s : Segment) : RepeatMark → Except InvalidCause Segment
  | .once => .ok s
  | .unlimited => .ok (s.repeated none)
  | .limited digits =>
    match Text.unsigned? 32 digits with
    | some limit => .ok (s.repeated (some limit))
    | none => .error (.transitiveDepth digits)

theorem Written.markText {m : RepeatMark} (h : m.Written) : MarkText m.text.toList m.lexemes := by
  cases m with
  | once => exact .none
  | unlimited => exact .unlimited
  | limited digits => simpa [text, lexemes] using MarkText.limited h

end RepeatMark

/-- The texts of filters behind a name. -/
def whereTexts : List String → String
  | [] => ""
  | filter :: filters => ".WHERE(" ++ filter ++ ")" ++ whereTexts filters

/-- A name of a path with its mark and its filters. -/
structure PathStep where
  name : String
  mark : RepeatMark
  filters : List String

namespace PathStep

/-- The text of a step of a path. -/
def text (k : PathStep) : String :=
  k.name ++ k.mark.text ++ whereTexts k.filters

/-- The step is written like the grammar asks for. -/
structure Written (k : PathStep) : Prop where
  name : IsWord k.name
  mark : k.mark.Written
  filters : ∀ filter ∈ k.filters, ∃ l, IsFilterText filter.toList l

/-- The text of the steps behind the first one. -/
def furtherText : List PathStep → String
  | [] => ""
  | k :: more => "." ++ k.text ++ furtherText more

end PathStep

/-! ## Segments that are read -/

namespace Path

/-- Behind any segments the lexemes are read as the same further ones, or refused. -/
structure Meets (l : List Lexeme) (found : Except InvalidCause (List Segment)) : Prop where
  balanced : Block.Balanced (Lexeme.placed l)
  quiet : NoNumberFirst (Lexeme.placed l)
  leads : ∀ frames before rest, NoNumberFirst rest →
    segmentsFrom frames before (Lexeme.placed l ++ rest) = match found with
      | .ok segments => segmentsFrom frames (segments.reverse ++ before) rest
      | .error cause => invalid cause

namespace Meets

variable {a b l : List Lexeme} {found : Except InvalidCause (List Segment)} {segments : List Segment}

theorem nil : Meets [] (.ok []) :=
  ⟨Block.Balanced.nil, by simp [NoNumberFirst, Lexeme.placed], fun _ _ _ _ => rfl⟩

theorem append (ha : Meets a (.ok segments)) (hb : Meets b found) :
    Meets (a ++ b) (found.map (segments ++ ·)) := by
  refine ⟨Block.balanced_append ha.balanced hb.balanced, ?_, fun frames before rest hrest => ?_⟩
  · rw [Lexeme.placed_append]
    exact ha.quiet.append hb.quiet
  · rw [Lexeme.placed_append, List.append_assoc, ha.leads _ _ _ (hb.quiet.append hrest)]
    dsimp only
    rw [hb.leads _ _ _ hrest]
    cases found with
    | error cause => rfl
    | ok more => simp [Except.map]

/-- What is refused stays refused in front of anything. -/
theorem appendError {cause : InvalidCause} (ha : Meets a (.error cause))
    (hbalanced : Block.Balanced (Lexeme.placed b)) (hquiet : NoNumberFirst (Lexeme.placed b)) :
    Meets (a ++ b) (.error cause) := by
  refine ⟨Block.balanced_append ha.balanced hbalanced, ?_, fun frames before rest hrest => ?_⟩
  · rw [Lexeme.placed_append]
    exact ha.quiet.append hquiet
  · rw [Lexeme.placed_append, List.append_assoc, ha.leads _ _ _ (hquiet.append hrest)]

theorem quantified {q : Quantifier} (h : Meets l found) :
    Meets ((.keyword, q.keyword) :: (.marker .quantStart, "") :: (l ++ [(.marker .quantEnd, "")]))
      (found.map (·.map (·.quantifiedBy q))) := by
  refine ⟨Block.balanced_cons (by simp) (by simp) (Block.balanced_cons (by simp) (by simp)
      (Block.balanced_append h.balanced (Block.balanced_of_flat (by simp)))),
    by simp [NoNumberFirst, Lexeme.placed], fun frames before rest _ => ?_⟩
  have hplaced : Lexeme.placed ((.keyword, q.keyword) :: (.marker .quantStart, "") ::
      (l ++ [(.marker .quantEnd, "")])) = ⟨.keyword, q.keyword, 0⟩ ::
      ⟨.marker .quantStart, "", 0⟩ :: (Lexeme.placed l ++ [⟨.marker .quantEnd, "", 0⟩]) := by
    simp [Lexeme.placed]
  rw [hplaced, List.cons_append, List.cons_append, List.append_assoc, List.singleton_append,
    segmentsFrom_quantifier _ _ _ 0 0 (Goes.ofKeyword?_keyword q),
    h.leads _ _ _ (by simp [NoNumberFirst])]
  cases found with
  | error cause => rfl
  | ok segments =>
    show segmentsFrom _ (segments.reverse ++ []) _ = _
    rw [segmentsFrom_quantEnd]
    simp [Frame.close, Except.map, List.map_reverse]

theorem of_goes (h : ∀ before, Goes l before (segments.reverse ++ before)) :
    Meets l (.ok segments) :=
  ⟨(h []).balanced, (h []).quiet, fun frames before rest hrest => (h before).leads frames rest hrest⟩

theorem goes (h : Meets l (.ok segments)) (before : List Segment) :
    Goes l before (segments.reverse ++ before) :=
  ⟨h.balanced, h.quiet, fun frames rest hrest => h.leads frames before rest hrest⟩

/-- The lexemes of a path that is read. -/
theorem spelled {first : Segment} {more : List Segment} (h : Meets l (.ok (first :: more))) :
    Spelled l ⟨first, more⟩ :=
  ⟨by simpa [segments] using h.goes []⟩

end Meets

/-- Filters behind a segment. -/
theorem Goes.blocks {blocks : List (List Lexeme)}
    (h : ∀ l ∈ blocks, Block.Balanced (Lexeme.placed l)) (last : Segment) (before : List Segment) :
    Goes (blocks.flatMap blockLexemes) (last :: before)
      ({ last with filters := last.filters ++ blocks.map Lexeme.placed } :: before) := by
  induction blocks generalizing last with
  | nil => simpa using Goes.nil
  | cons l blocks ih =>
    rw [List.forall_mem_cons] at h
    have hall := Goes.append (Goes.block h.1) (ih h.2 (last.filteredBy (Lexeme.placed l)))
    simpa [Segment.filteredBy] using hall

end Path

/-! ## What steps say -/

/-- What a filter in parentheses says. -/
noncomputable def whereLexemes (filter : String) : List Lexeme :=
  open Classical in if h : ∃ l, IsFilterText filter.toList l then h.choose else []

theorem whereLexemes_spoken {filter : String} (h : ∃ l, IsFilterText filter.toList l) :
    IsFilterText filter.toList (whereLexemes filter) := by
  rw [whereLexemes, dif_pos h]
  exact h.choose_spec

theorem isSteps_wheres {ends : List Char → Prop} {text : List Char} {l : List Lexeme}
    {filters : List String} (hfilters : ∀ filter ∈ filters, ∃ l, IsFilterText filter.toList l)
    (h : IsSteps ends text l) : IsSteps ends ((whereTexts filters).toList ++ text)
      ((filters.map whereLexemes).flatMap blockLexemes ++ l) := by
  induction filters with
  | nil => simpa [whereTexts] using h
  | cons filter filters ih =>
    rw [List.forall_mem_cons] at hfilters
    have hall := IsSteps.filtered (whereLexemes_spoken hfilters.1) (ih hfilters.2)
    simpa [whereTexts] using hall

namespace PathStep

variable {k : PathStep} {ks : List PathStep}

/-- What a step of a path says. -/
noncomputable def lexemes (k : PathStep) : List Lexeme :=
  (.word, k.name) :: (k.mark.lexemes ++ (k.filters.map whereLexemes).flatMap blockLexemes)

/-- The segment that a step of a path is read as. -/
noncomputable def segment (k : PathStep) : Except InvalidCause Segment :=
  (k.mark.mark (.named k.name 0)).map fun s =>
    { s with filters := (k.filters.map whereLexemes).map Lexeme.placed }

theorem meets (h : k.Written) : Path.Meets k.lexemes (k.segment.map fun s => [s]) := by
  have hblocks : ∀ l ∈ k.filters.map whereLexemes, Block.Balanced (Lexeme.placed l) := by
    intro l hl
    obtain ⟨filter, hfilter, rfl⟩ := List.mem_map.mp hl
    exact (whereLexemes_spoken (h.filters filter hfilter)).balanced
  obtain ⟨name, mark, filters⟩ := k
  cases mark with
  | once =>
    refine Path.Meets.of_goes fun before => ?_
    have hall := (@Path.Goes.word before name).append (Path.Goes.blocks hblocks _ _)
    simpa [lexemes, RepeatMark.lexemes, Segment.named] using hall
  | unlimited =>
    refine Path.Meets.of_goes fun before => ?_
    have hall := (@Path.Goes.word before name).append
      (Path.Goes.unlimited.append (Path.Goes.blocks hblocks _ _))
    simpa [lexemes, RepeatMark.lexemes, Segment.named, Segment.repeated] using hall
  | limited digits =>
    cases hlimit : Text.unsigned? 32 digits with
    | some limit =>
      have hsegment : (PathStep.mk name (.limited digits) filters).segment = .ok
          { (Segment.named name 0).repeated (some limit) with
            filters := (filters.map whereLexemes).map Lexeme.placed } := by
        simp [segment, RepeatMark.mark, hlimit, Except.map]
      rw [hsegment]
      refine Path.Meets.of_goes fun before => ?_
      have hall := (@Path.Goes.word before name).append
        ((Path.Goes.limited hlimit).append (Path.Goes.blocks hblocks _ _))
      simpa [lexemes, RepeatMark.lexemes, Segment.named, Segment.repeated] using hall
    | none =>
      have hsegment : (PathStep.mk name (.limited digits) filters).segment =
          .error (.transitiveDepth digits) := by
        simp [segment, RepeatMark.mark, hlimit, Except.map]
      have hflat : Path.Meets [(.word, name), (.marker .transitive, ""), (.number, digits)]
          (.error (.transitiveDepth digits)) := by
        refine ⟨Block.balanced_of_flat (by simp), by simp [Path.NoNumberFirst, Lexeme.placed],
          fun frames before rest _ => ?_⟩
        show Path.segmentsFrom frames before (⟨.word, name, 0⟩ :: ⟨.marker .transitive, "", 0⟩ ::
          ⟨.number, digits, 0⟩ :: rest) = _
        rw [Path.segmentsFrom_word, Path.segmentsFrom_badLimit _ _ _ _ _ _ hlimit]
      have hbehind := Path.Goes.blocks hblocks (Segment.named name 0) []
      have hall := hflat.appendError hbehind.balanced hbehind.quiet
      rw [hsegment]
      simpa [lexemes, RepeatMark.lexemes, Except.map] using hall

/-- What the steps of a path say one after another. -/
theorem meets_all (h : ∀ k ∈ ks, k.Written) :
    Path.Meets (ks.flatMap lexemes) (ks.mapM segment) := by
  induction ks with
  | nil => exact Path.Meets.nil
  | cons k ks ih =>
    rw [List.forall_mem_cons] at h
    have hfirst := meets h.1
    rw [List.mapM_cons, List.flatMap_cons]
    cases hsegment : k.segment with
    | error cause =>
      rw [hsegment] at hfirst
      exact hfirst.appendError (ih h.2).balanced (ih h.2).quiet
    | ok s =>
      rw [hsegment] at hfirst
      have hall := hfirst.append (ih h.2)
      cases hsegments : ks.mapM segment with
      | error cause =>
        rw [hsegments] at hall
        exact hall
      | ok more =>
        rw [hsegments] at hall
        exact hall

/-- Further steps of a path are written behind points. -/
theorem isSteps_further (h : ∀ k ∈ ks, k.Written) :
    IsSteps EndsPath (furtherText ks).toList (ks.flatMap lexemes) := by
  induction ks with
  | nil => exact IsSteps.nil
  | cons k ks ih =>
    rw [List.forall_mem_cons] at h
    have hall := IsSteps.named h.1.name h.1.mark.markText
      (isSteps_wheres h.1.filters (ih h.2))
    simpa [furtherText, text, lexemes] using hall

end PathStep

/-! ## The tree of both forms -/

/-- The names are links, each of the table that the one before it leads to. -/
def Schema.LinksAlong (s : Schema) : String → List String → Prop
  | _, [] => True
  | table, name :: names => (s.fieldKind table name).isLink = true ∧
      ∀ target, s.linkTarget? table name = some target → s.LinksAlong target names

namespace Filter

variable {scope : Scope} {table : String} {q : Quantifier} {segment : Segment} {tail : Tail}

theorem toOption_bind {α β : Type} (r : Except QueryError α) (f : α → Except QueryError β) :
    (r >>= f).toOption = r.toOption.bind fun a => (f a).toOption := by
  cases r <;> rfl

/-- The node of a quantified link with filters, around what its target is asked for. -/
def linkNode (scope : Scope) (q : Quantifier) (segment : Segment) (inner : String → Built)
    (table : String) : Built :=
  match scope.schema.linkTarget? table segment.name with
  | none => invalid (.linkWithoutTarget segment.name)
  | some target => do
    let filter ← allFilters (buildIn scope) target segment.filters
    let inner ← inner target
    return .link q segment.name filter (some inner)

theorem linkNode_congr {inner other : String → Built}
    (h : ∀ target, scope.schema.linkTarget? table segment.name = some target →
      (inner target).toOption = (other target).toOption) :
    (linkNode scope q segment inner table).toOption =
      (linkNode scope q segment other table).toOption := by
  unfold linkNode
  cases htarget : scope.schema.linkTarget? table segment.name with
  | none => rfl
  | some target => simp only [toOption_bind, h target htarget]

/-- A link that is followed once, wherever it stands in its path. -/
theorem segmentQuery_link {nested : Nested} {onward : Option Onward}
    (hlink : (scope.schema.fieldKind table segment.name).isLink = true)
    (honce : segment.transitive = false) :
    segmentQuery scope nested table segment onward tail =
      match scope.schema.linkTarget? table segment.name with
      | none => invalid (.linkWithoutTarget segment.name)
      | some target => linkQuery nested segment target onward tail := by
  have hrole : scope.schema.role table segment.name =
      (scope.schema.requiredTarget table segment.name).map .link ∨
      scope.schema.role table segment.name =
        (scope.schema.requiredTarget table segment.name).map .crossLink := by
    unfold Schema.role
    cases hkind : scope.schema.fieldKind table segment.name <;>
      simp_all [FieldKind.isLink]
  unfold segmentQuery Schema.resolveSegment
  unfold Schema.requiredTarget at hrole
  cases htarget : scope.schema.linkTarget? table segment.name with
  | none =>
    rw [htarget] at hrole
    rcases hrole with hrole | hrole <;> rw [hrole] <;> rfl
  | some target =>
    have hany : anyLinkQuery nested segment target onward tail =
        linkQuery nested segment target onward tail := by
      rw [anyLinkQuery, honce]
      rfl
    rw [htarget] at hrole
    dsimp only
    rw [← hany, honce]
    rcases hrole with hrole | hrole <;> rw [hrole] <;> cases onward <;> rfl

/-- A link with a quantified condition behind it. -/
theorem termQuery_behind {tokens : List Token}
    (hlink : (scope.schema.fieldKind table segment.name).isLink = true)
    (honce : segment.transitive = false) :
    termQuery scope (buildIn scope) table ⟨{ segment with condition := some ⟨q, tokens⟩ }, []⟩ .bare =
      linkNode scope q segment (fun target => buildIn scope target tokens) table := by
  have hnode := @segmentQuery_link scope table { segment with condition := some ⟨q, tokens⟩ } .bare
    (buildIn scope) none hlink honce
  rw [termQuery, if_neg (by simp), chainQuery, hnode]
  rfl

/-- A link inside a quantifier, with further segments behind it. -/
theorem chainQuery_around {next : Segment} {rest : List Segment}
    (hq : q = .all ∨ q = .none) (hlink : (scope.schema.fieldKind table segment.name).isLink = true)
    (honce : segment.transitive = false) (hquantifier : segment.quantifier = none)
    (hcondition : segment.condition = none) :
    chainQuery scope (buildIn scope) table (segment.quantifiedBy q) (next :: rest) tail =
      linkNode scope q segment (fun target => behindLink (segment.quantifiedBy q) target
        ⟨fun target tail => chainQuery scope (buildIn scope) target next rest tail,
          (next :: rest).any Segment.isUniversal⟩ tail) table := by
  have hnode := @segmentQuery_link scope table (segment.quantifiedBy q) tail (buildIn scope)
    (some ⟨fun target tail => chainQuery scope (buildIn scope) target next rest tail,
      (next :: rest).any Segment.isUniversal⟩) hlink honce
  have htraversal : traversalQuantifier (segment.quantifiedBy q).quantifier = q := by
    rw [Segment.quantifiedBy, hquantifier]
    rcases hq with rfl | rfl <;> rfl
  have hnone : (segment.quantifiedBy q).condition = none := hcondition
  rw [chainQuery, hnode]
  simp only [linkQuery, hnone, htraversal]
  rfl

/-- Links inside each other, each with its filters, and what the last target is asked for. -/
def nestedLinks (scope : Scope) (q : Quantifier) (inner : String → Built) :
    List Segment → String → Built
  | [] => inner
  | segment :: more => linkNode scope q segment (nestedLinks scope q inner more)

/-- The segment is nothing but a name with filters. -/
structure Plain (segment : Segment) : Prop where
  once : segment.transitive = false
  quantifier : segment.quantifier = none
  condition : segment.condition = none

/-- What is refused behind every link is refused in front of them. -/
theorem nestedLinks_refused {inner : String → Built} (h : ∀ target, (inner target).toOption = none)
    (segments : List Segment) : (nestedLinks scope q inner segments table).toOption = none := by
  induction segments generalizing table with
  | nil => exact h table
  | cons segment more ih =>
    unfold nestedLinks linkNode
    cases scope.schema.linkTarget? table segment.name with
    | none => rfl
    | some target =>
      dsimp only
      rw [toOption_bind, Option.bind_eq_none_iff]
      intro filter _
      rw [toOption_bind, ih, Option.bind_none]

/-- Inside `ALL` and `NONE` the links are nested, and the last target is asked for the rest of the
path as a path of its own. -/
theorem chainQuery_nested {first : Segment} {more : List Segment} (hq : q = .all ∨ q = .none)
    (hrest : (first :: more).any Segment.isUniversal = false) {segments : List Segment}
    (hplain : ∀ s ∈ segment :: segments, Plain s)
    (hlinks : scope.schema.LinksAlong table ((segment :: segments).map (·.name))) :
    (chainQuery scope (buildIn scope) table (segment.quantifiedBy q)
      (segments.map (·.quantifiedBy q) ++ first :: more) tail).toOption =
    (nestedLinks scope q
      (fun target => termQuery scope (buildIn scope) target ⟨first, more⟩ tail)
      (segment :: segments) table).toOption := by
  have huniversal : ∀ s : Segment, Plain s → (s.quantifiedBy q).isUniversal = true := by
    intro s hs
    rw [Segment.isUniversal, Segment.quantifiedBy, hs.quantifier]
    rcases hq with rfl | rfl <;> rfl
  induction segments generalizing segment table with
  | nil =>
    obtain ⟨hone, -⟩ := List.forall_mem_cons.mp hplain
    rw [List.map_nil, List.nil_append,
      chainQuery_around hq hlinks.1 hone.once hone.quantifier hone.condition]
    refine linkNode_congr fun target _ => ?_
    simp only [behindLink, nestedLinks, termQuery, Path.segments, huniversal _ hone, hrest,
      Bool.not_false, Bool.and_true]
  | cons next segments ih =>
    obtain ⟨hone, hmore⟩ := List.forall_mem_cons.mp hplain
    rw [List.map_cons, List.cons_append,
      chainQuery_around hq hlinks.1 hone.once hone.quantifier hone.condition]
    refine linkNode_congr fun target htarget => ?_
    have hlater : (next.quantifiedBy q :: (segments.map (·.quantifiedBy q) ++ first :: more)).any
        Segment.isUniversal = true := by
      rw [List.any_cons, huniversal _ (hmore _ (.head _))]
      rfl
    simp only [behindLink, hlater, Bool.not_true, Bool.and_false, Bool.false_eq_true, if_false]
    exact ih hmore (hlinks.2 target htarget)

end Filter

/-! ## What the texts say -/

namespace PathStep

/-- The segment of a link that is followed once. -/
noncomputable def link (k : PathStep) : Segment :=
  { Segment.named k.name 0 with filters := (k.filters.map whereLexemes).map Lexeme.placed }

/-- The text of a path. -/
def pathText (first : PathStep) (more : List PathStep) : String :=
  first.text ++ furtherText more

/-- The text of a path with a quantifier around its first links. -/
def aroundText (q : Quantifier) (link : PathStep) (links : List PathStep) (rest : List PathStep)
    (tail : String) : String :=
  q.keyword ++ "(" ++ pathText link links ++ ")" ++ furtherText rest ++ tail

/-- The text of links with a quantified condition behind each of them, the next link inside. -/
def behindText (q : Quantifier) (inner : String) : List PathStep → String
  | [] => inner
  | k :: more => k.text ++ "." ++ q.keyword ++ "(" ++ behindText q inner more ++ ")"

/-- What links with quantified conditions say. -/
noncomputable def behindLexemes (q : Quantifier) (inner : List Lexeme) : List PathStep → List Lexeme
  | [] => inner
  | k :: more => pathLexemes (k.lexemes ++ (.keyword, q.keyword) ::
      blockLexemes (behindLexemes q inner more))

variable {k first : PathStep} {ks more : List PathStep} {q : Quantifier} {inner tail : String}
  {l t : List Lexeme}

theorem plain_link (k : PathStep) : Filter.Plain k.link := ⟨rfl, rfl, rfl⟩

theorem segment_once (honce : k.mark = .once) : k.segment = .ok k.link := by
  rw [segment, honce]
  rfl

theorem segments_once (honce : ∀ k ∈ ks, k.mark = .once) :
    ks.mapM segment = .ok (ks.map link) :=
  mapM_eq_map fun k hk => segment_once (honce k hk)

/-- No step stands inside a quantifier. -/
theorem segment_quantifier {s : Segment} (h : k.segment = .ok s) : s.quantifier = none := by
  obtain ⟨marked, hmarked, rfl⟩ := map_eq_ok h
  cases hmark : k.mark with
  | once | unlimited =>
    rw [hmark] at hmarked
    obtain rfl := Except.ok.inj hmarked
    rfl
  | limited digits =>
    simp only [hmark, RepeatMark.mark] at hmarked
    split at hmarked
    · obtain rfl := Except.ok.inj hmarked
      rfl
    · cases hmarked

theorem any_isUniversal {segments : List Segment} (h : ks.mapM segment = .ok segments) :
    segments.any Segment.isUniversal = false := by
  rw [List.any_eq_false]
  intro s hs
  obtain ⟨k, -, hk⟩ := (mem_mapM h).2 s hs
  simp [Segment.isUniversal, segment_quantifier hk]

/-- A path with a test behind it is a term. -/
theorem isPrimary_path (hfirst : first.Written) (hmore : ∀ k ∈ more, k.Written)
    (htail : IsTail tail.toList t) : IsPrimary (pathText first more ++ tail).toList
      (pathLexemes ((first :: more).flatMap lexemes) ++ t) := by
  have hall := IsPrimary.namedPath hfirst.name hfirst.mark.markText
    (isSteps_wheres hfirst.filters (isSteps_further hmore)) (.test htail)
    fun rest hrest => (IsTailOrNone.test htail).endsPath hrest
  simpa [pathText, text, lexemes] using hall

/-- A quantifier around the first links of a path is a term. -/
theorem isPrimary_around (hq : q ≠ .count) (hfirst : first.Written) (hmore : ∀ k ∈ more, k.Written)
    (hks : ∀ k ∈ ks, k.Written) (htail : IsTail tail.toList t) :
    IsPrimary (aroundText q first more ks tail).toList
      (pathLexemes ((.keyword, q.keyword) :: (.marker .quantStart, "") ::
        ((first :: more).flatMap lexemes ++ [(.marker .quantEnd, "")]) ++ ks.flatMap lexemes) ++
          t) := by
  have hall := IsPrimary.quantifiedPath hq hfirst.name hfirst.mark.markText
    (isSteps_wheres hfirst.filters (isSteps_further hmore)) (isSteps_further hks) htail
  simpa [aroundText, pathText, text, lexemes] using hall

/-- Links with quantified conditions around a term are a term. -/
theorem isPrimary_behind (hq : q ≠ .count) (hks : ∀ k ∈ ks, k.Written)
    (h : IsPrimary inner.toList l) :
    IsPrimary (behindText q inner ks).toList (behindLexemes q l ks) := by
  induction ks with
  | nil => exact h
  | cons k ks ih =>
    rw [List.forall_mem_cons] at hks
    have htext := (ih hks.2).isText.alternative.filter
    have hall := IsPrimary.namedPath hks.1.name hks.1.mark.markText
      (isSteps_wheres hks.1.filters (IsSteps.condition hq htext.isFilterText htext.contained))
      .nothing fun rest hrest => hrest
    simpa [behindText, behindLexemes, text, lexemes] using hall

end PathStep

/-! ## What is built from the texts -/

namespace Filter

open PathStep

variable {scope : Scope} {table : String} {q : Quantifier} {l t : List Lexeme} {es : List Element}
  {v : Except QueryError Tail}

/-- A path with a test builds the tree of its term. -/
theorem buildIn_path {first : Segment} {more : List Segment} (h : Path.Meets l (.ok (first :: more)))
    (htail : Spoken scope.clock t es v) :
    buildIn scope table (Lexeme.placed (pathLexemes l ++ t)) =
      v >>= fun tail => termQuery scope (buildIn scope) table ⟨first, more⟩ tail :=
  (Says.pathTerm h.spelled htail.balanced htail.adds htail.reads).conjunction.disjunction.build

/-- A path with a step that is refused is refused. -/
theorem buildIn_badPath {cause : InvalidCause} (h : Path.Meets l (.error cause)) :
    buildIn scope table (Lexeme.placed (pathLexemes l ++ t)) = invalid cause := by
  have hread : Path.read (Lexeme.placed l ++ ⟨.marker .pathEnd, "", 0⟩ :: Lexeme.placed t) =
      invalid cause := by
    rw [Path.read, h.leads [] [] _ (by simp [Path.NoNumberFirst])]
    rfl
  have helements : Element.ofTokens .filter (Lexeme.placed (pathLexemes l ++ t)) = invalid cause := by
    rw [Lexeme.placed_append, Path.Spelled.placed_path, List.cons_append, List.append_assoc,
      List.singleton_append, Element.ofTokens]
    exact Element.collect_badPath 0 hread
  rw [buildIn, buildWith, ElementReader.run, helements]
  rfl

/-- A link with a quantified condition builds the tree of its link. -/
theorem buildIn_condition {k : PathStep} (hk : k.Written) (honce : k.mark = .once)
    (hlink : (scope.schema.fieldKind table k.name).isLink = true)
    (hbalanced : Block.Balanced (Lexeme.placed l)) :
    buildIn scope table
        (Lexeme.placed (pathLexemes (k.lexemes ++ (.keyword, q.keyword) :: blockLexemes l))) =
      linkNode scope q k.link (fun target => buildIn scope target (Lexeme.placed l)) table := by
  have hstep := meets hk
  rw [segment_once honce] at hstep
  have hspelled : Path.Spelled (k.lexemes ++ (.keyword, q.keyword) :: blockLexemes l)
      ⟨{ k.link with condition := some ⟨q, Lexeme.placed l⟩ }, []⟩ :=
    ⟨(hstep.goes []).append (Path.Goes.condition hbalanced rfl)⟩
  have hbuild := (@Says.pathTerm scope table _ [] _ [] _ hspelled Block.Balanced.nil
    (fun _ => Element.Adds.nil) Tail.reads_bare).conjunction.disjunction.build
  rw [List.append_nil] at hbuild
  rw [hbuild]
  exact termQuery_behind hlink rfl

theorem balanced_behind {ks : List PathStep} (hks : ∀ k ∈ ks, k.Written)
    (hbalanced : Block.Balanced (Lexeme.placed l)) :
    Block.Balanced (Lexeme.placed (behindLexemes q l ks)) := by
  induction ks with
  | nil => exact hbalanced
  | cons k ks ih =>
    rw [List.forall_mem_cons] at hks
    have hcondition := Block.balanced_append (meets hks.1).balanced
      (Block.balanced_cons (x := (.keyword, q.keyword)) (by simp) (by simp)
        (Path.Goes.balanced_block (ih hks.2)))
    exact Block.balanced_cons (by simp) (by simp)
      (Block.balanced_append hcondition (Block.balanced_of_flat (by simp)))

/-- The quantified conditions behind links build nested links. -/
theorem buildIn_behind {ks : List PathStep} (hks : ∀ k ∈ ks, k.Written)
    (honce : ∀ k ∈ ks, k.mark = .once)
    (hlinks : scope.schema.LinksAlong table (ks.map PathStep.name))
    (hbalanced : Block.Balanced (Lexeme.placed l)) :
    (buildIn scope table (Lexeme.placed (behindLexemes q l ks))).toOption =
      (nestedLinks scope q (fun target => buildIn scope target (Lexeme.placed l))
        (ks.map link) table).toOption := by
  induction ks generalizing table with
  | nil => rfl
  | cons k ks ih =>
    rw [List.forall_mem_cons] at hks honce
    rw [behindLexemes, buildIn_condition hks.1 honce.1 hlinks.1 (balanced_behind hks.2 hbalanced)]
    exact linkNode_congr fun target htarget => ih hks.2 honce.2 (hlinks.2 target htarget)

/-- Both forms of a quantifier around links build the same tree, or none. -/
theorem buildIn_forms (hq : q = .all ∨ q = .none) {k first : PathStep} {ks more : List PathStep}
    (hks : ∀ s ∈ k :: ks, s.Written) (honce : ∀ s ∈ k :: ks, s.mark = .once)
    (hmore : ∀ s ∈ first :: more, s.Written)
    (hlinks : scope.schema.LinksAlong table ((k :: ks).map PathStep.name))
    (htail : Spoken scope.clock t es v) :
    (buildIn scope table (Lexeme.placed (pathLexemes ((.keyword, q.keyword) ::
        (.marker .quantStart, "") :: ((k :: ks).flatMap lexemes ++ [(.marker .quantEnd, "")]) ++
          (first :: more).flatMap lexemes) ++ t))).toOption =
      (buildIn scope table (Lexeme.placed (behindLexemes q
        (pathLexemes ((first :: more).flatMap lexemes) ++ t) (k :: ks)))).toOption := by
  have hinside := meets_all hks
  rw [segments_once honce] at hinside
  have hrest := meets_all hmore
  have haround := (hinside.quantified (q := q)).append hrest
  have hbalanced : Block.Balanced (Lexeme.placed (pathLexemes ((first :: more).flatMap lexemes) ++
      t)) :=
    Block.balanced_append (Block.balanced_cons (by simp) (by simp)
      (Block.balanced_append hrest.balanced (Block.balanced_of_flat (by simp)))) htail.balanced
  rw [buildIn_behind hks honce hlinks hbalanced]
  cases hfound : (first :: more).mapM segment with
  | error cause =>
    rw [hfound] at hrest haround
    rw [nestedLinks_refused fun target => by rw [buildIn_badPath hrest]; rfl]
    exact congrArg Except.toOption (buildIn_badPath haround)
  | ok segments =>
    have hquiet := any_isUniversal hfound
    rw [hfound] at hrest haround
    obtain ⟨s, -, hfound⟩ := bind_eq_ok ((List.mapM_cons ..).symm.trans hfound)
    obtain ⟨others, -, hfound⟩ := bind_eq_ok hfound
    obtain rfl := Except.ok.inj hfound
    have hpath := fun target => @buildIn_path scope target _ _ _ _ _ _ hrest htail
    have hwhole := @buildIn_path scope table _ _ _ _ _ _ haround htail
    rw [hwhole, funext hpath]
    cases v with
    | error why => exact (nestedLinks_refused (fun _ => rfl) _).symm
    | ok tail =>
      have huniversal : (k.link.quantifiedBy q).isUniversal = true := by
        rcases hq with rfl | rfl <;> rfl
      have hchain := @chainQuery_nested scope table q k.link tail s others hq hquiet (ks.map link)
        (fun found hfound => by
          obtain ⟨step, -, rfl⟩ := List.mem_map.mp (List.map_cons ▸ hfound)
          exact plain_link step)
        (by
          rw [← List.map_cons, List.map_map]
          exact hlinks)
      refine Eq.trans (congrArg Except.toOption ?_) hchain
      show termQuery scope (buildIn scope) table _ tail = _
      rw [termQuery, if_neg (by simp [Path.segments, huniversal])]
      rfl

end Filter

namespace Compiler

open PathStep

/--
A quantifier `ALL` or `NONE` around links and the same quantifier on a condition behind each of the
links, with the next link inside, are both refused or compile to the same tree. The links may have
filters, and further segments and a test stand behind the last one.
-/
theorem quantifier_forms_agree {q : Quantifier} (hq : q = .all ∨ q = .none)
    {link first : PathStep} {links more : List PathStep} {tail : String} {t : List Lexeme}
    (hlinks : ∀ k ∈ link :: links, k.Written) (honce : ∀ k ∈ link :: links, k.mark = .once)
    (hmore : ∀ k ∈ first :: more, k.Written) (htail : Rule.IsTail tail.toList t) :
    ∃ enough, ∀ (c : Compiler) (table : String) (length nesting : Nat),
      enough ≤ length → enough ≤ nesting →
      c.schema.LinksAlong table ((link :: links).map PathStep.name) →
      ((c.withLimits length nesting).filter table
        (aroundText q link links (first :: more) tail)).toOption =
      ((c.withLimits length nesting).filter table
        (behindText q (pathText first more ++ tail) (link :: links))).toOption := by
  have hcount : q ≠ .count := by
    rcases hq with rfl | rfl <;> decide
  have hcondition := isPrimary_behind hcount hlinks
    (isPrimary_path (hmore first (.head _)) (fun k hk => hmore k (.tail _ hk)) htail)
  have haround := isPrimary_around hcount (hlinks link (.head _))
    (fun k hk => hlinks k (.tail _ hk)) hmore htail
  obtain ⟨enough, haround⟩ := filter_of_text (by simp [pathLexemes]) haround.isText.alternative.filter
  obtain ⟨enough', hcondition⟩ :=
    filter_of_text (by simp [behindLexemes, pathLexemes]) hcondition.isText.alternative.filter
  refine ⟨max enough enough', fun c table length nesting hlength hnesting hnames => ?_⟩
  rw [haround c table length nesting (by omega) (by omega),
    hcondition c table length nesting (by omega) (by omega)]
  refine filterOf_congr fun scope hscope => ?_
  obtain ⟨es, v, hspoken⟩ := htail.spoken scope.clock
  rw [← c.scope_yields.of_ok hscope] at hnames
  exact Filter.buildIn_forms hq hlinks honce hmore hnames hspoken

/-- All bosses of all bosses have no name, in both forms; they compile. -/
theorem quantifier_forms_agree_boss :
    (∃ enough, ∀ length nesting, enough ≤ length → enough ≤ nesting →
      ((staff.withLimits length nesting).filter "Person"
        "ALL(Boss.WHERE(*).Boss).Name IS NULL").toOption =
      ((staff.withLimits length nesting).filter "Person"
        "Boss.WHERE(*).ALL(Boss.ALL(Name IS NULL))").toOption) ∧
    ((staff.filter "Person" "ALL(Boss.WHERE(*).Boss).Name IS NULL").toOption.any
      Option.isSome) = true := by
  have hboss : Rule.IsWord "Boss" := ⟨by decide, by decide +kernel, by decide +kernel⟩
  have hname : Rule.IsWord "Name" := ⟨by decide, by decide +kernel, by decide +kernel⟩
  have hstar : ∃ l, IsFilterText "*".toList l :=
    ⟨_, IsPrimary.star.isText.alternative.filter.isFilterText⟩
  obtain ⟨enough, hagree⟩ := @quantifier_forms_agree .all (Or.inl rfl) ⟨"Boss", .once, ["*"]⟩
    ⟨"Name", .once, []⟩ [⟨"Boss", .once, []⟩] [] " IS NULL" _
    (by
      intro k hk
      simp only [List.mem_cons, List.not_mem_nil, or_false] at hk
      rcases hk with rfl | rfl
      · exact ⟨hboss, trivial, by simpa using hstar⟩
      · exact ⟨hboss, trivial, by simp⟩)
    (by simp)
    (by
      intro k hk
      obtain rfl := List.mem_singleton.mp hk
      exact ⟨hname, trivial, by simp⟩)
    IsTail.missing
  refine ⟨⟨enough, fun length nesting hlength hnesting =>
    hagree staff "Person" length nesting hlength hnesting ?_⟩, by decide +kernel⟩
  have hkind : (staff.schema.fieldKind "Person" "Boss").isLink = true := by decide +kernel
  have htarget : staff.schema.linkTarget? "Person" "Boss" = some "Person" := by decide +kernel
  refine ⟨hkind, fun target hfound => ?_⟩
  obtain rfl := Option.some.inj (htarget.symm.trans hfound)
  exact ⟨hkind, fun _ _ => trivial⟩

end Compiler

end LinkQuery
