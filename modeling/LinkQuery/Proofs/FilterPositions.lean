import LinkQuery.Proofs.Positions
/-!
# Filters without positions

The tree of a filter does not depend on where its tokens stand: without positions, the log has the
same tree, or is refused as well.

Main statements:
- `Filter.termQuery_unplaced`: the tree of a path with a tail.
- `Filter.buildIn_unplaced`: the tree of a log.
-/
namespace LinkQuery

open ElementReader

/-! ## Values -/

namespace Value

variable (clock : Clock)

theorem zoneName?_blind : Blind id zoneName? zoneName? :=
  (Blind.tokenIf? fun _ => rfl).bind fun found => by
    cases found <;> exact Blind.pure _

theorem offset_blind (negative : Bool) : Blind id (offset negative) (offset negative) :=
  Blind.nextToken.bind fun written => by
    rw [Token.unplaced_value]
    split
    · exact Blind.refuse _ _
    · exact Blind.nextToken.bind fun unit => (Blind.lift (Agree.same _)).bind fun _ => Blind.pure _

/-- What an offset, if there is one, moves the present by. -/
theorem moved_blind {k : Option (Int × Time.TimeUnit) → ElementReader Time.Timestamp}
    (hk : ∀ moved, Blind id (k moved) (k moved)) :
    Blind id
      (tokenIf? (fun t => t.isSymbol "+" || t.isSymbol "-") >>= fun
        | none => pure none >>= k
        | some sign => some <$> offset (sign.value == "-") >>= k)
      (tokenIf? (fun t => t.isSymbol "+" || t.isSymbol "-") >>= fun
        | none => pure none >>= k
        | some sign => some <$> offset (sign.value == "-") >>= k) :=
  (Blind.tokenIf? fun _ => rfl).bind fun sign => by
    cases sign with
    | none => exact hk none
    | some sign =>
      have hmoved : Blind id (some <$> offset (sign.value == "-"))
          (some <$> offset (sign.value == "-")) := (offset_blind _).map fun _ => rfl
      exact hmoved.bind hk

theorem now_blind : Blind id (now clock) (now clock) :=
  (Blind.symbolIf "(").bind fun opened => by
    cases opened
    · exact Blind.lift (Agree.same _)
    · refine zoneName?_blind.bind fun zone => ?_
      have hclose (zone : Option String) (moved : Option (Int × Time.TimeUnit)) :
          Blind id (do symbol ")"; ElementReader.lift (clock.nowIn zone moved))
            (do symbol ")"; ElementReader.lift (clock.nowIn zone moved)) :=
        (Blind.symbol ")").bind fun _ => Blind.lift (Agree.same _)
      cases zone with
      | none => exact moved_blind (hclose none)
      | some zone => exact (Blind.symbolIf ",").bind fun _ => moved_blind (hclose (some zone))

theorem count?_blind (keyword : String) : Blind id (count? keyword) (count? keyword) :=
  (Blind.tokenIf? fun _ => rfl).bind fun found => by
    cases found with
    | none => exact Blind.pure _
    | some written =>
      simp only [Option.map_some, Token.unplaced_value]
      split
      · exact Blind.refuse _ _
      · exact Blind.refuse _ _
      · exact (Blind.symbolIf ",").bind fun _ => Blind.pure _

theorem periodArguments_blind (keyword : String) :
    Blind id (periodArguments keyword) (periodArguments keyword) :=
  (Blind.symbolIf "(").bind fun opened => by
    cases opened
    · exact Blind.pure _
    · exact (count?_blind keyword).bind fun count => zoneName?_blind.bind fun zone =>
        (Blind.symbol ")").bind fun _ => Blind.pure _

theorem span_blind (keyword : String) (period : Time.Period) :
    Blind id (span clock keyword period) (span clock keyword period) :=
  (periodArguments_blind keyword).bind fun found => by
    obtain ⟨count, zone⟩ := found
    show Blind id (if _ then _ else _) (if _ then _ else _)
    split
    · exact (Blind.refuse _ _)
    · exact Blind.lift (Agree.same _)

theorem startOf_unplaced (t : Token) : startOf t.unplaced = startOf t := (rfl)

theorem bound_blind (lower : Bool) : Blind id (bound clock lower) (bound clock lower) :=
  Blind.nextToken.bind fun t => by
    rw [startOf_unplaced, Token.unplaced_isSymbol]
    split
    · exact Blind.pure _
    · exact (now_blind clock).bind fun _ => Blind.pure _
    · exact (span_blind clock t.value _).bind fun _ => Blind.pure _
    · split
      · exact Blind.pure _
      · exact Blind.fail _ _

theorem readInterval_blind (minInclusive : Bool) :
    Blind id (readInterval clock minInclusive) (readInterval clock minInclusive) :=
  (bound_blind clock true).bind fun min => (Blind.keywordIf "TO").bind fun there => by
    cases there
    · exact (Blind.fail _ _)
    · exact (bound_blind clock false).bind fun max => Blind.nextToken.bind fun close =>
        (Blind.lift (Agree.same _)).bind fun _ => Blind.pure _

theorem read_blind : Blind id (Value.read clock) (Value.read clock) :=
  Blind.nextToken.bind fun t => by
    rw [startOf_unplaced, Token.unplaced_isSymbol, Token.unplaced_isSymbol,
      Token.unplaced_isKeyword]
    split
    · exact Blind.pure _
    · exact (now_blind clock).bind fun _ => Blind.pure _
    · exact (span_blind clock t.value _).bind fun _ => Blind.pure _
    · split
      · exact Blind.refuse _ _
      · split
        · exact (readInterval_blind clock _).bind fun _ => Blind.pure _
        · exact Blind.fail _ _

end Value

/-! ## What follows a path -/

namespace Filter

theorem Tail.read_blind (clock : Clock) : Blind id (Tail.read clock) (Tail.read clock) :=
  (Blind.tokenIf? fun _ => rfl).bind fun missing => by
    cases missing with
    | some t => exact Blind.pure _
    | none =>
      refine (Blind.tokenIf? fun _ => rfl).bind fun present => ?_
      cases present with
      | some t => exact Blind.pure _
      | none =>
        refine Blind.peekToken?.bind fun next => ?_
        have hop : (next.map Token.unplaced).bind operator? = next.bind operator? := by
          cases next <;> rfl
        rw [hop]
        cases next.bind operator? with
        | none => exact Blind.pure _
        | some op =>
          exact Blind.skip.bind fun _ => (Value.read_blind clock).bind fun _ => Blind.pure _

theorem CountTest.read_blind (clock : Clock) :
    Blind id (CountTest.read clock) (CountTest.read clock) :=
  Blind.nextToken.bind fun t => by
    rw [Token.unplaced_value]
    cases CompareOp.ofSymbol? t.value with
    | none => exact Blind.fail _ _
    | some op => exact (Value.read_blind clock).bind fun _ => Blind.lift (Agree.same _)

/-! ## Terms -/

/-- The second one builds from logs without positions what the first one builds. -/
def Nested.Blind (a b : Nested) : Prop :=
  ∀ table log, Agree id (a table log) (b table (log.map Token.unplaced))

/-- What stands behind a segment builds the same without positions. -/
structure Onward.Blind (a b : Onward) : Prop where
  build : ∀ table tail, Agree id (a.build table tail) (b.build table tail)
  isUniversal : a.isUniversal = b.isUniversal

section Terms

variable {scope : Scope} {a b : Nested} {table target : String} {segment : Segment}
  {onward other : Option Onward} {tail : Tail} {role : FieldRole}

/-- Both have nothing behind the segment, or the same without positions. -/
def Onward.BlindIfAny : Option Onward → Option Onward → Prop
  | none, none => True
  | some a, some b => a.Blind b
  | _, _ => False

theorem Onward.BlindIfAny.isSome (h : Onward.BlindIfAny onward other) :
    onward.isSome = other.isSome := by
  cases onward <;> cases other <;> first | rfl | cases h

theorem allFilters_unplaced (hnested : a.Blind b) (filters : List (List Token)) :
    Agree id (allFilters a table filters)
      (allFilters b table (filters.map (·.map Token.unplaced))) := by
  have hmap : List.map (id : Query → Query) = id := List.map_id_fun
  have hparts : Agree id (filters.mapM (a table))
      ((filters.map (·.map Token.unplaced)).mapM (b table)) := by
    have hall : Agree (List.map id) (filters.mapM (a table))
        ((filters.map (·.map Token.unplaced)).mapM (b table)) :=
      Agree.mapM fun log _ => hnested table log
    rwa [hmap] at hall
  exact hparts.bind fun parts => Agree.ok _

theorem behindLink_unplaced {a b : Onward} (h : a.Blind b) :
    Agree id (behindLink segment target a tail) (behindLink segment.unplaced target b tail) := by
  have huniversal : segment.unplaced.isUniversal = segment.isUniversal := rfl
  unfold behindLink
  rw [huniversal, h.isUniversal]
  split
  · exact (h.build target .present).map fun _ => rfl
  · exact h.build target tail

theorem repeatedCondition_unplaced (hnested : a.Blind b) (isLast : Bool) :
    Agree id (repeatedCondition a segment target isLast tail)
      (repeatedCondition b segment.unplaced target isLast tail) := by
  obtain ⟨name, position, quantifier, transitive, depth, filters, condition⟩ := segment
  cases condition with
  | none => exact Agree.ok _
  | some condition =>
    simp only [repeatedCondition, Segment.unplaced, Option.map_some]
    split
    · exact Agree.error _ _
    · split
      · exact Agree.error _ _
      · exact (hnested target condition.tokens).bind fun _ => Agree.ok _

theorem leafQuery_unplaced (type : Option ScalarType) (several : Bool) :
    Agree id (leafQuery type several segment tail)
      (leafQuery type several segment.unplaced tail) := by
  unfold leafQuery
  rw [Segment.unplaced_isRestricted]
  exact Agree.same _

theorem isUniversal_unplaced (segments : List Segment) :
    (segments.map Segment.unplaced).any Segment.isUniversal =
      segments.any Segment.isUniversal := by
  rw [List.any_map]
  rfl

variable (hnested : a.Blind b) (h : Onward.BlindIfAny onward other)
include hnested h

theorem linkQuery_unplaced : Agree id (linkQuery a segment target onward tail)
    (linkQuery b segment.unplaced target other tail) := by
  obtain ⟨name, position, quantifier, transitive, depth, filters, condition⟩ := segment
  refine (allFilters_unplaced hnested filters).bind fun filter => ?_
  cases condition with
  | some condition =>
    simp only [Segment.unplaced, Option.map_some, ← h.isSome, id]
    split
    · exact Agree.error _ _
    · exact (hnested target condition.tokens).bind fun _ => Agree.ok _
  | none =>
    cases onward with
    | none =>
      cases other with
      | none => exact Agree.same _
      | some other => cases h
    | some onward =>
      cases other with
      | none => cases h
      | some other => exact (behindLink_unplaced h).bind fun _ => Agree.ok _

theorem repeatedLinkQuery_unplaced : Agree id (repeatedLinkQuery a segment target onward tail)
    (repeatedLinkQuery b segment.unplaced target other tail) := by
  refine (allFilters_unplaced hnested segment.filters).bind fun filter => ?_
  cases onward with
  | none =>
    cases other with
    | none =>
      exact (repeatedCondition_unplaced hnested true).bind fun condition =>
        (Agree.same _).bind fun continuation => Agree.same _
    | some other => cases h
  | some onward =>
    cases other with
    | none => cases h
    | some other =>
      refine (repeatedCondition_unplaced hnested false).bind fun condition => ?_
      have hbehind : Agree id (some <$> onward.build target tail)
          (some <$> other.build target tail) := (h.build target tail).map fun _ => rfl
      exact hbehind.bind fun continuation => Agree.same _

theorem fieldQuery_unplaced : Agree id (fieldQuery a role segment onward tail)
    (fieldQuery b role segment.unplaced other tail) := by
  have hlink (target : String) : Agree id (anyLinkQuery a segment target onward tail)
      (anyLinkQuery b segment.unplaced target other tail) := by
    unfold anyLinkQuery
    rw [show segment.unplaced.transitive = segment.transitive from rfl]
    split
    · exact repeatedLinkQuery_unplaced hnested h
    · exact linkQuery_unplaced hnested h
  cases role with
  | scalar type => exact leafQuery_unplaced _ _
  | multiValued type => exact leafQuery_unplaced _ _
  | link target => exact hlink target
  | crossLink target => exact hlink target
  | group target => exact Agree.error _ _
  | system => exact leafQuery_unplaced _ _

theorem memberQuery_unplaced (member : String) :
    Agree id (memberQuery scope a table segment onward tail member)
      (memberQuery scope b table segment.unplaced other tail member) := by
  unfold memberQuery
  rw [← h.isSome]
  exact (Agree.same _).bind fun role => @fieldQuery_unplaced a b { segment with name := member }
    onward other tail role hnested h

theorem groupQuery_unplaced : Agree id (groupQuery scope a table segment onward tail)
    (groupQuery scope b table segment.unplaced other tail) := by
  have hnone : onward.isNone = other.isNone := by
    rw [← Option.not_isSome, ← Option.not_isSome, h.isSome]
  have hbranches (members : List String) : Agree id
      (members.mapM (memberQuery scope a table segment onward tail))
      (members.mapM (memberQuery scope b table segment.unplaced other tail)) := by
    have hall : Agree (List.map id) (members.mapM (memberQuery scope a table segment onward tail))
        ((members.map id).mapM (memberQuery scope b table segment.unplaced other tail)) :=
      Agree.mapM fun member _ => memberQuery_unplaced hnested h member
    rwa [List.map_id_fun, List.map_id_fun] at hall
  have hname : segment.unplaced.name = segment.name := rfl
  unfold groupQuery
  rw [hnone, hname]
  show Agree id (if _ then _ else _) (if _ then _ else _)
  split
  · exact Agree.error _ _
  · show Agree id (if _ then _ else _) (if _ then _ else _)
    split
    · exact Agree.error _ _
    · exact (hbranches _).bind fun branches => Agree.same _

theorem segmentQuery_unplaced : Agree id (segmentQuery scope a table segment onward tail)
    (segmentQuery scope b table segment.unplaced other tail) := by
  unfold segmentQuery
  rw [← h.isSome]
  refine (Agree.same _).bind fun role => ?_
  cases role with
  | group target => exact groupQuery_unplaced hnested h
  | scalar type => exact fieldQuery_unplaced hnested h
  | multiValued type => exact fieldQuery_unplaced hnested h
  | link target => exact fieldQuery_unplaced hnested h
  | crossLink target => exact fieldQuery_unplaced hnested h
  | system => exact fieldQuery_unplaced hnested h

omit h

theorem chainQuery_unplaced (rest : List Segment) :
    Agree id (chainQuery scope a table segment rest tail)
      (chainQuery scope b table segment.unplaced (rest.map Segment.unplaced) tail) := by
  induction rest generalizing table segment tail with
  | nil =>
    have hend : Onward.BlindIfAny none none := trivial
    exact segmentQuery_unplaced hnested hend
  | cons next rest ih =>
    have honward : Onward.BlindIfAny
        (some ⟨fun target tail => chainQuery scope a target next rest tail, _⟩)
        (some ⟨fun target tail => chainQuery scope b target next.unplaced
          (rest.map Segment.unplaced) tail, _⟩) :=
      ⟨fun table tail => ih, (isUniversal_unplaced (next :: rest)).symm⟩
    exact segmentQuery_unplaced hnested honward

/-- The tree of a path with a tail. -/
theorem termQuery_unplaced (path : Path) : Agree id (termQuery scope a table path tail)
    (termQuery scope b table path.unplaced tail) := by
  have huniversal : path.unplaced.segments.any Segment.isUniversal =
      path.segments.any Segment.isUniversal := isUniversal_unplaced path.segments
  unfold termQuery
  rw [huniversal]
  split
  · exact (chainQuery_unplaced hnested path.rest).map fun _ => rfl
  · exact chainQuery_unplaced hnested path.rest

end Terms

/-! ## Calls -/

section Calls

variable {schema : Schema} {table : String}

theorem resolveFrom_unplaced (segment : Segment) (rest : List Segment) :
    Agree ResolvedPath.unplaced (schema.resolveFrom table segment rest)
      (schema.resolveFrom table segment.unplaced (rest.map Segment.unplaced)) := by
  induction rest generalizing table segment with
  | nil => exact (Agree.same (schema.resolveSegment table segment false)).bind fun role => rfl
  | cons next rest ih =>
    exact (Agree.same (schema.resolveSegment table segment true)).bind fun role =>
      (ih next).bind fun behind => rfl

theorem unplaced_names (path : ResolvedPath) : path.unplaced.names = path.names := by
  simp [ResolvedPath.names, ResolvedPath.segments, ResolvedPath.unplaced, ResolvedSegment.unplaced,
    ResolvedSegment.name, Segment.unplaced]

theorem unplaced_links (path : ResolvedPath) :
    path.unplaced.segments.any (·.role.kind.isLink) =
      path.segments.any (·.role.kind.isLink) := by
  simp [ResolvedPath.segments, ResolvedPath.unplaced, ResolvedSegment.unplaced, Function.comp_def]

theorem resolve_unplaced (path : Path) :
    Agree ResolvedPath.unplaced (schema.resolve table path) (schema.resolve table path.unplaced) :=
  resolveFrom_unplaced path.first path.rest

theorem distinctCount_unplaced (path : Path) (count : CountTest) :
    Agree id (distinctCount schema table path count)
      (distinctCount schema table path.unplaced count) :=
  (resolve_unplaced path).bind fun resolved => by
    rw [Path.unplaced_isRestricted, unplaced_links, unplaced_names]
    cases path.isRestricted
    · cases resolved.segments.any (·.role.kind.isLink)
      · exact Agree.error _ _
      · exact Agree.ok _
    · exact Agree.error _ _

theorem comparedPath_unplaced (op : PathOp) (path : Path) :
    Agree id (comparedPath schema table op path) (comparedPath schema table op path.unplaced) := by
  unfold comparedPath
  rw [Path.unplaced_isRestricted]
  split
  · exact Agree.error _ _
  · exact (resolve_unplaced path).bind fun resolved => congrArg some (unplaced_names resolved).symm

theorem pathComparison_unplaced (op : PathOp) (left right : Path) :
    Agree id (pathComparison schema table op left right)
      (pathComparison schema table op left.unplaced right.unplaced) :=
  (comparedPath_unplaced op left).bind fun _ => (comparedPath_unplaced op right).bind fun _ =>
    Agree.ok _

end Calls

/-! ## Filters -/

section Filters

variable {scope : Scope} {a b : Nested} {table : String}

theorem countedPath_blind : Blind Path.unplaced countedPath countedPath :=
  (Blind.symbol "(").bind fun _ => Blind.nextPath.bind fun _ => (Blind.symbol ")").bind fun _ =>
    Blind.pure _

variable (hnested : a.Blind b)
include hnested

theorem call_blind (word : String) : ElementReader.Blind id (call scope a table word) (call scope b table word) := by
  unfold call
  split
  · exact countedPath_blind.bind fun path => (CountTest.read_blind _).bind fun count =>
      Blind.lift (termQuery_unplaced hnested path)
  · split
    · exact countedPath_blind.bind fun path => (CountTest.read_blind _).bind fun count =>
        Blind.lift (distinctCount_unplaced path count)
    · split
      · exact Blind.fail _ _
      · exact (Blind.symbol "(").bind fun _ => Blind.nextPath.bind fun left =>
          (Blind.symbol ",").bind fun _ => Blind.nextPath.bind fun right =>
          (Blind.symbol ")").bind fun _ => Blind.lift (pathComparison_unplaced _ left right)

theorem term_blind (e : Element) :
    ElementReader.Blind id (term scope a table e) (term scope b table e.unplaced) := by
  cases e with
  | path path =>
    exact (Tail.read_blind _).bind fun tail => Blind.lift (termQuery_unplaced hnested path)
  | token t =>
    show ElementReader.Blind id (if t.kind = .keyword then _ else _) (if t.kind = .keyword then _ else _)
    split
    · exact call_blind hnested t.value
    · exact Blind.fail _ _

theorem step_blind (s : Stacks) :
    ElementReader.Blind id (step scope a table s) (step scope b table s) :=
  Blind.peek?.bind fun next => by
    cases next with
    | none => exact Blind.pure _
    | some e =>
      refine Blind.skip.bind fun _ => ?_
      have hglue : Glue.ofElement? e.unplaced = Glue.ofElement? e := by cases e <;> rfl
      rw [hglue]
      cases Glue.ofElement? e with
      | some glue => exact Blind.lift (Agree.same _)
      | none => exact (term_blind hnested e).bind fun q => Blind.lift (Agree.same _)

theorem buildWith_unplaced (tokens : List Token) :
    Agree id (buildWith scope a table tokens)
      (buildWith scope b table (tokens.map Token.unplaced)) := by
  have hrun : Agree id (run (untilEnd (step scope a table) .empty) .filter tokens)
      (run (untilEnd (step scope b table) .empty) .filter (tokens.map Token.unplaced)) :=
    (Element.ofTokens_unplaced .filter tokens).bind fun es =>
      (Blind.untilEnd (step_blind hnested) .empty es).bind fun found => Agree.ok _
  exact hrun.bind fun s => Agree.same _

end Filters

variable {scope : Scope} {table : String}

theorem buildIn_agrees (tokens : List Token) :
    Agree id (buildIn scope table tokens) (buildIn scope table (tokens.map Token.unplaced)) := by
  induction hn : tokens.length using Nat.strongRecOn generalizing table tokens with
  | ind n ih =>
    rw [buildIn, buildIn]
    refine buildWith_unplaced (fun target inner => ?_) tokens
    simp only [List.length_map]
    split
    · exact ih inner.length (by omega) inner rfl
    · exact Agree.error _ _

/-- Without positions, a log has the same tree, or is refused as well. -/
theorem buildIn_unplaced (tokens : List Token) :
    (buildIn scope table (tokens.map Token.unplaced)).toOption =
      (buildIn scope table tokens).toOption :=
  (buildIn_agrees tokens).toOption_eq.symm

end Filter

end LinkQuery
