import LinkQuery.Proofs.PathTexts
import LinkQuery.Proofs.Phrases
import LinkQuery.Proofs.Precedence
/-!
# Lexemes that say a term

What paths, values and the rest of a term say: a path the segments that its lexemes lead to, a tail
the test that it stands for, and a term the tree of both.

Main statements:
- `Path.Goes`: the lexemes of a path with the segments that they lead to.
- `Says.pathTerm`, `Says.countTerm`, `Says.distinctTerm`, `Says.comparisonTerm`: the terms.
-/
namespace LinkQuery

open Rule Element ElementReader

/-! ## Readers -/

namespace ElementReader.Reads

variable {α β : Type} {r : ElementReader α} {k : α → ElementReader β} {a b : List Element}
  {follow : List Element → Prop} {x : α} {v : Except QueryError β}

/-- A reader behind one that anything may follow. -/
theorem andThen (h : Reads r a Anything (.ok x)) (hk : Reads (k x) b follow v) :
    Reads (r >>= k) (a ++ b) follow v := by
  intro rest hrest
  rw [List.append_assoc]
  show (r (a ++ (b ++ rest)) >>= fun found => k found.1 found.2) = _
  rw [h _ trivial]
  exact hk rest hrest

theorem nextToken {t : Token} {k : Token → ElementReader β} (hk : Reads (k t) b follow v) :
    Reads (ElementReader.nextToken >>= k) (.token t :: b) follow v :=
  andThen (a := [.token t]) (fun _ _ => rfl) hk

theorem nextPath {p : Path} {k : Path → ElementReader β} (hk : Reads (k p) b follow v) :
    Reads (ElementReader.nextPath >>= k) (.path p :: b) follow v :=
  andThen (a := [.path p]) (fun _ _ => rfl) hk

theorem symbol {text : String} {p : Nat} {k : Unit → ElementReader β}
    (hk : Reads (k ()) b follow v) :
    Reads (ElementReader.symbol text >>= k) (.token ⟨.symbol, text, p⟩ :: b) follow v := by
  have hread : Reads (ElementReader.symbol text) [.token ⟨.symbol, text, p⟩] Anything (.ok ()) := by
    refine nextToken (b := []) fun rest _ => ?_
    rw [if_neg (by simp [Token.isSymbol])]
    rfl
  exact hread.andThen hk

end ElementReader.Reads

/-! ## Paths -/

namespace Path

/-- The lexemes lead from the segments read so far to others, the last one first. -/
structure Goes (l : List Lexeme) (before after : List Segment) : Prop where
  balanced : Block.Balanced (Lexeme.placed l)
  quiet : NoNumberFirst (Lexeme.placed l)
  leads : ∀ frames rest, NoNumberFirst rest →
    segmentsFrom frames before (Lexeme.placed l ++ rest) = segmentsFrom frames after rest

namespace Goes

variable {a b l : List Lexeme} {before middle after : List Segment} {last : Segment}

theorem nil : Goes [] before before :=
  ⟨Block.Balanced.nil, by simp [NoNumberFirst, Lexeme.placed], fun _ _ _ => rfl⟩

theorem append (ha : Goes a before middle) (hb : Goes b middle after) :
    Goes (a ++ b) before after := by
  refine ⟨Block.balanced_append ha.balanced hb.balanced, ?_, fun frames rest hrest => ?_⟩
  · rw [Lexeme.placed_append]
    exact ha.quiet.append hb.quiet
  · rw [Lexeme.placed_append, List.append_assoc, ha.leads frames _ (hb.quiet.append hrest),
      hb.leads frames rest hrest]

theorem word (name : String) : Goes [(.word, name)] before (.named name 0 :: before) :=
  ⟨Block.balanced_of_flat (by simp), by simp [NoNumberFirst, Lexeme.placed],
    fun frames rest _ => segmentsFrom_word frames before rest name 0⟩

theorem unlimited :
    Goes [(.marker .transitive, "")] (last :: before) (last.repeated none :: before) :=
  ⟨Block.balanced_of_flat (by simp), by simp [NoNumberFirst, Lexeme.placed],
    fun frames rest hrest => segmentsFrom_transitive frames before last rest 0 hrest⟩

theorem limited {digits : String} {limit : Nat} (h : Text.unsigned? 32 digits = some limit) :
    Goes [(.marker .transitive, ""), (.number, digits)] (last :: before)
      (last.repeated (some limit) :: before) :=
  ⟨Block.balanced_of_flat (by simp), by simp [NoNumberFirst, Lexeme.placed],
    fun frames rest _ => segmentsFrom_limit frames before last rest 0 0 h⟩

theorem placed_block (l : List Lexeme) : Lexeme.placed (blockLexemes l) =
    ⟨.marker .whereStart, "", 0⟩ :: (Lexeme.placed l ++ [⟨.marker .whereEnd, "", 0⟩]) := by
  simp [Lexeme.placed, blockLexemes]

theorem balanced_block (h : Block.Balanced (Lexeme.placed l)) :
    Block.Balanced (Lexeme.placed (blockLexemes l)) := by
  rw [placed_block]
  exact h.block 0 0

theorem block (h : Block.Balanced (Lexeme.placed l)) : Goes (blockLexemes l) (last :: before)
    (last.filteredBy (Lexeme.placed l) :: before) := by
  refine ⟨balanced_block h, by simp [NoNumberFirst, placed_block], fun frames rest _ => ?_⟩
  rw [placed_block, List.cons_append, List.append_assoc, List.singleton_append]
  exact segmentsFrom_block frames before last rest 0 (Block.take?_balanced h 0 rest)

theorem ofKeyword?_keyword (q : Quantifier) : Quantifier.ofKeyword? q.keyword = some q := by
  cases q <;> decide

theorem condition {q : Quantifier} (h : Block.Balanced (Lexeme.placed l))
    (hnone : last.condition = none) :
    Goes ((.keyword, q.keyword) :: blockLexemes l) (last :: before)
      ({ last with condition := some ⟨q, Lexeme.placed l⟩ } :: before) := by
  refine ⟨Block.balanced_cons (by simp) (by simp) (balanced_block h),
    by simp [NoNumberFirst, Lexeme.placed], fun frames rest _ => ?_⟩
  rw [show Lexeme.placed ((.keyword, q.keyword) :: blockLexemes l) =
      ⟨.keyword, q.keyword, 0⟩ :: Lexeme.placed (blockLexemes l) from rfl, placed_block,
    List.cons_append, List.cons_append, List.append_assoc, List.singleton_append,
    segmentsFrom_condition frames before last rest 0 0 (ofKeyword?_keyword q)
      (Block.take?_balanced h 0 rest), hnone]
  rfl

theorem quantified {q : Quantifier} {inside : List Segment} (h : Goes l [] inside) :
    Goes ((.keyword, q.keyword) :: (.marker .quantStart, "") :: (l ++ [(.marker .quantEnd, "")]))
      before (inside.map (·.quantifiedBy q) ++ before) := by
  refine ⟨Block.balanced_cons (by simp) (by simp) (Block.balanced_cons (by simp) (by simp)
      (Block.balanced_append h.balanced (Block.balanced_of_flat (by simp)))),
    by simp [NoNumberFirst, Lexeme.placed], fun frames rest _ => ?_⟩
  have hplaced : Lexeme.placed ((.keyword, q.keyword) :: (.marker .quantStart, "") ::
      (l ++ [(.marker .quantEnd, "")])) = ⟨.keyword, q.keyword, 0⟩ ::
      ⟨.marker .quantStart, "", 0⟩ :: (Lexeme.placed l ++ [⟨.marker .quantEnd, "", 0⟩]) := by
    simp [Lexeme.placed]
  rw [hplaced, List.cons_append, List.cons_append, List.append_assoc, List.singleton_append,
    segmentsFrom_quantifier _ _ _ 0 0 (ofKeyword?_keyword q),
    h.leads _ _ (by simp [NoNumberFirst]), segmentsFrom_quantEnd]
  rfl

end Goes

/-- The lexemes between the markers of a path say this path. -/
structure Spelled (l : List Lexeme) (path : Path) : Prop where
  goes : Goes l [] path.segments.reverse

namespace Spelled

variable {l : List Lexeme} {path : Path}

theorem read (h : Spelled l path) (rest : List Token) :
    Path.read (Lexeme.placed l ++ ⟨.marker .pathEnd, "", 0⟩ :: rest) = .ok (path, rest) := by
  rw [Path.read, h.goes.leads [] _ (by simp [NoNumberFirst]), segmentsFrom_pathEnd,
    List.reverse_reverse]
  rfl

theorem placed_path (l : List Lexeme) : Lexeme.placed (pathLexemes l) =
    ⟨.marker .pathStart, "", 0⟩ :: (Lexeme.placed l ++ [⟨.marker .pathEnd, "", 0⟩]) := by
  simp [Lexeme.placed, pathLexemes]

theorem adds (h : Spelled l path) (form : LogForm) (calls : List Bool) :
    Adds form calls (Lexeme.placed (pathLexemes l)) (.ok [.path path]) := by
  intro done rest
  rw [placed_path, List.cons_append, List.append_assoc, List.singleton_append,
    collect_path 0 (h.read rest)]
  rfl

theorem balanced (h : Spelled l path) : Block.Balanced (Lexeme.placed (pathLexemes l)) :=
  Block.balanced_cons (by simp) (by simp)
    (Block.balanced_append h.goes.balanced (Block.balanced_of_flat (by simp)))

/-- The filters inside a path are shorter than the path. -/
theorem inside (h : Spelled l path) :
    ∀ s ∈ path.segments, s.Inside (·.length < (pathLexemes l).length) := by
  have hread : segmentsFrom [] [] (Lexeme.placed l ++ [⟨.marker .pathEnd, "", 0⟩]) =
      .ok (path.segments, []) := by
    rw [h.goes.leads [] _ (by simp [NoNumberFirst]), segmentsFrom_pathEnd, List.reverse_reverse]
  exact segmentsFrom_shorter _ hread (by simp [Lexeme.placed, pathLexemes]) (by simp) (by simp)

end Spelled

end Path

/-! ## Values -/

namespace Value

variable {clock : Clock} {t : Token} {raw : RawValue}

theorem reads_raw (h : startOf t = .raw raw) :
    Reads (Value.read clock) [.token t] Anything (.ok (.raw raw)) := by
  refine Reads.nextToken (b := []) ?_
  rw [h]
  exact fun _ _ => rfl

theorem reads_bound (lower : Bool) (h : startOf t = .raw raw) :
    Reads (bound clock lower) [.token t] Anything (.ok (some raw)) := by
  refine Reads.nextToken (b := []) ?_
  rw [h]
  exact fun _ _ => rfl

variable {α : Type} {lexeme : α → Lexeme} {written : α → RawValue}

/-- The token of a lexeme. -/
def token (x : Lexeme) : Token := ⟨x.1, x.2, 0⟩

theorem reads_boundLexeme (lower : Bool) {end? : Option α}
    (h : ∀ b ∈ end?, startOf (token (lexeme b)) = .raw (written b)) :
    Reads (bound clock lower) [.token (token (Interval.boundLexeme lexeme end?))] Anything
      (.ok (end?.map written)) := by
  cases end? with
  | none => exact fun rest _ => rfl
  | some b => exact reads_bound lower (h b rfl)

/-- An interval between bounds as written. -/
theorem reads_interval {r : Interval α}
    (h : r.Bounds fun b => startOf (token (lexeme b)) = .raw (written b)) :
    Reads (Value.read clock) (elements (Lexeme.placed (r.lexemes lexeme))) Anything
      (.ok (.interval ⟨r.min.map written, r.max.map written, r.minInclusive, r.maxInclusive⟩)) := by
  obtain ⟨min, max, minInclusive, maxInclusive⟩ := r
  have hinside (inclusive : Bool) : Reads (readInterval clock inclusive)
      [.token (token (Interval.boundLexeme lexeme min)), .token ⟨.keyword, "TO", 0⟩,
        .token (token (Interval.boundLexeme lexeme max)),
        .token ⟨.symbol, if maxInclusive then "]" else "\x7d", 0⟩] Anything
      (.ok ⟨min.map written, max.map written, inclusive, maxInclusive⟩) := by
    refine (reads_boundLexeme true h.1).andThen (b := [_, _, _]) ?_
    refine Reads.andThen (a := [.token ⟨.keyword, "TO", 0⟩]) (b := [_, _]) (x := true)
      (fun _ _ => rfl) ?_
    refine (reads_boundLexeme false h.2).andThen (b := [_]) (Reads.nextToken fun rest _ => ?_)
    cases maxInclusive <;> rfl
  cases minInclusive
  · refine Reads.nextToken (b := [_, _, _, _]) ?_
    show Reads (readInterval clock false >>= fun range => pure (Value.interval range)) _ _ _
    exact (hinside false).andThen (b := []) fun _ _ => rfl
  · refine Reads.nextToken (b := [_, _, _, _]) ?_
    show Reads (readInterval clock true >>= fun range => pure (Value.interval range)) _ _ _
    exact (hinside true).andThen (b := []) fun _ _ => rfl

end Value

/-! ## What follows a path -/

namespace Filter

variable {clock : Clock} {op : CompareOp} {value : Value} {es : List Element}

theorem ofSymbol?_symbol (op : CompareOp) : CompareOp.ofSymbol? op.symbol = some op := by
  cases op <;> decide

theorem Tail.reads_compare (h : Reads (Value.read clock) es Anything (.ok value)) :
    Reads (Tail.read clock) (.token ⟨.symbol, op.symbol, 0⟩ :: es) Behind
      (.ok (.compare op value)) := by
  intro rest _
  have hread : Tail.read clock (.token ⟨.symbol, op.symbol, 0⟩ :: (es ++ rest)) =
      (Tail.compare op <$> Value.read clock) (es ++ rest) := by
    cases op <;> rfl
  rw [List.cons_append, hread]
  show (Value.read clock (es ++ rest) >>= _) = _
  rw [h rest trivial]
  rfl

theorem Tail.reads_present : Reads (Tail.read clock) [.token (.ofMarker .isNotNull 0)] Behind
    (.ok .present) := fun _ _ => rfl

theorem Tail.reads_bare : Reads (Tail.read clock) [] Behind (.ok .bare) := by
  intro rest hrest
  cases rest with
  | nil => rfl
  | cons e rest =>
    obtain ⟨p, rfl | rfl | rfl⟩ := hrest e rfl <;> rfl

theorem CountTest.reads {test : CountTest} (h : Reads (Value.read clock) es Anything (.ok value))
    (hvalue : ofValue op value = .ok test) :
    Reads (CountTest.read clock) (.token ⟨.symbol, op.symbol, 0⟩ :: es) Behind (.ok test) := by
  refine Reads.nextToken fun rest _ => ?_
  rw [ofSymbol?_symbol]
  show (Value.read clock (es ++ rest) >>= _) = _
  rw [h rest trivial]
  show (ofValue op value >>= _) = _
  rw [hvalue]
  rfl

/-! ## Terms -/

section Reading

variable {scope : Scope} {nested : Nested} {table : String} {path : Path} {es : List Element}
  {p q : Nat}

/-- A path with what follows it. -/
theorem reads_pathTerm {v : Except QueryError Tail} (h : Reads (Tail.read scope.clock) es Behind v) :
    Reads (term scope nested table (.path path)) es Behind
      (v >>= fun found => termQuery scope nested table path found) := by
  intro rest hrest
  show (Tail.read scope.clock (es ++ rest) >>= _) = _
  rw [h rest hrest]
  cases v <;> rfl

/-- A path in parentheses and the count that is asked of it. -/
theorem reads_count {k : Path → CountTest → Built} {v : Except QueryError CountTest}
    (h : Reads (CountTest.read scope.clock) es Behind v) :
    Reads (do
        let counted ← countedPath
        let count ← CountTest.read scope.clock
        ElementReader.lift (k counted count))
      (.token ⟨.symbol, "(", p⟩ :: .path path :: .token ⟨.symbol, ")", q⟩ :: es) Behind
      (v >>= k path) := by
  have hcounted : Reads countedPath [.token ⟨.symbol, "(", p⟩, .path path,
      .token ⟨.symbol, ")", q⟩] Anything (.ok path) :=
    Reads.symbol (Reads.nextPath (Reads.symbol fun _ _ => rfl))
  refine hcounted.andThen fun rest hrest => ?_
  show (CountTest.read scope.clock (es ++ rest) >>= _) = _
  rw [h rest hrest]
  cases v <;> rfl

/-- A count along a path. -/
theorem reads_countTerm {v : Except QueryError CountTest} {word : Nat}
    (h : Reads (CountTest.read scope.clock) es Behind v) :
    Reads (term scope nested table (.token ⟨.keyword, "COUNT", word⟩))
      (.token ⟨.symbol, "(", p⟩ :: .path path :: .token ⟨.symbol, ")", q⟩ :: es) Behind
      (v >>= fun count => termQuery scope nested table path (.count count)) :=
  reads_count (k := fun counted count => termQuery scope nested table counted (.count count)) h

/-- A count of distinct values at the end of a path. -/
theorem reads_distinctTerm {v : Except QueryError CountTest} {word : Nat}
    (h : Reads (CountTest.read scope.clock) es Behind v) :
    Reads (term scope nested table (.token ⟨.keyword, "DCOUNT", word⟩))
      (.token ⟨.symbol, "(", p⟩ :: .path path :: .token ⟨.symbol, ")", q⟩ :: es) Behind
      (v >>= fun count => distinctCount scope.schema table path count) :=
  reads_count (k := fun counted count => distinctCount scope.schema table counted count) h

/-- A comparison of two paths. -/
theorem reads_comparisonTerm {op : PathOp} {left right : Path} {word comma : Nat} :
    Reads (term scope nested table (.token ⟨.keyword, op.keyword, word⟩))
      [.token ⟨.symbol, "(", p⟩, .path left, .token ⟨.symbol, ",", comma⟩, .path right,
        .token ⟨.symbol, ")", q⟩] Behind (pathComparison scope.schema table op left right) := by
  have hop : PathOp.ofKeyword? op.keyword = some op := by cases op <;> decide
  have hcount : (op.keyword == "COUNT") = false ∧ (op.keyword == "DCOUNT") = false := by
    cases op <;> decide
  show Reads (call scope nested table op.keyword) _ _ _
  unfold call
  rw [hcount.1, hcount.2, hop]
  exact Reads.symbol (Reads.nextPath (Reads.symbol (Reads.nextPath (Reads.symbol
    fun _ _ => rfl))))

end Reading

namespace Says

variable {scope : Scope} {table : String} {l tail : List Lexeme} {path : Path}

theorem termQuery_of_below {nested : Nested} {limit : Nat} {found : Tail}
    (hpath : path.Spelled l) (hnested : nested.BuildsBelow scope limit)
    (hlimit : (pathLexemes l).length ≤ limit) :
    termQuery scope nested table path found = termQuery scope (buildIn scope) table path found :=
  have hagree : ∀ target log, log.length < (pathLexemes l).length →
      nested target log = buildIn scope target log :=
    fun target log hlog => hnested target log (Nat.lt_of_lt_of_le hlog hlimit)
  termQuery_congr hagree hpath.inside

/-- A path with what follows it. -/
theorem pathTerm {es : List Element} {v : Except QueryError Tail} (hpath : path.Spelled l)
    (hbalanced : Block.Balanced (Lexeme.placed tail))
    (htail : ∀ calls, Adds .filter calls (Lexeme.placed tail) (.ok es))
    (h : Reads (Tail.read scope.clock) es Behind v) :
    Says scope table .unary (pathLexemes l ++ tail)
      (v >>= fun found => termQuery scope (buildIn scope) table path found) := by
  refine term (.path path) es (Block.balanced_append hpath.balanced hbalanced) (fun calls => ?_)
    rfl fun nested hnested rest hrest => ?_
  · rw [Lexeme.placed_append]
    exact (hpath.adds .filter calls).append (htail calls)
  · rw [reads_pathTerm h rest hrest]
    simp only [termQuery_of_below hpath hnested (by simp)]

theorem countTerm_adds {word : String} {es : List Element} (hcall : isCallWord word = true)
    (hplain : isPlain ⟨.keyword, word, 0⟩ = true) (hpath : path.Spelled l)
    (htail : ∀ calls, Adds .filter calls (Lexeme.placed tail) (.ok es)) (calls : List Bool) :
    Adds .filter calls
      (Lexeme.placed ((.keyword, word) :: (.symbol, "(") :: (pathLexemes l ++ (.symbol, ")") :: tail)))
      (.ok (.token ⟨.keyword, word, 0⟩ :: .token ⟨.symbol, "(", 0⟩ :: .path path ::
        .token ⟨.symbol, ")", 0⟩ :: es)) := by
  have hall := (Adds.call 0 0 0 hcall hplain (hpath.adds .filter (true :: calls))).append (htail calls)
  have hplaced : Lexeme.placed ((.keyword, word) :: (.symbol, "(") ::
      (pathLexemes l ++ (.symbol, ")") :: tail)) =
      ⟨.keyword, word, 0⟩ :: ⟨.symbol, "(", 0⟩ :: (Lexeme.placed (pathLexemes l) ++
        [⟨.symbol, ")", 0⟩]) ++ Lexeme.placed tail := by
    simp [Lexeme.placed]
  rw [hplaced]
  exact hall

theorem balanced_call {word : String} (hpath : path.Spelled l)
    (htail : Block.Balanced (Lexeme.placed tail)) :
    Block.Balanced (Lexeme.placed
      ((.keyword, word) :: (.symbol, "(") :: (pathLexemes l ++ (.symbol, ")") :: tail))) :=
  Block.balanced_cons (by simp) (by simp) (Block.balanced_cons (by simp) (by simp)
    (Block.balanced_append hpath.balanced (Block.balanced_cons (by simp) (by simp) htail)))

section Counts

variable {es : List Element} {test : CountTest} (hpath : path.Spelled l)
  (hbalanced : Block.Balanced (Lexeme.placed tail))
  (htail : ∀ calls, Adds .filter calls (Lexeme.placed tail) (.ok es))
  (h : Reads (CountTest.read scope.clock) es Behind (.ok test))
include hpath hbalanced htail h

/-- A count along a path. -/
theorem countTerm : Says scope table .unary
    ((.keyword, "COUNT") :: (.symbol, "(") :: (pathLexemes l ++ (.symbol, ")") :: tail))
    (termQuery scope (buildIn scope) table path (.count test)) := by
  refine term _ _ (balanced_call hpath hbalanced) (countTerm_adds rfl rfl hpath htail) rfl
    fun nested hnested => ?_
  rw [← termQuery_of_below hpath hnested (by simp; omega)]
  exact reads_countTerm h

/-- A count of distinct values at the end of a path. -/
theorem distinctTerm : Says scope table .unary
    ((.keyword, "DCOUNT") :: (.symbol, "(") :: (pathLexemes l ++ (.symbol, ")") :: tail))
    (distinctCount scope.schema table path test) := by
  refine term _ _ (balanced_call hpath hbalanced) (countTerm_adds rfl rfl hpath htail) rfl
    fun _ _ => ?_
  exact reads_distinctTerm h

end Counts

/-- A comparison of two paths. -/
theorem comparisonTerm {op : PathOp} {a b : List Lexeme} {left right : Path}
    (hleft : left.Spelled a) (hright : right.Spelled b) :
    Says scope table .unary ((.keyword, op.keyword) :: (.symbol, "(") ::
        (pathLexemes a ++ (.symbol, ",") :: (pathLexemes b ++ [(.symbol, ")")])))
      (pathComparison scope.schema table op left right) := by
  have hword : isCallWord op.keyword = true ∧ isPlain ⟨.keyword, op.keyword, 0⟩ = true := by
    cases op <;> exact ⟨rfl, rfl⟩
  have hcomma : ∀ calls, Adds .filter (true :: calls) [⟨.symbol, ",", 0⟩]
      (.ok [.token ⟨.symbol, ",", 0⟩]) := fun calls =>
    Adds.arguments (by simp; rfl)
  refine term (.token ⟨.keyword, op.keyword, 0⟩) [.token ⟨.symbol, "(", 0⟩, .path left,
    .token ⟨.symbol, ",", 0⟩, .path right, .token ⟨.symbol, ")", 0⟩] ?_ (fun calls => ?_) ?_
    fun _ _ => reads_comparisonTerm
  · exact Block.balanced_cons (by simp) (by simp) (Block.balanced_cons (by simp) (by simp)
      (Block.balanced_append hleft.balanced (Block.balanced_cons (by simp) (by simp)
        (Block.balanced_append hright.balanced (Block.balanced_of_flat (by simp))))))
  · have hinside := (hleft.adds .filter (true :: calls)).append
      ((hcomma calls).append (hright.adds .filter (true :: calls)))
    have hall := Adds.call 0 0 0 hword.1 hword.2 hinside
    have hplaced : Lexeme.placed ((.keyword, op.keyword) :: (.symbol, "(") ::
        (pathLexemes a ++ (.symbol, ",") :: (pathLexemes b ++ [(.symbol, ")")]))) =
        ⟨.keyword, op.keyword, 0⟩ :: ⟨.symbol, "(", 0⟩ :: (Lexeme.placed (pathLexemes a) ++
          ([⟨.symbol, ",", 0⟩] ++ Lexeme.placed (pathLexemes b)) ++ [⟨.symbol, ")", 0⟩]) := by
      simp [Lexeme.placed]
    rw [hplaced]
    exact hall
  · cases op <;> rfl

end Says

end Filter

end LinkQuery
