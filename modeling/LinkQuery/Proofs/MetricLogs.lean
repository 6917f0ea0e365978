import LinkQuery.Proofs.FilterLogs
import LinkQuery.Proofs.ListLogs
/-!
# Reading the logs of metrics

The logs of metrics are operands with operators between them, by levels of precedence. Reading them
leaves one operand on the stacks for each level, or refuses the expression.

Main statements:
- `Metric.Derives`: the metrics of a log, level by level.
- `Metric.expression_takes`: reading a metric.
- `Metric.build_yields`, `Metric.buildStatistic_yields`: the metrics and the statistic of a log.
-/
namespace LinkQuery.Metric

open Rule Language ElementReader Element OperatorStacks LinkQuery.Filter
open Time (Timestamp)

variable {scope : Scope} {table : String} {good : Timestamp → Prop}

/-! ## Calls -/

theorem decimalOf_yields {text : String} : Yields (fun _ => True) (decimalOf text) := by
  unfold decimalOf
  split <;> trivial

theorem carriedFilters_yields (hclock : scope.clock.Shows good) {links : List String}
    {segments : List ResolvedSegment}
    (h : ∀ s ∈ segments, ∀ filter ∈ s.segment.filters, Path.FilterLog filter) :
    Yields (fun _ => True) (carriedFilters scope links segments) := by
  induction segments generalizing links with
  | nil => trivial
  | cons s rest ih =>
    simp only [List.mem_cons, forall_eq_or_imp] at h
    have hrest : ∀ here : List (Option Query), Yields (fun _ : List (Option Query) => True)
        (do return here ++ (← carriedFilters scope (links ++ [s.name]) rest)) :=
      fun here => (ih h.2).bind fun _ _ => trivial
    unfold carriedFilters
    dsimp only
    split
    · exact hrest []
    · split
      · exact (buildAll_yields hclock h.1).bind fun filter _ => hrest _
      · exact (buildAll_yields hclock h.1).bind fun filter _ => hrest _

theorem callPath_yields (hclock : scope.clock.Shows good) {function : MetricFunction}
    {keyword : String} {path : Path} (hpath : path.Proper Path.FilterLog) :
    Yields (fun _ => True) (callPath scope table function keyword path) := by
  unfold callPath
  refine Path.requirePlain_yields.bind fun _ _ => ?_
  refine Schema.resolve_yields.bind fun resolved hresolved => ?_
  refine Yields.unless fun _ => ?_
  refine (carriedFilters_yields hclock fun s hs => ?_).bind fun _ _ => trivial
  have hmem : s.segment ∈ path.segments := hresolved.2 ▸ List.mem_map_of_mem hs
  exact (hpath s.segment hmem).inside.filters

theorem checkParameter_yields {function : MetricFunction} {keyword : String}
    {parameter : Option Decimal} :
    Yields (fun _ => True) (checkParameter function keyword parameter) := by
  unfold checkParameter
  split <;> split <;> trivial

/-- The elements of a call behind its keyword: a star or a path, and perhaps a number. -/
def CallElements (IsTarget : Path → Prop) (es : List Element) : Prop :=
  ∃ (p q : Nat) (target : Element) (parameter : List Element),
    ((∃ r, target = .token ⟨.symbol, "*", r⟩) ∨
      ∃ path : Path, path.Proper Path.FilterLog ∧ IsTarget path ∧ target = .path path) ∧
    (parameter = [] ∨ ∃ (r : Nat) (number : Token),
      parameter = [.token ⟨.symbol, ",", r⟩, .token number]) ∧
    es = .token ⟨.symbol, "(", p⟩ :: target :: (parameter ++ [.token ⟨.symbol, ")", q⟩])

theorem function_of_word {word : String} (h : word ∈ metricWords) :
    ∃ function, MetricFunction.ofKeyword? word = some function := by
  have hall : metricWords.all (fun word => (MetricFunction.ofKeyword? word).isSome) = true := by
    decide
  exact Option.isSome_iff_exists.mp (List.all_eq_true.mp hall word h)

/-- The filter of a call is that of its path; on a star there is none. -/
def IsCall (scope : Scope) (table : String) (IsTarget : Path → Prop) (c : MetricCall) : Prop :=
  c.filter = none ∨ ∃ function keyword path, IsTarget path ∧
    callPath scope table function keyword path = .ok (c.path, c.filter)

/-- What stands behind the target of a call. -/
theorem callEnd_takes {function : MetricFunction} {keyword : String}
    {c : List String × Option Query} {parameter : List Element} {q : Nat}
    {follow : List Element → Prop}
    (h : parameter = [] ∨ ∃ (r : Nat) (number : Token),
      parameter = [.token ⟨.symbol, ",", r⟩, .token number]) :
    Takes (do
        let parameter ←
          if ← symbolIf "," then
            some <$> ElementReader.lift (decimalOf (← ElementReader.nextToken).value)
          else pure none
        ElementReader.symbol ")"
        ElementReader.lift (checkParameter function keyword parameter)
        return (⟨function, c.1, c.2, parameter⟩ : MetricCall))
      (parameter ++ [.token ⟨.symbol, ")", q⟩]) follow
      (fun found => found.path = c.1 ∧ found.filter = c.2) := by
  have hclose : ∀ parameter, Takes (do
        ElementReader.symbol ")"
        ElementReader.lift (checkParameter function keyword parameter)
        return (⟨function, c.1, c.2, parameter⟩ : MetricCall))
      [.token ⟨.symbol, ")", q⟩] follow (fun found => found.path = c.1 ∧ found.filter = c.2) :=
    fun parameter =>
      Takes.symbol rfl (Takes.lift_bind checkParameter_yields fun _ _ => Takes.pure ⟨rfl, rfl⟩)
  rcases h with rfl | ⟨r, number, rfl⟩
  · refine Takes.symbolIf_not (fun _ _ => Without.cons rfl) ?_
    exact hclose none
  · refine Takes.symbolIf rfl ?_
    simp only [if_true, bind_assoc, map_eq_pure_bind]
    refine Takes.nextToken (Takes.lift_bind decimalOf_yields fun value _ => ?_)
    exact hclose (some value)

theorem call_takes (hclock : scope.clock.Shows good) {word : String} (hword : word ∈ metricWords)
    {IsTarget : Path → Prop} {es : List Element} {follow : List Element → Prop}
    (h : CallElements IsTarget es) :
    Takes (call scope table word) es follow (IsCall scope table IsTarget) := by
  obtain ⟨function, hfunction⟩ := function_of_word hword
  obtain ⟨p, q, target, parameter, htarget, hparameter, rfl⟩ := h
  unfold call
  rw [hfunction]
  refine Takes.symbol rfl ?_
  unfold callTarget
  simp only [bind_assoc]
  rcases htarget with ⟨r, rfl⟩ | ⟨path, hpath, htarget, rfl⟩
  · refine Takes.symbolIf rfl ?_
    simp only [if_true]
    split
    · exact Takes.refuse_bind _
    · exact (callEnd_takes (c := ([], none)) hparameter).mono fun c hc => Or.inl hc.2
  · refine Takes.symbolIf_not (fun _ _ => Without.path) ?_
    simp only [Bool.false_eq_true, if_false, bind_assoc]
    refine Takes.nextPath ?_
    refine Takes.lift_bind (callPath_yields hclock hpath).itself fun found hfound => ?_
    refine (callEnd_takes hparameter).mono fun c hc => Or.inr ⟨function, word, path, htarget, ?_⟩
    rw [hfound.1, hc.1, hc.2]

/-! ## Differences between instants -/

theorem timeField_yields {path : Path} : Yields (fun _ => True) (timeField scope table path) := by
  unfold timeField
  refine Path.requirePlain_yields.bind fun _ _ => ?_
  refine Yields.unless fun _ => ?_
  refine Schema.resolve_yields.bind fun resolved _ => ?_
  exact Yields.unless fun _ => trivial

/-- The elements of an instant or a field. -/
def TimeElements (lang : Part → LogSet) (es : List Element) : Prop :=
  (∃ path : Path, es = [.path path]) ∨
    (∃ (text : String) (p : Nat), es = [.token ⟨.quoted, text, p⟩]) ∨
    ∃ (p : Nat) (tail : List Token), Produces lang now (⟨.keyword, "NOW", p⟩ :: tail) ∧
      es = .token ⟨.keyword, "NOW", p⟩ :: elements tail

theorem timeOperand_takes {lang : Part → LogSet} (hclock : scope.clock.Shows good)
    {es : List Element} (h : TimeElements lang es) :
    Takes (timeOperand scope table) es NotOpening (fun _ => True) := by
  unfold timeOperand
  rcases h with ⟨path, rfl⟩ | ⟨text, p, rfl⟩ | ⟨p, tail, hnow, rfl⟩
  · exact Takes.peek (Takes.skip (Takes.lift timeField_yields))
  · refine Takes.peek (Takes.skip ?_)
    rw [if_neg (by simp [Token.isKeyword]), if_pos rfl]
    split
    · exact Takes.pure trivial
    · exact Takes.refuse _
  · refine Takes.peek (Takes.skip ?_)
    have hword : (⟨.keyword, "NOW", p⟩ : Token).isKeyword "NOW" = true := rfl
    rw [if_pos hword]
    exact Takes.andThen (Value.now_takes hclock hnow) fun _ _ => Takes.pure trivial

/-- The elements of a difference behind its keyword. -/
def DifferenceElements (lang : Part → LogSet) (es : List Element) : Prop :=
  ∃ (p q r p' : Nat) (unit : Token) (start finish : List Element), unit.value ∈ timeUnitWords ∧
    TimeElements lang start ∧ TimeElements lang finish ∧
    es = .token ⟨.symbol, "(", p⟩ :: .token unit :: .token ⟨.symbol, ",", q⟩ ::
      (start ++ .token ⟨.symbol, ",", r⟩ :: (finish ++ [.token ⟨.symbol, ")", p'⟩]))

theorem dateDifference_takes {lang : Part → LogSet} (hclock : scope.clock.Shows good)
    {es : List Element} {follow : List Element → Prop} (h : DifferenceElements lang es) :
    Takes (dateDifference scope table) es follow
      (fun q => ∃ unit start finish, q = difference unit start finish) := by
  obtain ⟨p, q, r, p', unit, start, finish, hunit, hstart, hfinish, rfl⟩ := h
  unfold dateDifference
  refine Takes.symbol rfl (Takes.nextToken ?_)
  refine Takes.lift_bind (Value.unitOf_yields hunit) fun _ _ => Takes.symbol rfl ?_
  refine Takes.bind (timeOperand_takes hclock hstart) (fun _ _ => Without.cons rfl) fun _ _ => ?_
  refine Takes.symbol rfl ?_
  refine Takes.bind (timeOperand_takes hclock hfinish) (fun _ _ => Without.cons rfl) fun _ _ => ?_
  exact Takes.symbol rfl (Takes.pure ⟨_, _, _, rfl⟩)

/-! ## Arithmetic -/

/-- Reading the elements leads from the stacks to others, or refuses the expression. -/
def Advances (scope : Scope) (table : String) (s : Stacks) (es : List Element)
    (lands : MetricExpr → Stacks → Prop) : Prop :=
  (∃ why, QueryError.IsRefusal why ∧
      ∀ rest, loop (step scope table) s (es ++ rest) = .error why) ∨
    ∃ q t, lands q t ∧
      ∀ rest, loop (step scope table) s (es ++ rest) = loop (step scope table) t rest

/-- The elements are a metric with a property, whose operators bind at least as closely as a
rank. -/
def IsMetric (scope : Scope) (table : String) (P : MetricExpr → Prop) (k : Nat)
    (es : List Element) : Prop :=
  ∀ s : Stacks, OperatorStacks.Clear ArithmeticOp.rank k s →
    Advances scope table s es fun q t => P q ∧ Lands apply ArithmeticOp.rank k s q t

theorem rank_bounds (op : ArithmeticOp) : 1 ≤ op.rank ∧ op.rank < 3 := by
  cases op <;> decide

theorem clear_three (s : Stacks) : OperatorStacks.Clear ArithmeticOp.rank 3 s :=
  fun op _ => (rank_bounds op).2

/-- An element that is read in one round, and the elements behind it. -/
theorem Advances.round {s t : Stacks} {e : Element} {es : List Element}
    {lands : MetricExpr → Stacks → Prop}
    (hround : ∀ rest, step scope table s (e :: rest) = .ok (.more t, rest))
    (h : Advances scope table t es lands) : Advances scope table s (e :: es) lands := by
  have hone : ∀ rest, loop (step scope table) s (e :: (es ++ rest)) =
      loop (step scope table) t (es ++ rest) :=
    fun rest => loop_round (a := [e]) (hround _) (by simp)
  rcases h with ⟨why, hwhy, h⟩ | ⟨q, u, hu, h⟩
  · exact Or.inl ⟨why, hwhy, fun rest => (hone rest).trans (h rest)⟩
  · exact Or.inr ⟨q, u, hu, fun rest => (hone rest).trans (h rest)⟩

/-- Elements behind elements. -/
theorem Advances.append {s : Stacks} {a b : List Element} {R lands : MetricExpr → Stacks → Prop}
    (ha : Advances scope table s a R)
    (hb : ∀ q t, R q t → Advances scope table t b lands) :
    Advances scope table s (a ++ b) lands := by
  rcases ha with ⟨why, hwhy, ha⟩ | ⟨q, t, ht, ha⟩
  · exact Or.inl ⟨why, hwhy, fun rest => by rw [List.append_assoc, ha]⟩
  · rcases hb q t ht with ⟨why, hwhy, hb⟩ | ⟨r, u, hu, hb⟩
    · exact Or.inl ⟨why, hwhy, fun rest => by rw [List.append_assoc, ha, hb]⟩
    · exact Or.inr ⟨r, u, hu, fun rest => by rw [List.append_assoc, ha, hb]⟩

/-- No elements. -/
theorem Advances.nil {s : Stacks} {q : MetricExpr} {lands : MetricExpr → Stacks → Prop}
    (h : lands q s) : Advances scope table s [] lands :=
  Or.inr ⟨q, s, h, fun _ => rfl⟩

section Ranks

variable {P Q R : MetricExpr → Prop}

/-- An operand that is read in one round. -/
theorem IsMetric.operand {es : List Element} (hne : es ≠ [])
    (h : ∀ s : Stacks, Takes (step scope table s) es Anything
      (fun progress => ∃ q, P q ∧ progress = .more (s.push q))) :
    IsMetric scope table P 3 es := by
  intro s _
  obtain ⟨v, hv, hread⟩ := h s
  obtain ⟨why, rfl, hwhy⟩ | ⟨_, rfl, q, hP, rfl⟩ := hread.cases
  · exact Or.inl ⟨why, hwhy, fun rest => loop_error (hv rest trivial)⟩
  · exact Or.inr ⟨q, s.push q, ⟨hP, Lands.push (clear_three s)⟩,
      fun rest => loop_round (hv rest trivial) hne⟩

theorem IsMetric.mono {k : Nat} {es : List Element} (h : IsMetric scope table P k es)
    (hPQ : ∀ q, P q → Q q) : IsMetric scope table Q k es := by
  intro s hs
  rcases h s hs with hrefused | ⟨q, t, ⟨hP, ht⟩, hread⟩
  · exact Or.inl hrefused
  · exact Or.inr ⟨q, t, ⟨hPQ q hP, ht⟩, hread⟩

theorem IsMetric.weaken {j k : Nat} {es : List Element} (h : IsMetric scope table P j es)
    (hk : k ≤ j) : IsMetric scope table P k es := by
  intro s hs
  have hj : OperatorStacks.Clear ArithmeticOp.rank j s :=
    fun op hop => Nat.lt_of_lt_of_le (hs op hop) hk
  rcases h s hj with hrefused | ⟨q, t, ⟨hP, ht⟩, hread⟩
  · exact Or.inl hrefused
  · exact Or.inr ⟨q, t, ⟨hP, ht.weaken hk hs⟩, hread⟩

/-- The round of a parenthesis that closes around an operand. -/
theorem step_close {q : MetricExpr} {s t : Stacks} (h : Lands apply ArithmeticOp.rank 1 s.opened q t)
    (p : Nat) (rest : List Element) :
    step scope table t (.token ⟨.symbol, ")", p⟩ :: rest) = .ok (.more (s.push q), rest) := by
  have houter : t.outer.isEmpty = false := by
    rw [← (reduce_eq_ok h).2]
    rfl
  have hclosed : t.closed apply .metricParentheses = .ok (s.push q) :=
    h.closed fun op => (rank_bounds op).1
  show symbolStep t ")" (.token ⟨.symbol, ")", p⟩ :: rest) = _
  simp only [symbolStep, houter]
  show ((t.closed apply .metricParentheses).map _ >>= _ : Except QueryError _) = _
  rw [hclosed]
  rfl

/-- A metric in parentheses. -/
theorem IsMetric.group {es : List Element} (h : IsMetric scope table P 1 es) (p q : Nat) :
    IsMetric scope table P 3 (.token ⟨.symbol, "(", p⟩ :: (es ++ [.token ⟨.symbol, ")", q⟩])) := by
  intro s _
  refine Advances.round (t := s.opened) (fun rest => rfl) ?_
  refine Advances.append (h s.opened (Clear.of_nil rfl)) fun inner t ⟨hP, ht⟩ => ?_
  exact Advances.round (step_close ht q) (Advances.nil ⟨hP, Lands.push (clear_three s)⟩)

/-- The round of an operator. -/
theorem step_operator {op : ArithmeticOp} {s t : Stacks} (p : Nat)
    (h : s.connected apply ArithmeticOp.rank op = .ok t) (rest : List Element) :
    step scope table s (.token ⟨.symbol, op.symbol, p⟩ :: rest) = .ok (.more t, rest) := by
  have hsymbols : op.symbol ≠ "(" ∧ op.symbol ≠ ")" ∧ op.symbol ≠ "," ∧
      ArithmeticOp.ofSymbol? op.symbol = some op := by
    cases op <;> decide
  show symbolStep s op.symbol (.token ⟨.symbol, op.symbol, p⟩ :: rest) = _
  simp only [symbolStep, beq_iff_eq, hsymbols, if_false]
  show ((s.connected apply ArithmeticOp.rank op).map _ >>= _ : Except QueryError _) = _
  rw [h]
  rfl

/-- An operator between its operands. -/
theorem IsMetric.binary {op : ArithmeticOp} {k : Nat} {a b : List Element} (p : Nat)
    (ha : IsMetric scope table P k a) (hb : IsMetric scope table Q (k + 1) b) (hrank : op.rank = k)
    (hR : ∀ left right, P left → Q right → R (.binary op left right)) :
    IsMetric scope table R k (a ++ .token ⟨.symbol, op.symbol, p⟩ :: b) := by
  intro s hs
  refine Advances.append (ha s hs) fun left t ⟨hleft, ht⟩ => ?_
  have happly := fun right => ht.connected hs hrank
    (show apply op (right :: left :: s.operands) = .ok (.binary op left right :: s.operands) from rfl)
  refine Advances.round (t := (s.push left).waiting op)
    (step_operator p (happly (.number (.ofInt 0))).1) ?_
  have hclear : OperatorStacks.Clear ArithmeticOp.rank (k + 1) ((s.push left).waiting op) :=
    Clear.waiting (by omega)
  rcases hb _ hclear with hrefused | ⟨right, u, ⟨hright, hu⟩, hread⟩
  · exact Or.inl hrefused
  · exact Or.inr ⟨_, u, ⟨hR left right hleft hright, (happly right).2 u hu⟩, hread⟩

end Ranks

/-- What ends a metric of a list. -/
def MetricEnd (rest : List Element) : Prop :=
  ∀ e ∈ rest.head?, ∃ p, e = .token ⟨.symbol, ",", p⟩

theorem loop_metricEnd {s : Stacks} {rest : List Element} (h : MetricEnd rest) :
    loop (step scope table) s rest = .ok (s, rest) := by
  refine loop_finished ?_
  cases rest with
  | nil => rfl
  | cons e rest =>
    obtain ⟨p, rfl⟩ := h e rfl
    rfl

/-- A metric whose operators have all been read. -/
theorem expression_of_lands {s : Stacks} {q : MetricExpr} {es rest : List Element}
    (hread : loop (step scope table) OperatorStacks.empty es = .ok (s, rest))
    (h : Lands apply ArithmeticOp.rank 1 OperatorStacks.empty q s) :
    expression scope table es = .ok (q, rest) := by
  have hfinish : s.finish apply .metricParentheses = .ok [q] :=
    h.finish fun op => (rank_bounds op).1
  unfold expression
  show (loop (step scope table) .empty _ >>= fun x => _) = _
  rw [hread]
  simp only [Bind.bind, Except.bind, StateT.bind, ElementReader.lift, hfinish]
  rfl

/-- A metric has elements, since without any there is no operand. -/
theorem IsMetric.ne_nil {P : MetricExpr → Prop} {k : Nat} {es : List Element}
    (h : IsMetric scope table P k es) : es ≠ [] := by
  rintro rfl
  have hread : ∀ s, loop (step scope table) s [] = .ok (s, []) := fun s => loop_metricEnd nofun
  rcases h OperatorStacks.empty (Clear.of_nil rfl) with
    ⟨why, -, hrefused⟩ | ⟨q, t, ⟨-, ht⟩, hsame⟩
  · cases (hread _).symm.trans (hrefused [])
  · obtain rfl : OperatorStacks.empty = t := by
      have := (hread _).symm.trans ((hsame []).trans (hread t))
      simpa using this
    cases ht

/-- Reading a metric. -/
theorem expression_takes {P : MetricExpr → Prop} {es : List Element}
    (h : IsMetric scope table P 1 es) : Takes (expression scope table) es MetricEnd P := by
  have hloop : Takes (loop (step scope table) OperatorStacks.empty) es MetricEnd
      (fun t => ∃ q, P q ∧ Lands apply ArithmeticOp.rank 1 OperatorStacks.empty q t) := by
    rcases h OperatorStacks.empty (Clear.of_nil rfl) with
      ⟨why, hwhy, hrefused⟩ | ⟨q, t, ht, hread⟩
    · exact ⟨.error why, fun rest _ => hrefused rest, hwhy⟩
    · exact ⟨.ok t, fun rest hrest => (hread rest).trans (loop_metricEnd hrest), q, ht⟩
  refine hloop.andThen fun t ht => ?_
  obtain ⟨q, hP, ht⟩ := ht
  have hfinish : t.finish apply .metricParentheses = .ok [q] :=
    ht.finish fun op => (rank_bounds op).1
  rw [hfinish]
  exact Takes.lift_bind (P := (· = [q])) rfl fun found hfound => hfound ▸ Takes.pure hP

/-! ## Logs -/

/-- The call of a function in the log is one on the path. -/
def CalledOn (n : Nat) (log : List Token) (path : Path) : Prop :=
  ∃ word p q target back, log = ⟨.keyword, word, p⟩ :: ⟨.symbol, "(", q⟩ :: (target ++ back) ∧
    Produces (Generates Part.body n) Language.path target ∧
    Element.ofTokens .list target = .ok [.path path]

/-- The metric is one of the log, whose operators bind at least as closely as a rank. It stands in
front of some levels of parentheses. -/
inductive Derives (scope : Scope) (table : String) : Nat → Nat → List Token → MetricExpr → Prop
  | number (n : Nat) (text : String) (p : Nat) (value : Decimal) :
    Derives scope table n 3 [⟨.number, text, p⟩] (.number value)
  | difference {n : Nat} {log : List Token}
    (hlog : Produces (Generates Part.body n) Language.dateDifference log) (unit : Time.TimeUnit)
    (start finish : TimeOperand) : Derives scope table n 3 log (difference unit start finish)
  | call {n : Nat} {log : List Token} {c : MetricCall}
    (hlog : Produces (Generates Part.body n) metricCall log)
    (hcall : IsCall scope table (CalledOn n log) c) : Derives scope table n 3 log (.call c)
  | group {n : Nat} {log : List Token} {q : MetricExpr} (h : Derives scope table n 1 log q)
    (p p' : Nat) :
    Derives scope table (n + 1) 3 (⟨.symbol, "(", p⟩ :: (log ++ [⟨.symbol, ")", p'⟩])) q
  | weaken {n k : Nat} {log : List Token} {q : MetricExpr} (h : Derives scope table n (k + 1) log q) :
    Derives scope table n k log q
  | binary {n k : Nat} {op : ArithmeticOp} {a b : List Token} {left right : MetricExpr}
    (hrank : op.rank = k) (hleft : Derives scope table n k a left) (p : Nat)
    (hright : Derives scope table n (k + 1) b right) :
    Derives scope table n k (a ++ ⟨.symbol, op.symbol, p⟩ :: b) (.binary op left right)

section Logs

variable {calls : List Bool} {done : List Element} {n : Nat} {log : List Token}

/-- A token that stands alone in a list, and what stands behind it. -/
theorem gathers_token {t : Token} {b : List Token} {P Q : ListSet Element}
    (ht : standsAlone t = true)
    (hb : ∀ done, Gathers .list calls done b P) (hPQ : ∀ es, P es → Q (.token t :: es)) :
    Gathers .list calls done (t :: b) Q :=
  Gathers.cons (fun _ => collect_list_token ht) ((hb _).mono hPQ)

theorem gathers_number {value : String} {p : Nat} :
    Gathers .list calls done [⟨.number, value, p⟩]
      (IsMetric scope table (Derives scope table n 3 [⟨.number, value, p⟩]) 3) := by
  refine (Gathers.tokens rfl).mono ?_
  rintro _ rfl
  refine IsMetric.operand (by simp) fun s => Takes.peekToken (Takes.skip ?_)
  exact Takes.lift_bind decimalOf_yields fun found _ =>
    Takes.pure ⟨_, .number n value p found, rfl⟩

/-- The elements of the log of a call behind its keyword. -/
theorem gathers_call (h : Produces (Generates Part.body n) metricCall log) :
    ∃ word ∈ metricWords, ∃ (p : Nat) (tail : List Token), log = ⟨.keyword, word, p⟩ :: tail ∧
      ∀ calls done, Gathers .list calls done tail (CallElements (CalledOn n log)) := by
  simp only [metricCall, Produces, ProducesAll, ProducesAny, produces_symbol, produces_keywords,
    produces_modifiablePath, chained_nil_right, or_false] at h
  obtain ⟨_, _, rfl, ⟨word, hword, p, rfl⟩, _, _, rfl, ⟨q, rfl⟩, target, _, rfl, htarget, parameter,
    _, rfl, hparameter, r, rfl⟩ := h
  refine ⟨word, hword, p, ⟨.symbol, "(", q⟩ :: (target ++ (parameter ++ [⟨.symbol, ")", r⟩])), rfl,
    fun calls done => ?_⟩
  have hend : ∀ done, Gathers .list calls done (parameter ++ [⟨.symbol, ")", r⟩])
      (fun es => ∃ found, (found = [] ∨ ∃ (p' : Nat) (number : Token),
        found = [.token ⟨.symbol, ",", p'⟩, .token number]) ∧
        es = found ++ [.token ⟨.symbol, ")", r⟩]) := by
    intro done
    rcases hparameter with rfl | ⟨_, _, rfl, ⟨p', rfl⟩, value, q', rfl⟩
    · refine (Gathers.tokens rfl).mono ?_
      rintro _ rfl
      exact ⟨[], Or.inl rfl, rfl⟩
    · refine gathers_token rfl (fun done => Gathers.tokens rfl) ?_
      rintro _ rfl
      exact ⟨_, Or.inr ⟨p', _, rfl⟩, rfl⟩
  have htarget : ∀ done, Gathers .list calls done target (fun es => ∃ e, es = [e] ∧
      ((∃ r, e = .token ⟨.symbol, "*", r⟩) ∨
        ∃ path : Path, path.Proper Path.FilterLog ∧ Produces (Generates Part.body n) Language.path target ∧
          Element.ofTokens .list target = .ok [.path path] ∧ e = .path path)) := by
    intro done
    rcases htarget with ⟨p', rfl⟩ | htarget
    · refine (Gathers.tokens rfl).mono ?_
      rintro _ rfl
      exact ⟨_, rfl, Or.inl ⟨p', rfl⟩⟩
    · obtain ⟨v, hadds, hpath⟩ := adds_path _ htarget (Nat.le_refl _)
      refine ((hadds .list calls).gathers hpath.itself).mono ?_
      rintro _ ⟨rfl, found, hproper, rfl⟩
      exact ⟨_, rfl, Or.inr ⟨found, hproper.mono fun _ h => h.1, htarget,
        (hadds .list []).ofTokens, rfl⟩⟩
  refine gathers_token rfl (fun done => ?_) fun es hes => hes
  refine Gathers.append (htarget done) fun target htarget => ?_
  refine (hend _).mono ?_
  rintro _ ⟨found, hfound, rfl⟩
  obtain ⟨e, rfl, he⟩ := htarget
  refine ⟨q, r, e, found, he.imp_right ?_, hfound, rfl⟩
  rintro ⟨called, hproper, hlog, hread, rfl⟩
  exact ⟨called, hproper, ⟨word, p, q, target, _, rfl, hlog, hread⟩, rfl⟩

/-- The elements of the log of a difference behind its keyword. -/
theorem gathers_dateDifference
    (h : Produces (Generates Part.body n) Language.dateDifference log) :
    ∃ (p : Nat) (tail : List Token), log = ⟨.keyword, "DATEDIFF", p⟩ :: tail ∧
      ∀ calls done, Gathers .list calls done tail
        (DifferenceElements (Generates Part.body n)) := by
  simp only [Language.dateDifference, timeUnit, Produces, ProducesAll, produces_symbol,
    produces_keywords, chained_nil_right] at h
  obtain ⟨_, _, rfl, ⟨p, rfl⟩, _, _, rfl, ⟨q, rfl⟩, _, _, rfl, ⟨unit, hunit, r, rfl⟩, _, _, rfl,
    ⟨p', rfl⟩, start, _, rfl, hstart, _, _, rfl, ⟨q', rfl⟩, finish, _, rfl, hfinish, r', rfl⟩ := h
  have htime : ∀ {calls : List Bool} {done : List Element} {log : List Token},
      Produces (Generates Part.body n) timeArgument log →
      Gathers .list calls done log (TimeElements (Generates Part.body n)) := by
    intro calls done log hlog
    simp only [timeArgument, Produces, ProducesAny, produces_modifiablePath, or_false] at hlog
    rcases hlog with hnow | ⟨text, p, rfl⟩ | hpath
    · have hrelative : Produces (Generates Part.body n) relativeTime log := Or.inl hnow
      have htokens := relativeTime_standsAlone hrelative
      have hnow' := hnow
      rw [produces_now, single_chained] at hnow'
      obtain ⟨p, tail, rfl, -⟩ := hnow'
      refine (Gathers.tokens htokens).mono ?_
      rintro _ rfl
      exact Or.inr (Or.inr ⟨p, tail, hnow, rfl⟩)
    · refine (Gathers.tokens rfl).mono ?_
      rintro _ rfl
      exact Or.inr (Or.inl ⟨text, p, rfl⟩)
    · refine (Gathers.path _ hpath (Nat.le_refl _)).mono ?_
      rintro _ ⟨path, -, rfl⟩
      exact Or.inl ⟨path, rfl⟩
  refine ⟨p, ⟨.symbol, "(", q⟩ :: ⟨.keyword, unit, r⟩ :: ⟨.symbol, ",", p'⟩ ::
    (start ++ ⟨.symbol, ",", q'⟩ :: (finish ++ [⟨.symbol, ")", r'⟩])), rfl,
    fun calls done => ?_⟩
  refine Gathers.cons (fun _ => collect_list_token rfl) ?_
  refine Gathers.cons (fun _ => collect_list_token rfl) ?_
  refine Gathers.cons (fun _ => collect_list_token rfl) ?_
  refine Gathers.append (htime hstart) fun from' hfrom => ?_
  refine Gathers.cons (fun _ => collect_list_token rfl) ?_
  refine Gathers.append (htime hfinish) fun to' hto => ?_
  refine (Gathers.tokens rfl).mono ?_
  rintro _ rfl
  exact ⟨q, p', q', r', ⟨.keyword, unit, r⟩, from', to', hunit, hfrom, hto, by simp⟩

/-- Operands of a rank with operators between them. -/
theorem gathers_operators {A S : LogSet} {k : Nat}
    (hitem : ∀ done log, A log → Gathers .list calls done log
      (IsMetric scope table (Derives scope table n (k + 1) log) (k + 1)))
    (hoperator : ∀ log, S log → ∃ (op : ArithmeticOp) (p : Nat), op.rank = k ∧
      log = [⟨.symbol, op.symbol, p⟩])
    (h : Chained A (Repeated (Chained S A)) log) :
    Gathers .list calls done log (IsMetric scope table (Derives scope table n k log) k) := by
  obtain ⟨first, _, rfl, hfirst, parts, rfl, hparts⟩ := h
  have hfront := (hitem done first hfirst).mono fun es hes =>
    (hes.weaken (Nat.le_succ k)).mono fun _ hq => hq.weaken
  clear hfirst
  induction parts generalizing first with
  | nil => simpa using hfront
  | cons part parts ih =>
    simp only [List.mem_cons, forall_eq_or_imp] at hparts
    obtain ⟨⟨_, item, rfl, hop, hitem'⟩, hparts⟩ := hparts
    obtain ⟨op, p, hrank, rfl⟩ := hoperator _ hop
    rw [List.flatten_cons, ← List.append_assoc]
    refine ih _ hparts (Gathers.append hfront fun front hes => ?_)
    refine Gathers.cons (fun _ => collect_list_token rfl) ?_
    refine (hitem _ item hitem').mono fun es hes' => ?_
    exact hes.binary p hes' hrank fun left right hleft hright => .binary hrank hleft p hright

variable (hclock : scope.clock.Shows good)
include hclock

theorem gathers_factor
    (hmetric : ∀ done log, Generates Part.body n .metric log →
      ∃ m, n = m + 1 ∧ Gathers .list calls done log
        (IsMetric scope table (Derives scope table m 1 log) 1))
    (h : Produces (Generates Part.body n) metricFactor log) :
    Gathers .list calls done log (IsMetric scope table (Derives scope table n 3 log) 3) := by
  simp only [metricFactor, Produces, ProducesAny, or_false] at h
  rcases h with h | h | h | ⟨value, p, rfl⟩
  · simp only [ProducesAll, Produces, produces_symbol, chained_nil_right] at h
    obtain ⟨_, _, rfl, ⟨p, rfl⟩, inside, _, rfl, hinside, q, rfl⟩ := h
    show Gathers .list calls done (⟨.symbol, "(", p⟩ :: (inside ++ [⟨.symbol, ")", q⟩])) _
    refine Gathers.cons (fun _ => collect_list_token rfl) ?_
    obtain ⟨m, rfl, hgathers⟩ := hmetric _ inside hinside
    refine Gathers.append hgathers fun es hes => ?_
    refine (Gathers.tokens rfl).mono ?_
    rintro _ rfl
    exact (hes.mono fun _ hq => hq.group p q).group p q
  · obtain ⟨p, tail, rfl, htail⟩ := gathers_dateDifference h
    refine gathers_token rfl (htail _) fun es hes => IsMetric.operand (by simp) fun s => ?_
    refine Takes.peekToken (Takes.skip ?_)
    refine Takes.andThen (dateDifference_takes hclock hes) ?_
    rintro _ ⟨unit, start, finish, rfl⟩
    exact Takes.pure ⟨_, .difference h unit start finish, rfl⟩
  · obtain ⟨word, hword, p, tail, rfl, htail⟩ := gathers_call h
    refine gathers_token rfl (htail _) fun es hes => IsMetric.operand (by simp) fun s => ?_
    have hdiff : metricWords.all (· != "DATEDIFF") = true := by decide
    have hother : ¬ (word == "DATEDIFF") = true := by
      simpa using List.all_eq_true.mp hdiff word hword
    refine Takes.peekToken (Takes.skip ?_)
    dsimp only
    rw [if_neg hother]
    exact Takes.andThen (call_takes hclock hword hes) fun _ hc => Takes.pure ⟨_, .call h hc, rfl⟩
  · exact gathers_number

theorem gathers_metric (h : Generates Part.body n .metric log) :
    ∃ m, n = m + 1 ∧ Gathers .list calls done log
      (IsMetric scope table (Derives scope table m 1 log) 1) := by
  induction n generalizing done log with
  | zero => exact h.elim
  | succ n ih =>
    refine ⟨n, rfl, ?_⟩
    simp only [Generates, Part.body, metric, metricTerm] at h
    rw [Produces] at h
    refine gathers_operators (fun done log hlog => ?_) (fun log hop => ?_) h
    · rw [Produces] at hlog
      refine gathers_operators (fun done log hlog => ?_) (fun log hop => ?_) hlog
      · exact gathers_factor hclock (fun done log hlog => ih hlog) hlog
      · simp only [Produces, ProducesAny, produces_symbol, or_false] at hop
        rcases hop with ⟨p, rfl⟩ | ⟨p, rfl⟩
        · exact ⟨.multiply, p, rfl, rfl⟩
        · exact ⟨.divide, p, rfl, rfl⟩
    · simp only [Produces, ProducesAny, produces_symbol, or_false] at hop
      rcases hop with ⟨p, rfl⟩ | ⟨p, rfl⟩
      · exact ⟨.add, p, rfl, rfl⟩
      · exact ⟨.subtract, p, rfl, rfl⟩

/-- The metrics of a log are those of its items. -/
theorem build_yields {lang : Part → LogSet}
    (hitems : ∀ item, lang .metric item → Generates Part.body n .metric item)
    (h : log ≠ [] → Produces lang metrics log) :
    Yields (∀ m ∈ ·, ∃ item k, lang .metric item ∧ n = k + 1 ∧ Derives scope table k 1 item m)
      (build scope table log) := by
  have hlog : log ≠ [] → Gathers .list [] [] log (Separated (IsMetric scope table
      (fun m => ∃ item k, lang .metric item ∧ n = k + 1 ∧ Derives scope table k 1 item m) 1)) := by
    refine fun hempty => Gathers.items (fun done item hitem _ => ?_) (h hempty) (Nat.le_refl _)
    rw [Produces] at hitem
    obtain ⟨k, hk, hgathers⟩ :=
      @gathers_metric scope table _ [] done _ _ hclock (hitems item hitem)
    exact hgathers.mono fun es hes => hes.mono fun m hm => ⟨item, k, hitem, hk, hm⟩
  have hmore : ∀ {P : MetricExpr → Prop} {ms : List MetricExpr} {m : MetricExpr},
      (∀ m ∈ ms, P m) → P m → ∀ x ∈ ms ++ [m], P x := fun hms hm =>
    List.forall_mem_append.mpr ⟨hms, List.forall_mem_singleton.mpr hm⟩
  refine run_items hlog (fun _ h => h.ne_nil) (fun state es p hstate hes => ?_)
    (fun state es hstate hes => ?_) (by simp)
  · refine Takes.bind (expression_takes hes) (fun rest _ => ?_) fun metric hmetric => ?_
    · rintro _ ⟨⟩
      exact ⟨p, rfl⟩
    · exact Takes.andThen (Takes.separator p) fun _ _ => Takes.pure (hmore hstate hmetric)
  · refine Takes.andThen ((expression_takes hes).follows ?_) fun metric hmetric => ?_
    · rintro _ rfl
      exact nofun
    · exact Takes.andThen Takes.noSeparator fun _ _ => Takes.pure (hmore hstate hmetric)

end Logs

end LinkQuery.Metric
