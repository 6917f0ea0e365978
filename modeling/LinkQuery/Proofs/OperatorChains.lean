import LinkQuery.Proofs.AcceptedTexts
import LinkQuery.Proofs.MetricLogs
import LinkQuery.Proofs.TokenTexts
/-!
# Chains of operators

A chain of operators needs one level to be matched however long it is, and each operator of the
chain takes the whole chain in front of it as its left operand.

Main statements:
- `Metric.acceptsAt_ones`: ones with plus signs between them are a list of metrics at every limit.
- `Compiler.metrics_ones`: what they compile to.
-/
namespace LinkQuery

open Rule Language ElementReader OperatorStacks

namespace Metric

/-! ## Texts -/

/-- Ones behind plus signs. -/
def moreOnes : Nat → List Char
  | 0 => []
  | n + 1 => '+' :: '1' :: moreOnes n

/-- The sum of a one and of more ones. -/
def onesText (n : Nat) : String := .ofList ('1' :: moreOnes n)

/-- What the tokens of ones behind plus signs say. -/
def moreOnesLexemes : Nat → List Lexeme
  | 0 => []
  | n + 1 => (.symbol, "+") :: (.number, "1") :: moreOnesLexemes n

variable {levels n : Nat}

theorem endsNumber_moreOnes : EndsNumber (moreOnes n) := by
  cases n with
  | zero => exact ⟨nofun, nofun⟩
  | succ n =>
    refine ⟨?_, by simp [moreOnes]⟩
    rintro _ ⟨⟩
    decide

/-- A one in front of plus signs is a whole term. -/
theorem acceptsAt_one : AcceptsAt Part.body levels metricTerm ('1' :: moreOnes n) (moreOnes n)
    [(.number, "1")] := by
  have hnumber : AcceptsAt Part.body levels .number ('1' :: moreOnes n) (moreOnes n)
      [(.number, "1")] :=
    @AcceptsAt.number _ _ _ _ _ ['1'] rfl (.whole (by simp) (by simp)) endsNumber_moreOnes
  have hother : ∀ rule : PartRule, mayBegin (namesMayBegin Part.body 0) rule (some '1') = false →
      RejectsAt Part.body levels rule ('1' :: moreOnes n) :=
    fun rule => rejectsAt_of_front (Nat.zero_le _) rfl
  have hfactor : AcceptsAt Part.body levels metricFactor ('1' :: moreOnes n) (moreOnes n)
      [(.number, "1")] :=
    AcceptsAt.choiceTail (hother _ (by decide)) <| AcceptsAt.choiceTail (hother _ (by decide)) <|
      AcceptsAt.choiceTail (hother _ (by decide)) <| AcceptsAt.choiceHead hnumber
  refine AcceptsAt.list (b := []) hfactor (RepeatsAt.listNone ?_)
  cases n with
  | zero => exact rejectsAt_of_front (Nat.zero_le _) rfl (by decide)
  | succ n => exact rejectsAt_of_front (c := some '+') (Nat.zero_le _) rfl (by decide)

theorem repeatsAt_moreOnes : RepeatsAt levels
    (listStep Part.body metricTerm (.choice [symbol "+", symbol "-"]) levels) (moreOnes n) []
    (moreOnesLexemes n) := by
  induction n with
  | zero => exact RepeatsAt.listNone (rejectsAt_of_front (Nat.zero_le _) rfl (by decide))
  | succ n ih =>
    have hplus : AcceptsAt Part.body levels (.choice [symbol "+", symbol "-"])
        (moreOnes (n + 1)) ('1' :: moreOnes n) [(.symbol, "+")] :=
      AcceptsAt.choiceHead (AcceptsAt.literal rfl)
    refine RepeatsAt.listMore (a := [(.symbol, "+"), (.number, "1")])
      (hplus.seq (acceptsAt_one.seq AcceptsAt.seqNil)) ?_ ih
    simp only [moreOnes, List.length_cons]
    omega

/-- One level is enough for a chain of any length. -/
theorem acceptsAt_ones : AcceptsAt Part.body (levels + 1) metrics (onesText n).toList []
    ((.number, "1") :: moreOnesLexemes n) := by
  have hmetric : AcceptsAt Part.body levels metric ('1' :: moreOnes n) []
      ((.number, "1") :: moreOnesLexemes n) := AcceptsAt.list acceptsAt_one repeatsAt_moreOnes
  rw [onesText, String.toList_ofList]
  have hitem : AcceptsAt Part.body (levels + 1) (.nonterminal .metric) ('1' :: moreOnes n) []
      ((.number, "1") :: moreOnesLexemes n) := AcceptsAt.nonterminal hmetric
  have hend : RepeatsAt (levels + 1)
      (listStep Part.body (.nonterminal .metric) (symbol ",") (levels + 1)) [] [] [] :=
    RepeatsAt.listNone (rejectsAt_of_front (Nat.zero_le _) rfl (by decide))
  have hall := AcceptsAt.list hitem hend
  rwa [List.append_nil] at hall

theorem pathDepth_ones :
    TokenLog.pathDepth (Lexeme.placed ((.number, "1") :: moreOnesLexemes n)) = 0 := by
  have hmore : (Lexeme.placed (moreOnesLexemes n)).foldl TokenLog.Depth.step .zero = .zero := by
    induction n with
    | zero => rfl
    | succ n ih => exact ih
  exact congrArg TokenLog.Depth.deepest hmore

/-! ## Metrics -/

/-- Ones added to a metric, one by one. -/
def addOnes (one q : MetricExpr) : Nat → MetricExpr
  | 0 => q
  | n + 1 => addOnes one (.binary .add q one) n

variable {scope : Filter.Scope} {table : String} {one : Decimal}

/-- The round of a number. -/
theorem step_number {text : String} {value : Decimal} {s : Stacks} (p : Nat)
    (h : decimalOf text = .ok value) (rest : List Element) :
    step scope table s (.token ⟨.number, text, p⟩ :: rest) =
      .ok (.more (s.push (.number value)), rest) := by
  show ((decimalOf text).map _ >>= _ : Except QueryError _) = _
  rw [h]
  rfl

/-- Ones behind a metric are added to it one by one. -/
theorem loop_moreOnes (hone : decimalOf "1" = .ok one) {log : List Token}
    (hlog : log.map Token.lexeme = moreOnesLexemes n) {q : MetricExpr} {s : Stacks}
    (h : Lands apply ArithmeticOp.rank 1 OperatorStacks.empty q s) :
    ∃ t, Lands apply ArithmeticOp.rank 1 OperatorStacks.empty (addOnes (.number one) q n) t ∧
      loop (step scope table) s (log.map .token) = .ok (t, []) := by
  induction n generalizing log q s with
  | zero =>
    obtain rfl := List.map_eq_nil_iff.mp hlog
    exact ⟨s, h, loop_metricEnd nofun⟩
  | succ n ih =>
    obtain ⟨⟨_, _, p⟩, _, rfl, ⟨⟩, hbehind⟩ := List.map_eq_cons_iff.mp hlog
    obtain ⟨⟨_, _, p'⟩, more, rfl, ⟨⟩, hmore⟩ := List.map_eq_cons_iff.mp hbehind
    obtain ⟨hplus, hsum⟩ := h.connected (Clear.of_nil rfl) (rfl : ArithmeticOp.add.rank = 1)
      (show apply .add [.number one, q] = .ok [.binary .add q (.number one)] from rfl)
    obtain ⟨t, ht, hread⟩ := ih hmore (hsum _ (Lands.push (Clear.waiting (by decide))))
    refine ⟨t, ht, ?_⟩
    exact (loop_round (a := [_]) (step_operator p hplus _) (by simp)).trans
      ((loop_round (a := [_]) (step_number p' hone _) (by simp)).trans hread)

theorem expression_ones (hone : decimalOf "1" = .ok one) {log : List Token}
    (hlog : log.map Token.lexeme = (.number, "1") :: moreOnesLexemes n) :
    expression scope table (log.map .token) =
      .ok (addOnes (.number one) (.number one) n, []) := by
  obtain ⟨⟨_, _, p⟩, more, rfl, ⟨⟩, hmore⟩ := List.map_eq_cons_iff.mp hlog
  obtain ⟨t, ht, hread⟩ := @loop_moreOnes n scope table one hone more hmore _ _
    (Lands.push (q := .number one) (Clear.of_nil rfl))
  have hloop : loop (step scope table) .empty ((⟨.number, "1", p⟩ :: more).map .token) = .ok (t, []) :=
    (loop_round (a := [_]) (step_number p hone _) (by simp)).trans hread
  exact expression_of_lands hloop ht

theorem standsAlone_of_ones {log : List Token}
    (hlog : log.map Token.lexeme = (.number, "1") :: moreOnesLexemes n) :
    ∀ t ∈ log, Element.standsAlone t = true := by
  have hlexemes : ∀ n, ∀ l ∈ moreOnesLexemes n, l = (.number, "1") ∨ l = (.symbol, "+") := by
    intro n
    induction n with
    | zero => simp [moreOnesLexemes]
    | succ n ih => simpa [moreOnesLexemes] using ih
  rintro ⟨kind, value, p⟩ ht
  have hmem : (kind, value) ∈ (.number, "1") :: moreOnesLexemes n :=
    hlog ▸ List.mem_map_of_mem ht
  have hone : (kind, value) = (.number, "1") ∨ (kind, value) = (.symbol, "+") :=
    (List.mem_cons.mp hmem).elim Or.inl (hlexemes n _)
  rcases hone with heq | heq <;>
  · obtain ⟨rfl, rfl⟩ := Prod.mk.inj heq
    rfl

/-- The log of a sum of ones holds the sum. -/
theorem build_ones (hone : decimalOf "1" = .ok one) {log : List Token}
    (hlog : log.map Token.lexeme = (.number, "1") :: moreOnesLexemes n) :
    build scope table log = .ok [addOnes (.number one) (.number one) n] := by
  have helements : Element.ofTokens .list log = .ok (log.map .token) :=
    (Element.Adds.each fun t ht done rest =>
      Element.collect_list_token (standsAlone_of_ones hlog t ht)).ofTokens
  have hne : log.map Element.token ≠ [] := by
    rintro hnil
    obtain rfl := List.map_eq_nil_iff.mp hnil
    cases hlog
  have hround : (do
        let metric ← expression scope table
        separator .metricSeparator
        return [] ++ [metric] : ElementReader (List MetricExpr)) (log.map .token ++ []) =
      .ok ([addOnes (.number one) (.number one) n], []) := by
    show (expression scope table _ >>= fun x => _) = _
    rw [List.append_nil, expression_ones hone hlog]
    rfl
  have hread : untilEnd (fun metrics => do
        let metric ← expression scope table
        separator .metricSeparator
        return metrics ++ [metric]) [] (log.map .token ++ []) =
      .ok ([addOnes (.number one) (.number one) n], []) :=
    (untilEnd_more hround hne).trans untilEnd_nil
  rw [List.append_nil] at hread
  unfold build ElementReader.run
  rw [helements]
  show (untilEnd _ _ _ >>= fun x => _) = _
  rw [hread]
  rfl

end Metric

namespace Compiler

open Metric (onesText addOnes)

variable {c : Compiler} {table : String}

theorem settleMetric_addOnes {one : Decimal} (n : Nat) {q : MetricExpr}
    (h : c.settleMetric table q = .ok q) :
    c.settleMetric table (addOnes (.number one) q n) = .ok (addOnes (.number one) q n) := by
  induction n generalizing q with
  | zero => exact h
  | succ n ih =>
    refine ih ?_
    rw [settleMetric, h]
    rfl

/-- A sum of ones compiles at every nesting limit, to a chain of additions. -/
theorem metrics_ones (table : String) {scope : Filter.Scope} (hscope : c.scope = .ok scope) {n : Nat}
    (hlength : (onesText n).length ≤ c.settings.maxLength) (hnesting : 1 ≤ c.settings.maxNesting) :
    ∃ one, c.metrics table (onesText n) = .ok [addOnes (.number one) (.number one) n] := by
  obtain ⟨one, hone⟩ : ∃ one, Metric.decimalOf "1" = .ok one := ⟨_, rfl⟩
  obtain ⟨levels, hlevels⟩ : ∃ levels, c.settings.maxNesting = levels + 1 :=
    ⟨c.settings.maxNesting - 1, by omega⟩
  have hblank : Text.isBlankText (onesText n) = false := by
    rw [Text.isBlankText, onesText, String.toList_ofList]
    rfl
  have htext : AcceptsAt Part.body c.settings.maxNesting ExpressionKind.aggregationMetric.rule
      (onesText n).toList [] ((.number, "1") :: Metric.moreOnesLexemes n) :=
    hlevels ▸ Metric.acceptsAt_ones
  obtain ⟨log, hlog, hread⟩ := TokenLog.ofText_of_acceptsAt hblank htext hlength
    (by rw [Metric.pathDepth_ones]; exact Nat.zero_le _)
  refine ⟨one, ?_⟩
  have hbuild : c.buildMetrics table log = .ok [addOnes (.number one) (.number one) n] := by
    rw [buildMetrics, hscope]
    exact Metric.build_ones hone hlog
  have hsettle : c.settleMetric table (addOnes (.number one) (.number one) n) =
      .ok (addOnes (.number one) (.number one) n) := settleMetric_addOnes n rfl
  rw [metrics, Compiler.log, hread]
  show (c.buildMetrics table log >>= fun found => _) = _
  rw [hbuild]
  show [_].mapM (c.settleMetric table) = _
  rw [List.mapM_cons, hsettle]
  rfl

end Compiler

end LinkQuery
