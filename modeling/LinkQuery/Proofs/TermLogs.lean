import LinkQuery.Proofs.Connectives
import LinkQuery.Proofs.Elements
import LinkQuery.Proofs.Terms
/-!
# Reading the logs of terms

The log that the grammar generates for a term of a filter adds the same elements wherever it stands
in the filter, and they are read from end to end. So a term becomes a well-formed tree, or is
refused as invalid.

Main statements:
- `Filter.adds_value`, `Filter.adds_tail`: the elements of values and of tails.
- `Filter.adds_term`: the elements of a term.
-/
namespace LinkQuery.Filter

open Rule Language ElementReader Element
open Time (Timestamp)

variable {lang : Part → LogSet}

/-! ## Tokens of values -/

section Values

variable {calls : List Bool} {log : List Token}

/-- Keywords that stand for themselves, wherever they are. -/
theorem plain_keyword {words : List String} {word : String} (hword : word ∈ words)
    (hall : words.all (fun word => isPlain ⟨.keyword, word, 0⟩) = true) (p : Nat) :
    isPlain ⟨.keyword, word, p⟩ = true :=
  List.all_eq_true.mp hall word hword

theorem argument_of_plain {t : Token} (h : isPlain t = true) : isArgument t = true := by
  simp only [isPlain, Bool.and_eq_true] at h
  exact h.1

theorem offsetLog_arguments (h : OffsetLog log) : ∀ t ∈ log, isArgument t = true := by
  obtain ⟨_, _, rfl, hsign, _, _, rfl, ⟨value, p, rfl⟩, word, hword, q, rfl⟩ := h
  have hunit := argument_of_plain (plain_keyword hword (by decide) q)
  have hnumber : isArgument ⟨.number, value, p⟩ = true := rfl
  rcases hsign with ⟨r, rfl⟩ | ⟨r, rfl⟩
  · have hsign : isArgument ⟨.symbol, "+", r⟩ = true := rfl
    simp [hunit, hnumber, hsign]
  · have hsign : isArgument ⟨.symbol, "-", r⟩ = true := rfl
    simp [hunit, hnumber, hsign]

theorem zoneLog_arguments (h : ZoneLog log) : ∀ t ∈ log, isArgument t = true := by
  rcases h with ⟨value, p, rfl⟩ | ⟨value, p, rfl⟩ <;> exact List.forall_mem_singleton.mpr rfl

theorem comma_arguments {a b : List Token} (ha : ∀ t ∈ a, isArgument t = true) (p : Nat)
    (hb : ∀ t ∈ b, isArgument t = true) :
    ∀ t ∈ a ++ ⟨.symbol, ",", p⟩ :: b, isArgument t = true := by
  intro t ht
  rcases List.mem_append.mp ht with ht | ht
  · exact ha t ht
  · rcases List.mem_cons.mp ht with rfl | ht
    · rfl
    · exact hb t ht

/-- Relative time is a keyword that arguments may follow. -/
theorem relativeTime_call (h : Produces lang relativeTime log) :
    ∃ word p tail, log = ⟨.keyword, word, p⟩ :: tail ∧ isCallWord word = true ∧
      isPlain ⟨.keyword, word, p⟩ = true ∧
      (tail = [] ∨ InParentheses (fun inside => ∀ t ∈ inside, isArgument t = true) tail) := by
  have hmono : ∀ {A : LogSet} {tail : List Token}, (∀ log, A log → ∀ t ∈ log, isArgument t = true) →
      (tail = [] ∨ InParentheses A tail) →
      (tail = [] ∨ InParentheses (fun inside => ∀ t ∈ inside, isArgument t = true) tail) := by
    rintro A tail hA (rfl | ⟨open', _, rfl, hopen, inside, close, rfl, hinside, hclose⟩)
    · exact Or.inl rfl
    · exact Or.inr ⟨open', _, rfl, hopen, inside, close, rfl, hA inside hinside, hclose⟩
  simp only [relativeTime, Produces, ProducesAny, or_false] at h
  rcases h with h | h
  · rw [produces_now, single_chained] at h
    obtain ⟨p, tail, rfl, h⟩ := h
    refine ⟨"NOW", p, tail, rfl, rfl, rfl, hmono (fun inside hinside => ?_) h⟩
    rcases hinside with rfl | hoffset | ⟨zone, _, rfl, hzone, rfl | ⟨_, _, rfl, ⟨q, rfl⟩, hoffset⟩⟩
    · simp
    · exact offsetLog_arguments hoffset
    · simpa using zoneLog_arguments hzone
    · exact comma_arguments (zoneLog_arguments hzone) q (offsetLog_arguments hoffset)
  · rw [produces_period] at h
    obtain ⟨_, tail, rfl, ⟨word, hword, p, rfl⟩, h⟩ := h
    have hcall : periodWords.all isCallWord = true := by decide
    refine ⟨word, p, tail, rfl, List.all_eq_true.mp hcall word hword,
      plain_keyword hword (by decide) p, hmono (fun inside hinside => ?_) h⟩
    have hnumber : ∀ value q, ∀ t ∈ [(⟨.number, value, q⟩ : Token)], isArgument t = true :=
      fun _ _ => List.forall_mem_singleton.mpr rfl
    rcases hinside with rfl | ⟨_, _, rfl, ⟨value, q, rfl⟩, rfl | ⟨_, zone, rfl, ⟨r, rfl⟩, hzone⟩⟩ |
      hzone
    · simp
    · exact hnumber value q
    · exact comma_arguments (hnumber value q) r (zoneLog_arguments hzone)
    · exact zoneLog_arguments hzone

theorem adds_relativeTime (h : Produces lang relativeTime log) :
    Adds .filter calls log (.ok (elements log)) := by
  obtain ⟨word, p, tail, rfl, hcall, hplain, h⟩ := relativeTime_call h
  rcases h with rfl | ⟨_, _, rfl, ⟨q, rfl⟩, inside, _, rfl, hinside, r, rfl⟩
  · exact Adds.plain (List.forall_mem_singleton.mpr hplain)
  · have hadds : Adds .filter calls _ _ :=
      Adds.call p q r hcall hplain (Adds.arguments hinside)
    have helements : elements (⟨.keyword, word, p⟩ :: ([⟨.symbol, "(", q⟩] ++ (inside ++
        [⟨.symbol, ")", r⟩]))) = .token ⟨.keyword, word, p⟩ :: .token ⟨.symbol, "(", q⟩ ::
          (inside.map .token ++ [.token ⟨.symbol, ")", r⟩]) := by simp [elements]
    rw [helements]
    exact hadds

/-- The tokens of relative time stand alone in a list. -/
theorem relativeTime_standsAlone (h : Produces lang relativeTime log) :
    log.all standsAlone = true := by
  have hargument : ∀ t, isArgument t = true → standsAlone t = true := by
    intro t ht
    simp only [isArgument, Bool.and_eq_true] at ht
    exact ht.1.1.1.1
  obtain ⟨word, p, tail, rfl, -, hplain, h⟩ := relativeTime_call h
  refine List.all_eq_true.mpr (List.forall_mem_cons.mpr ⟨hargument _ (argument_of_plain hplain), ?_⟩)
  rcases h with rfl | ⟨_, _, rfl, ⟨q, rfl⟩, inside, _, rfl, hinside, r, rfl⟩
  · simp
  · intro t ht
    simp only [List.mem_append, List.mem_singleton] at ht
    rcases ht with rfl | ht | rfl
    · rfl
    · exact hargument t (hinside t ht)
    · rfl

theorem adds_bound (h : Produces lang Language.bound log) :
    Adds .filter calls log (.ok (elements log)) := by
  simp only [Language.bound, Produces, ProducesAny, produces_symbol, or_false] at h
  rcases h with ⟨p, rfl⟩ | h | ⟨value, p, rfl⟩ | ⟨value, p, rfl⟩ | ⟨value, p, rfl⟩
  case inr.inl => exact adds_relativeTime h
  all_goals exact Adds.plain (List.forall_mem_singleton.mpr rfl)

theorem adds_range (h : Produces lang Language.range log) :
    Adds .filter calls log (.ok (elements log)) := by
  obtain ⟨p, opening, a, q, b, r, close, hopening, hclose, ha, hb, rfl⟩ := Value.produces_range log h
  have hopen : isPlain ⟨.symbol, opening, p⟩ = true := by
    rcases hopening with rfl | rfl <;> rfl
  have hclosed : isPlain ⟨.symbol, close, r⟩ = true := by
    rcases hclose with rfl | rfl <;> rfl
  have hend : Adds .filter calls [(⟨.symbol, close, r⟩ : Token)] (.ok [.token ⟨.symbol, close, r⟩]) :=
    Adds.plain (List.forall_mem_singleton.mpr hclosed)
  have hto : Adds .filter calls (⟨.keyword, "TO", q⟩ :: (b ++ [⟨.symbol, close, r⟩]))
      (.ok (.token ⟨.keyword, "TO", q⟩ :: (elements b ++ [.token ⟨.symbol, close, r⟩]))) :=
    Adds.cons (fun _ _ => collect_plain rfl) ((adds_bound hb).append hend)
  simp only [elements_append, elements_cons, elements_nil]
  exact Adds.cons (fun _ _ => collect_plain hopen) ((adds_bound ha).append hto)

/-- A value other than null. -/
theorem adds_value (h : Produces lang Language.value log)
    (hnull : ¬ Single .keyword "NULL" log) : Adds .filter calls log (.ok (elements log)) := by
  simp only [Language.value, Produces, ProducesAny, or_false] at h
  rcases h with h | h | h | ⟨value, p, rfl⟩ | ⟨value, p, rfl⟩ | ⟨value, p, rfl⟩
  · exact absurd h hnull
  · exact adds_range h
  · exact adds_relativeTime h
  all_goals exact Adds.plain (List.forall_mem_singleton.mpr rfl)

end Values

/-! ## Tails -/

section Tails

variable {clock : Clock} {good : Timestamp → Prop} {log : List Token}

theorem Behind.without {accept : Token → Bool} {rest : List Element} (h : Behind rest)
    (hand : ∀ p, accept (.ofKeyword "AND" p) = false)
    (hor : ∀ p, accept (.ofKeyword "OR" p) = false)
    (hclose : ∀ p, accept ⟨.symbol, ")", p⟩ = false) : Without accept rest := by
  intro t ht
  obtain ⟨p, heq | heq | heq⟩ := h _ ht
  · cases heq
    exact hand p
  · cases heq
    exact hor p
  · cases heq
    exact hclose p

theorem Behind.notOpening {rest : List Element} (h : Behind rest) : NotOpening rest :=
  h.without (fun _ => rfl) (fun _ => rfl) (fun _ => rfl)

/-- The log of a comparison operator. -/
theorem compareOp_token (h : Produces lang Language.compareOp log) :
    ∃ (op : CompareOp) (p : Nat), log = [⟨.symbol, op.symbol, p⟩] ∧
      CompareOp.ofSymbol? op.symbol = some op := by
  simp only [Language.compareOp, Produces, ProducesAny, produces_symbol, or_false] at h
  rcases h with ⟨p, rfl⟩ | ⟨p, rfl⟩ | ⟨p, rfl⟩ | ⟨p, rfl⟩ | ⟨p, rfl⟩ | ⟨p, rfl⟩
  · exact ⟨.eq, p, rfl, rfl⟩
  · exact ⟨.contains, p, rfl, rfl⟩
  · exact ⟨.lt, p, rfl, rfl⟩
  · exact ⟨.le, p, rfl, rfl⟩
  · exact ⟨.gt, p, rfl, rfl⟩
  · exact ⟨.ge, p, rfl, rfl⟩

theorem compareOp_plain (op : CompareOp) (p : Nat) :
    isPlain ⟨.symbol, op.symbol, p⟩ = true := by
  cases op <;> rfl

theorem collect_comparedNull {calls : List Bool} (op : CompareOp) (p q : Nat) (done : List Element)
    (rest : List Token) :
    collect .filter calls done (⟨.symbol, op.symbol, p⟩ :: ⟨.keyword, "NULL", q⟩ :: rest) =
      collect .filter calls
        (addNull (.token ⟨.symbol, op.symbol, p⟩ :: done) ⟨.keyword, "NULL", q⟩) rest :=
  (collect_plain (compareOp_plain op p)).trans (collect_null q)

/-- Only an equality and `NULL` are put together to one element. -/
theorem addNull_compareOp {op : CompareOp} (hop : op ≠ .eq) (p q : Nat) (done : List Element) :
    addNull (.token ⟨.symbol, op.symbol, p⟩ :: done) ⟨.keyword, "NULL", q⟩ =
      .token ⟨.keyword, "NULL", q⟩ :: .token ⟨.symbol, op.symbol, p⟩ :: done := by
  cases op with
  | eq => exact absurd rfl hop
  | contains | lt | le | gt | ge => rfl

/-- The elements of a tail: a test for null, or an operator and a value. -/
def TailElements (lang : Part → LogSet) (es : List Element) : Prop :=
  es = [] ∨ (∃ p, es = [.token (.ofMarker .isNull p)]) ∨
    (∃ p, es = [.token (.ofMarker .isNotNull p)]) ∨
    ∃ (op : CompareOp) (p : Nat) (log : List Token), Produces lang Language.value log ∧
      CompareOp.ofSymbol? op.symbol = some op ∧
      es = .token ⟨.symbol, op.symbol, p⟩ :: elements log

theorem path_not_mem_elements {path : Path} {log : List Token} : ¬ .path path ∈ elements log := by
  simp [elements]

/-- No path stands in a tail. -/
theorem TailElements.path_not_mem {es : List Element} (h : TailElements lang es) (path : Path) :
    ¬ .path path ∈ es := by
  rcases h with rfl | ⟨p, rfl⟩ | ⟨p, rfl⟩ | ⟨op, p, log, -, -, rfl⟩ <;>
    simp [path_not_mem_elements]

theorem adds_tail (h : log = [] ∨ Produces lang clauseTail log) :
    ∃ es, TailElements lang es ∧ ∀ calls, Adds .filter calls log (.ok es) := by
  rcases h with rfl | h
  · exact ⟨[], Or.inl rfl, fun calls => Adds.nil⟩
  simp only [clauseTail, Produces, ProducesAny, ProducesAll, or_false, chained_nil_right] at h
  rcases h with ⟨_, _, rfl, ⟨p, rfl⟩, _, _, rfl, rfl | ⟨q, rfl⟩, r, rfl⟩ |
    ⟨_, value, rfl, hop, hvalue⟩
  · exact ⟨_, Or.inr (Or.inl ⟨p, rfl⟩), fun calls done rest => collect_isNull p r⟩
  · exact ⟨_, Or.inr (Or.inr (Or.inl ⟨p, rfl⟩)), fun calls done rest => collect_isNotNull p q r⟩
  · obtain ⟨op, p, rfl, hsymbol⟩ := compareOp_token hop
    by_cases hnull : Single .keyword "NULL" value
    · obtain ⟨q, rfl⟩ := hnull
      by_cases heq : op = .eq
      · subst heq
        exact ⟨_, Or.inr (Or.inl ⟨q, rfl⟩), fun _ => collect_comparedNull .eq p q⟩
      · refine ⟨_, Or.inr (Or.inr (Or.inr ⟨op, p, _, hvalue, hsymbol, rfl⟩)),
          fun calls done rest => ?_⟩
        refine (collect_comparedNull op p q done rest).trans ?_
        rw [addNull_compareOp heq]
        rfl
    · exact ⟨_, Or.inr (Or.inr (Or.inr ⟨op, p, value, hvalue, hsymbol, rfl⟩)),
        fun calls => Adds.cons (fun _ _ => collect_plain (compareOp_plain op p))
          (adds_value hvalue hnull)⟩

/-- Reading a tail. -/
theorem tail_takes (hclock : clock.Shows good) {es : List Element} (h : TailElements lang es) :
    Takes (Tail.read clock) es Behind (Tail.Good good) := by
  unfold Tail.read
  rcases h with rfl | ⟨p, rfl⟩ | ⟨p, rfl⟩ | ⟨op, p, log, hvalue, hsymbol, rfl⟩
  · refine Takes.tokenIf_not (fun rest h => h.without (fun _ => rfl) (fun _ => rfl) fun _ => rfl) ?_
    refine Takes.tokenIf_not (fun rest h => h.without (fun _ => rfl) (fun _ => rfl) fun _ => rfl) ?_
    have hoperator : ∀ rest, Behind rest → Without (fun t => (Tail.operator? t).isSome) rest :=
      fun rest h => h.without (fun _ => rfl) (fun _ => rfl) fun _ => rfl
    refine Takes.peekToken_not hoperator (fun found hfound => ?_)
      (Takes.pure (a := Tail.bare) (P := Tail.Good good) trivial)
    have hnone : found.bind Tail.operator? = none := by
      cases found with
      | none => rfl
      | some t => simpa using hfound t rfl
    rw [hnone]
  · exact Takes.tokenIf rfl (Takes.pure (a := Tail.missing) (P := Tail.Good good) trivial)
  · refine Takes.tokenIf_not (fun _ _ => Without.cons rfl) ?_
    exact Takes.tokenIf rfl (Takes.pure (a := Tail.present) (P := Tail.Good good) trivial)
  · refine Takes.tokenIf_not (fun _ _ => Without.cons rfl) ?_
    refine Takes.tokenIf_not (fun _ _ => Without.cons rfl) ?_
    refine Takes.peekToken ?_
    have hop : Tail.operator? ⟨.symbol, op.symbol, p⟩ = some op := by
      simp [Tail.operator?, hsymbol]
    simp only [Option.bind_some, hop]
    refine Takes.skip ?_
    exact Takes.andThen ((Value.read_takes hclock hvalue).follows fun _ h => Behind.notOpening h)
      fun value hgood => Takes.pure (a := Tail.compare op value) hgood

/-- Reading what a count is compared with. -/
theorem countTest_takes (hclock : clock.Shows good) {op : CompareOp} (p : Nat)
    (hop : CompareOp.ofSymbol? op.symbol = some op) (h : Produces lang Language.value log) :
    Takes (CountTest.read clock) (.token ⟨.symbol, op.symbol, p⟩ :: elements log) Behind
      CountTest.Good := by
  unfold CountTest.read
  refine Takes.nextToken ?_
  simp only [hop]
  exact Takes.andThen ((Value.read_takes hclock h).follows fun _ h => Behind.notOpening h)
    fun value _ => Takes.lift (CountTest.ofValue_yields op value)

end Tails

/-! ## Terms -/

section Terms

variable {scope : Scope} {table : String} {good : Timestamp → Prop} {n limit : Nat}
  {log : List Token}

/-- The elements are a term: its paths are proper, and it is read from end to end when the filters
inside them can be built. -/
def IsTerm (scope : Scope) (table : String) (good : Timestamp → Prop) (inner : LogSet) :
    ListSet Element :=
  fun es => ∃ e tail, es = e :: tail ∧ Glue.ofElement? e = none ∧
    (∀ p, .path p ∈ es → p.Proper inner) ∧
    ∀ nested : Nested, nested.Builds scope.schema good inner →
      Takes (term scope nested table e) tail Behind (Query.WellFormed scope.schema good table)

/-- The rule of a term. -/
def termRule : PartRule :=
  .choice [Language.pathComparison, countTerm "DCOUNT", countTerm "COUNT",
    .sequence [path, .optional clauseTail]]

/-- The logs of terms. -/
def TermLog : LogSet :=
  fun log => ∃ n, Produces (Generates Part.body n) termRule log

/-- Wherever the log stands in a filter, it is the same term. -/
def AddsTerm (scope : Scope) (table : String) (good : Timestamp → Prop) (inner : LogSet)
    (log : List Token) : Prop :=
  ∃ v, (∀ calls, Adds .filter calls log v) ∧ Yields (IsTerm scope table good inner) v

theorem countedPath_takes {path : Path} {p q : Nat} {follow : List Element → Prop} :
    Takes countedPath [.token ⟨.symbol, "(", p⟩, .path path, .token ⟨.symbol, ")", q⟩] follow
      (· = path) := by
  unfold countedPath
  exact Takes.symbol rfl (Takes.nextPath (Takes.symbol rfl (Takes.pure rfl)))

/-- The logs of what a count is compared with are logs of values. -/
theorem produces_count (h : Produces lang (.choice [range, .number]) log) :
    Produces lang Language.value log ∧ ¬ Single .keyword "NULL" log := by
  simp only [Produces, ProducesAny, or_false] at h
  refine ⟨?_, ?_⟩
  · simp only [Language.value, Produces, ProducesAny, or_false]
    rcases h with h | h
    · exact Or.inr (Or.inl h)
    · exact Or.inr (Or.inr (Or.inr (Or.inr (Or.inl h))))
  · rintro ⟨p, rfl⟩
    rcases h with h | ⟨value, q, hq⟩
    · obtain ⟨_, _, _, _, _, _, _, -, -, -, -, hlog⟩ := Value.produces_range _ h
      simp at hlog
    · simp at hq

/-- A comparison of two paths. -/
theorem adds_pathComparison (h : Produces (Generates Part.body n) Language.pathComparison log)
    (hlimit : log.length ≤ limit) : AddsTerm scope table good (Path.InnerLog limit) log := by
  simp only [Language.pathComparison, Produces, ProducesAll, produces_symbol, produces_keywords,
    chained_nil_right] at h
  obtain ⟨_, _, rfl, ⟨word, hword, p, rfl⟩, _, _, rfl, ⟨q, rfl⟩, first, _, rfl, hfirst, _, _, rfl,
    ⟨r, rfl⟩, second, _, rfl, hsecond, p', rfl⟩ := h
  simp only [List.length_append, List.length_cons] at hlimit
  have hwords : pathOperatorWords.all (fun word => isCallWord word && (word != "COUNT") &&
      (word != "DCOUNT") && (PathOp.ofKeyword? word).isSome &&
      (Glue.ofToken? ⟨.keyword, word, 0⟩).isNone) = true := by decide
  have hone := List.all_eq_true.mp hwords word hword
  simp only [Bool.and_eq_true, bne_iff_ne, ne_eq, Option.isSome_iff_exists,
    Option.isNone_iff_eq_none] at hone
  obtain ⟨⟨⟨⟨hcall, hcount⟩, hdcount⟩, op, hop⟩, hglue⟩ := hone
  obtain ⟨v, hleft, hv⟩ := adds_path limit hfirst (by omega)
  obtain ⟨w, hright, hw⟩ := adds_path limit hsecond (by omega)
  have hlog : [(⟨.keyword, word, p⟩ : Token)] ++ ([⟨.symbol, "(", q⟩] ++ (first ++
      ([⟨.symbol, ",", r⟩] ++ (second ++ [⟨.symbol, ")", p'⟩])))) =
      ⟨.keyword, word, p⟩ :: ⟨.symbol, "(", q⟩ ::
        ((first ++ ([⟨.symbol, ",", r⟩] ++ second)) ++ [⟨.symbol, ")", p'⟩]) := by simp
  rw [hlog]
  refine ⟨_, fun calls => Adds.call p q p' hcall (plain_keyword hword (by decide) p)
    ((hleft _ _).append ((Adds.arguments (List.forall_mem_singleton.mpr rfl)).append
      (hright _ _))), ?_⟩
  refine Yields.map (P := fun es => ∃ left right : Path, left.Proper (Path.InnerLog limit) ∧
    right.Proper (Path.InnerLog limit) ∧
    es = [.path left, .token ⟨.symbol, ",", r⟩, .path right]) ?_ ?_
  · refine hv.bind ?_
    rintro _ ⟨left, hleftProper, rfl⟩
    refine Yields.bind (P := fun es => ∃ right : Path, right.Proper (Path.InnerLog limit) ∧
      es = [.token ⟨.symbol, ",", r⟩, .path right]) (hw.bind ?_) ?_
    · rintro _ ⟨right, hproper, rfl⟩
      exact ⟨right, hproper, rfl⟩
    · rintro _ ⟨right, hproper, rfl⟩
      exact ⟨left, right, hleftProper, hproper, rfl⟩
  · rintro _ ⟨left, right, hleftProper, hproper, rfl⟩
    refine ⟨_, _, rfl, hglue, ?_, fun nested _ => ?_⟩
    · intro path hpath
      simp only [List.cons_append, List.nil_append, List.mem_cons, reduceCtorEq, Element.path.injEq,
        List.not_mem_nil, or_false, false_or] at hpath
      rcases hpath with rfl | rfl
      · exact hleftProper
      · exact hproper
    · show Takes (call scope nested table word) _ _ _
      unfold call
      rw [if_neg (by simpa using hcount), if_neg (by simpa using hdcount), hop]
      refine Takes.symbol rfl (Takes.nextPath ?_)
      refine Takes.symbol rfl (Takes.nextPath ?_)
      exact Takes.symbol rfl (Takes.lift pathComparison_yields)

variable (hclock : scope.clock.Shows good)
include hclock

/-- A path with a tail. -/
theorem adds_pathTerm
    (h : Produces (Generates Part.body n) (.sequence [path, .optional clauseTail]) log)
    (hlimit : log.length ≤ limit) : AddsTerm scope table good (Path.InnerLog limit) log := by
  simp only [Produces, ProducesAll, chained_nil_right] at h
  obtain ⟨front, tail, rfl, hpath, htail⟩ := h
  simp only [List.length_append] at hlimit
  obtain ⟨v, hfront, hv⟩ := adds_path limit hpath (by omega)
  obtain ⟨es, hes, htail⟩ := adds_tail htail
  refine ⟨_, fun calls => (hfront .filter calls).append (htail calls), ?_⟩
  refine hv.bind ?_
  rintro _ ⟨start, hproper, rfl⟩
  refine ⟨_, _, rfl, rfl, ?_, fun nested hnested => ?_⟩
  · intro p hp
    rcases List.mem_cons.mp hp with heq | hp
    · obtain rfl := Element.path.inj heq
      exact hproper
    · exact absurd hp (hes.path_not_mem p)
  · show Takes (Tail.read scope.clock >>= _) es Behind _
    exact Takes.andThen (tail_takes hclock hes)
      fun tail htail => Takes.lift (termQuery_yields hnested hproper htail)

/-- A count along a path. -/
theorem adds_countTerm {word : String} (hword : word = "COUNT" ∨ word = "DCOUNT")
    (h : Produces (Generates Part.body n) (countTerm word) log) (hlimit : log.length ≤ limit) :
    AddsTerm scope table good (Path.InnerLog limit) log := by
  simp only [countTerm, Produces, ProducesAll, produces_symbol, chained_nil_right] at h
  obtain ⟨_, _, rfl, ⟨p, rfl⟩, _, _, rfl, ⟨q, rfl⟩, inside, _, rfl, hpath, _, _, rfl, ⟨r, rfl⟩,
    _, count, rfl, hop, hcount⟩ := h
  obtain ⟨op, p', rfl, hsymbol⟩ := compareOp_token hop
  obtain ⟨hvalue, hnull⟩ := produces_count hcount
  simp only [List.length_append, List.length_cons] at hlimit
  obtain ⟨v, hinside, hv⟩ := adds_path limit hpath (by omega)
  have hcall : isCallWord word = true ∧ isPlain ⟨.keyword, word, p⟩ = true := by
    rcases hword with rfl | rfl <;> exact ⟨rfl, rfl⟩
  have hlog : [(⟨.keyword, word, p⟩ : Token)] ++ ([⟨.symbol, "(", q⟩] ++ (inside ++
      ([⟨.symbol, ")", r⟩] ++ ([⟨.symbol, op.symbol, p'⟩] ++ count)))) =
      (⟨.keyword, word, p⟩ :: ⟨.symbol, "(", q⟩ :: (inside ++ [⟨.symbol, ")", r⟩])) ++
        ⟨.symbol, op.symbol, p'⟩ :: count := by simp
  rw [hlog]
  refine ⟨_, fun calls => (Adds.call p q r hcall.1 hcall.2 (hinside _ _)).append
    (Adds.cons (fun _ _ => collect_plain (compareOp_plain op p')) (adds_value hvalue hnull)), ?_⟩
  refine Yields.bind (P := fun es => ∃ counted : Path, counted.Proper (Path.InnerLog limit) ∧
    es = [.token ⟨.keyword, word, p⟩, .token ⟨.symbol, "(", q⟩, .path counted,
      .token ⟨.symbol, ")", r⟩]) (hv.map ?_) ?_
  · rintro _ ⟨counted, hproper, rfl⟩
    exact ⟨counted, hproper, rfl⟩
  rintro _ ⟨counted, hproper, rfl⟩
  have hread : ∀ k : Path → CountTest → Except QueryError Query,
      (∀ count, count.Good → Yields (Query.WellFormed scope.schema good table) (k counted count)) →
      Takes (do
        let counted ← countedPath
        let count ← CountTest.read scope.clock
        ElementReader.lift (k counted count))
        ([.token ⟨.symbol, "(", q⟩, .path counted, .token ⟨.symbol, ")", r⟩] ++
          (.token ⟨.symbol, op.symbol, p'⟩ :: elements count)) Behind
        (Query.WellFormed scope.schema good table) := by
    intro k hk
    refine Takes.bindAnything countedPath_takes ?_
    rintro _ rfl
    exact Takes.andThen (countTest_takes hclock p' hsymbol hvalue)
      fun count hcount => Takes.lift (hk count hcount)
  refine ⟨_, _, rfl, ?_, ?_, fun nested hnested => ?_⟩
  · rcases hword with rfl | rfl <;> rfl
  · intro other hother
    simp only [List.cons_append, List.nil_append, List.mem_cons, reduceCtorEq, Element.path.injEq,
      path_not_mem_elements, or_false, false_or] at hother
    exact hother ▸ hproper
  · rcases hword with rfl | rfl
    · exact hread _ fun count hcount => termQuery_yields hnested hproper hcount
    · exact hread _ fun count hcount => distinctCount_yields hcount

/-- A term. -/
theorem adds_term (h : TermLog log) (hlimit : log.length ≤ limit) :
    AddsTerm scope table good (Path.InnerLog limit) log := by
  obtain ⟨n, h⟩ := h
  simp only [termRule, Produces, ProducesAny, or_false] at h
  rcases h with h | h | h | h
  · exact adds_pathComparison h hlimit
  · exact adds_countTerm hclock (Or.inr rfl) h hlimit
  · exact adds_countTerm hclock (Or.inl rfl) h hlimit
  · exact adds_pathTerm hclock (by simpa only [Produces] using h) hlimit

end Terms

end LinkQuery.Filter
