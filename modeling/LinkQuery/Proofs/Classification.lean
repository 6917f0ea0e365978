import LinkQuery.Proofs.SpelledOut
import LinkQuery.Proofs.TermPhrases
/-!
# Connectives are read as they were matched

The elements of a filter are read off its log with a stack of open parentheses and a look at the
element in front of each. The grammar knows better what a comma is: the separator between two
alternatives, or one inside a call. Both agree. So spelling out the connectives and the tests for
null, in the filters inside paths as well, leaves the tree of the filter as it is.

Main statements:
- `Element.Classified`: the elements of a matched log, by what its tokens were matched as.
- `Filter.matches_term`: a term has such elements, and spelled out it has the same tree.
-/
namespace LinkQuery

open Rule Language ElementReader

namespace Element

/-! ## Elements by what was matched -/

/-- The elements between the parentheses of a call: paths, and tokens that separate nothing in a
list. Its commas are commas. -/
inductive Arguments : List Matched → List Element → Prop
  | nil : Arguments [] []
  | token {t : Token} {m : List Matched} {es : List Element} (h : isArgument t = true)
    (hrest : Arguments m es) : Arguments (⟨t, false⟩ :: m) (.token t :: es)
  | path {log m : List Matched} {p : Path} {es : List Element} (h : IsPathLog log p)
    (hrest : Arguments m es) : Arguments (log ++ m) (.path p :: es)

/-- The keywords of the calls that have commas between their arguments. -/
def argumentWords : List String := "NOW" :: (pathOperatorWords ++ periodWords)

/-- The elements of a matched log. A comma that separates the items of a list becomes `OR`; any
other comma stands inside the call of a path operator, the present or a period, and stays. -/
inductive Classified : List Matched → List Element → Prop
  | nil : Classified [] []
  | path {log m : List Matched} {p : Path} {es : List Element} (h : IsPathLog log p)
    (hrest : Classified m es) : Classified (log ++ m) (.path p :: es)
  /-- No comma, no parenthesis, no `IS` or `NULL`, and no implied `AND`. -/
  | token {t : Token} {m : List Matched} {es : List Element} (separates : Bool)
    (h : isPlain t = true) (hrest : Classified m es) :
    Classified (⟨t, separates⟩ :: m) (.token t :: es)
  | parenthesis {t : Token} {m : List Matched} {es : List Element}
    (h : t.isSymbol "(" = true ∨ t.isSymbol ")" = true) (hrest : Classified m es) :
    Classified (⟨t, false⟩ :: m) (.token t :: es)
  | alternative {m : List Matched} {es : List Element} (p : Nat) (hrest : Classified m es) :
    Classified (⟨⟨.symbol, ",", p⟩, true⟩ :: m) (.token (.ofKeyword "OR" p) :: es)
  | impliedAnd {m : List Matched} {es : List Element} (p : Nat) (hrest : Classified m es) :
    Classified (⟨.ofMarker .impliedAnd p, true⟩ :: m) (.token (.ofKeyword "AND" p) :: es)
  | isNull {m : List Matched} {es : List Element} (p q : Nat) (hrest : Classified m es) :
    Classified (unseparated [.ofKeyword "IS" p, .ofKeyword "NULL" q] ++ m)
      (.token (.ofMarker .isNull p) :: es)
  | isNotNull {m : List Matched} {es : List Element} (p q r : Nat) (hrest : Classified m es) :
    Classified (unseparated [.ofKeyword "IS" p, .ofKeyword "NOT" q, .ofKeyword "NULL" r] ++ m)
      (.token (.ofMarker .isNotNull p) :: es)
  | equalsNull {m : List Matched} {es : List Element} (p q : Nat) (hrest : Classified m es) :
    Classified (unseparated [⟨.symbol, "=", p⟩, .ofKeyword "NULL" q] ++ m)
      (.token (.ofMarker .isNull q) :: es)
  /-- Behind another operator `NULL` is a value. -/
  | comparedNull {op : CompareOp} {m : List Matched} {es : List Element} (p q : Nat)
    (h : op ≠ .eq) (hrest : Classified m es) :
    Classified (unseparated [⟨.symbol, op.symbol, p⟩, .ofKeyword "NULL" q] ++ m)
      (.token ⟨.symbol, op.symbol, p⟩ :: .token (.ofKeyword "NULL" q) :: es)
  | call {word : String} {inside m : List Matched} {args es : List Element} (p q r : Nat)
    (hword : word ∈ argumentWords) (hargs : Arguments inside args) (hrest : Classified m es) :
    Classified (unseparated [.ofKeyword word p, ⟨.symbol, "(", q⟩] ++
        (inside ++ unseparated [⟨.symbol, ")", r⟩] ++ m))
      (.token (.ofKeyword word p) :: .token ⟨.symbol, "(", q⟩ ::
        (args ++ .token ⟨.symbol, ")", r⟩ :: es))

theorem Arguments.tokens {log : List Token} (h : ∀ t ∈ log, isArgument t = true) :
    Arguments (unseparated log) (elements log) := by
  induction log with
  | nil => exact .nil
  | cons t log ih =>
    simp only [List.mem_cons, forall_eq_or_imp] at h
    exact .token h.1 (ih h.2)

namespace Classified

variable {a b m : List Matched} {x y es : List Element} {lang : Part → LogSet} {log : List Token}

theorem append (ha : Classified a x) (hb : Classified b y) : Classified (a ++ b) (x ++ y) := by
  induction ha with
  | nil => exact hb
  | path h _ ih =>
    rw [List.append_assoc]
    exact .path h ih
  | token separates h _ ih => exact .token separates h ih
  | parenthesis h _ ih => exact .parenthesis h ih
  | alternative p _ ih => exact .alternative p ih
  | impliedAnd p _ ih => exact .impliedAnd p ih
  | isNull p q _ ih => exact .isNull p q ih
  | isNotNull p q r _ ih => exact .isNotNull p q r ih
  | equalsNull p q _ ih => exact .equalsNull p q ih
  | comparedNull p q h _ ih => exact .comparedNull p q h ih
  | call p q r hword hargs _ ih =>
    rw [List.append_assoc, List.append_assoc]
    simpa using call p q r hword hargs ih

theorem single {t : Token} (h : isPlain t = true) :
    Classified (unseparated [t]) [.token t] :=
  .token false h .nil

theorem cons {t : Token} (h : isPlain t = true) (hrest : Classified m es) :
    Classified (⟨t, false⟩ :: m) (.token t :: es) :=
  .token false h hrest

/-! ### Values -/

theorem relativeTime (h : Produces lang Language.relativeTime log) :
    Classified (unseparated log) (elements log) := by
  have hwords : ∃ word p tail, log = ⟨.keyword, word, p⟩ :: tail ∧ word ∈ argumentWords := by
    have hnow := h
    simp only [Language.relativeTime, Produces, ProducesAny, or_false] at hnow
    rcases hnow with hnow | hperiod
    · rw [produces_now, single_chained] at hnow
      obtain ⟨p, tail, rfl, -⟩ := hnow
      exact ⟨"NOW", p, tail, rfl, by simp [argumentWords]⟩
    · rw [produces_period] at hperiod
      obtain ⟨_, tail, rfl, ⟨word, hword, p, rfl⟩, -⟩ := hperiod
      exact ⟨word, p, tail, rfl, by simp [argumentWords, hword]⟩
  obtain ⟨word, p, tail, rfl, hword⟩ := hwords
  obtain ⟨_, _, _, heq, -, hplain, htail⟩ := Filter.relativeTime_call h
  obtain ⟨⟨⟩, rfl⟩ := List.cons.inj heq
  rcases htail with rfl | ⟨_, _, rfl, ⟨q, rfl⟩, inside, _, rfl, hinside, r, rfl⟩
  · exact single hplain
  · have hcall := Classified.call p q r hword (.tokens hinside) .nil
    simpa [unseparated, elements, Token.ofKeyword] using hcall

theorem bound (h : Produces lang Language.bound log) :
    Classified (unseparated log) (elements log) := by
  simp only [Language.bound, Produces, ProducesAny, produces_symbol, or_false] at h
  rcases h with ⟨p, rfl⟩ | h | ⟨value, p, rfl⟩ | ⟨value, p, rfl⟩ | ⟨value, p, rfl⟩
  case inr.inl => exact relativeTime h
  all_goals exact single rfl

theorem range (h : Produces lang Language.range log) :
    Classified (unseparated log) (elements log) := by
  obtain ⟨p, opening, a, q, b, r, close, hopening, hclose, ha, hb, rfl⟩ :=
    Value.produces_range log h
  have hopen : isPlain ⟨.symbol, opening, p⟩ = true := by
    rcases hopening with rfl | rfl <;> rfl
  have hclosed : isPlain ⟨.symbol, close, r⟩ = true := by
    rcases hclose with rfl | rfl <;> rfl
  have hall := cons hopen ((bound ha).append (cons (t := ⟨.keyword, "TO", q⟩) rfl
    ((bound hb).append (single hclosed))))
  simpa [unseparated, elements] using hall

/-- A value other than null. -/
theorem value (h : Produces lang Language.value log) (hnull : ¬ Single .keyword "NULL" log) :
    Classified (unseparated log) (elements log) := by
  simp only [Language.value, Produces, ProducesAny, or_false] at h
  rcases h with h | h | h | ⟨value, p, rfl⟩ | ⟨value, p, rfl⟩ | ⟨value, p, rfl⟩
  · exact absurd h hnull
  · exact range h
  · exact relativeTime h
  all_goals exact single rfl

end Classified

end Element

namespace Filter

open Element

/-! ## Terms spelled out -/

/-- The trees of related logs are the same. -/
def SameTree (x y : List Token) : Prop :=
  x.length = y.length ∧ ∀ scope table, buildIn scope table x = buildIn scope table y

/-- The second elements are what the first ones are spelled out: both are terms with one tree, if
the filters inside them have one. -/
def SameTerm (es : List Element × List Element) : Prop :=
  ∀ (scope : Scope) (table : String) (nested : Nested), nested.Respects SameTree nested →
    ∃ v, TermReads scope nested table es.1 v ∧ TermReads scope nested table es.2 v

/-- The matched log adds elements in all places, and others when it is spelled out. -/
structure AddsBoth (m : List Matched) (r : Except QueryError (List Element × List Element)) :
    Prop where
  noNull : beginsNull m = false
  balanced : Block.Balanced (spelledOut m)
  adds : ∀ calls, Adds .filter calls (logOf m) (r.map (·.1))
  addsSpelled : ∀ calls, Adds .filter calls (spelledOut m) (r.map (·.2))

section Tails

variable {n : Nat} {m : List Matched}

/-- What follows a path says the same when it is spelled out. -/
def SameTail (es : List Element × List Element) : Prop :=
  ∀ clock, ∃ v, Reads (Tail.read clock) es.1 Behind v ∧ Reads (Tail.read clock) es.2 Behind v

/-- The form is that of tokens that are neither `NULL` nor an implied `AND`. -/
def neverNull (a : Atom) : Bool :=
  a.kind != .marker .impliedAnd && (a.kind != .keyword || a.value.any (· != "NULL"))

/-- A value other than null is a flat log without `NULL`. -/
theorem matches_value (h : Matches (Parses Part.body n) Language.value m)
    (hnull : ¬ Single .keyword "NULL" (logOf m)) :
    ∀ t ∈ logOf m, t.isKeyword "NULL" = false ∧ t.isMarker .impliedAnd = false := by
  have hother : Matches (Parses Part.body n)
      (.choice [Language.range, relativeTime, .quoted, .number, .word]) m := by
    simp only [Language.value, Matches, MatchesAny] at h ⊢
    rcases h with ⟨p, rfl⟩ | h
    · exact absurd ⟨p, rfl⟩ hnull
    · exact h
  have hforms : ((Rule.choice [Language.range, relativeTime, .quoted, .number, .word] :
      PartRule).atoms.all neverNull) = true := by decide
  intro t ht
  obtain ⟨x, hx, rfl⟩ := List.mem_map.mp ht
  obtain ⟨-, a, ha, hkind, hvalue⟩ := matches_flat _ (by decide) m hother x hx
  have hform := List.all_eq_true.mp hforms a ha
  simp only [neverNull, Bool.and_eq_true, bne_iff_ne, ne_eq, Bool.or_eq_true,
    Option.any_eq_true] at hform
  refine ⟨?_, by simpa [Token.isMarker, hkind] using hform.1⟩
  rcases hform.2 with hkeyword | ⟨value, hmem, hother⟩
  · simp [Token.isKeyword, hkind, hkeyword]
  · have hvalue := hvalue value hmem
    simp [Token.isKeyword, hvalue, hother]

/-- A log of which every token stands for itself, and that is spelled out as it stands. -/
theorem AddsBoth.same (log : List Token) {es : List Element}
    (hnull : beginsNull (unseparated log) = false) (hbalanced : Block.Balanced log)
    (hspelled : spelledOut (unseparated log) = log)
    (hadds : ∀ calls, Adds .filter calls log (.ok es)) :
    AddsBoth (unseparated log) (.ok (es, es)) := by
  refine ⟨hnull, by rwa [hspelled], fun calls => ?_, fun calls => ?_⟩
  · rw [logOf_unseparated]
    exact hadds calls
  · rw [hspelled]
    exact hadds calls

theorem SameTail.same (lang : Part → LogSet) {es : List Element} (h : TailElements lang es) :
    SameTail (es, es) := by
  intro clock
  obtain ⟨v, hreads, -⟩ := tail_takes clock.shows_any h
  exact ⟨v, hreads, hreads⟩

/-- An operator and a value other than null are spelled out as they stand. -/
theorem adds_comparison (op : CompareOp) (p : Nat)
    (h : Matches (Parses Part.body n) Language.value m)
    (hnull : ¬ Single .keyword "NULL" (logOf m)) :
    AddsBoth (⟨⟨.symbol, op.symbol, p⟩, false⟩ :: m)
        (.ok (elements (⟨.symbol, op.symbol, p⟩ :: logOf m),
          elements (⟨.symbol, op.symbol, p⟩ :: logOf m))) ∧
      Classified (⟨⟨.symbol, op.symbol, p⟩, false⟩ :: m)
        (elements (⟨.symbol, op.symbol, p⟩ :: logOf m)) := by
  have hflat := (matches_flat _ (by decide) m h).unseparated_eq
  have htokens := matches_value h hnull
  have hvalue := h.produces
  generalize logOf m = log at *
  subst hflat
  have hbalanced : Block.Balanced log :=
    Block.balanced_of_keeps (Block.balanced_of_generates n) (by decide) _ hvalue
  refine ⟨AddsBoth.same (⟨.symbol, op.symbol, p⟩ :: log) rfl
    ((Block.Balanced.token rfl rfl).append hbalanced) (spelledOut_withoutNull ?_)
    fun calls => ?_, ?_⟩
  · exact List.forall_mem_cons.mpr ⟨⟨rfl, rfl⟩, htokens⟩
  · exact Adds.cons (fun _ _ => collect_plain (compareOp_plain op p)) (adds_value hvalue hnull)
  · exact .cons (compareOp_plain op p) (.value hvalue hnull)

/-- A comparison operator and `NULL`. -/
theorem adds_comparedNull (op : CompareOp) (p q : Nat) :
    ∃ es, AddsBoth (unseparated [⟨.symbol, op.symbol, p⟩, .ofKeyword "NULL" q]) (.ok es) ∧
      Classified (unseparated [⟨.symbol, op.symbol, p⟩, .ofKeyword "NULL" q]) es.1 ∧
      SameTail es := by
  by_cases heq : op = .eq
  · subst heq
    refine ⟨([.token (.ofMarker .isNull q)], [.token (.ofMarker .isNull p)]),
      ⟨rfl, ?_, fun _ => collect_comparedNull .eq p q, fun calls done rest => collect_isNull p q⟩,
      .equalsNull p q .nil,
      fun clock => ⟨.ok .missing, fun _ _ => rfl, fun _ _ => rfl⟩⟩
    exact (Block.Balanced.token rfl rfl).append (Block.Balanced.token rfl rfl)
  · have hspelled : spelledOut (unseparated [⟨.symbol, op.symbol, p⟩, .ofKeyword "NULL" q]) =
        [⟨.symbol, op.symbol, p⟩, .ofKeyword "NULL" q] := by
      refine spelledOut_unseparated
        (List.forall_mem_cons.mpr ⟨?_, List.forall_mem_singleton.mpr rfl⟩)
      cases op
      case eq => exact absurd rfl heq
      all_goals rfl
    refine ⟨_, AddsBoth.same _ rfl ?_ hspelled fun calls done rest => ?_,
      .comparedNull p q heq .nil, .same (Generates Part.body 0) (Or.inr (Or.inr (Or.inr
        ⟨op, p, [.ofKeyword "NULL" q], Or.inl ⟨q, rfl⟩, ofSymbol?_symbol op, rfl⟩)))⟩
    · exact (Block.Balanced.token rfl rfl).append (Block.Balanced.token rfl rfl)
    · refine (collect_comparedNull op p q done rest).trans ?_
      rw [addNull_compareOp heq]
      rfl

/-- What follows a path says the same when it is spelled out. -/
theorem adds_spelledTail (h : Matches (Parses Part.body n) (.optional clauseTail) m) :
    ∃ es, AddsBoth m (.ok es) ∧ Classified m es.1 ∧ SameTail es := by
  simp only [clauseTail, Matches, MatchesAny, MatchesAll, or_false, chained_nil_right] at h
  rcases h with rfl | ⟨_, _, rfl, ⟨p, rfl⟩, _, _, rfl, rfl | ⟨q, rfl⟩, r, rfl⟩ |
    ⟨first, value, rfl, hop, hvalue⟩
  · exact ⟨([], []), ⟨rfl, Block.Balanced.nil, fun _ => Adds.nil, fun _ => Adds.nil⟩, .nil,
      .same (Generates Part.body n) (Or.inl rfl)⟩
  · refine ⟨_, AddsBoth.same [.ofKeyword "IS" p, .ofKeyword "NULL" r] rfl ?_ rfl
      fun calls done rest => collect_isNull p r, .isNull p r .nil,
      .same (Generates Part.body n) (Or.inr (Or.inl ⟨p, rfl⟩))⟩
    exact (Block.Balanced.token rfl rfl).append (Block.Balanced.token rfl rfl)
  · refine ⟨_, AddsBoth.same [.ofKeyword "IS" p, .ofKeyword "NOT" q, .ofKeyword "NULL" r]
      rfl ?_ rfl fun calls done rest => collect_isNotNull p q r, .isNotNull p q r .nil,
      .same (Generates Part.body n) (Or.inr (Or.inr (Or.inl ⟨p, rfl⟩)))⟩
    exact (Block.Balanced.token rfl rfl).append
      ((Block.Balanced.token rfl rfl).append (Block.Balanced.token rfl rfl))
  · obtain ⟨op, p, hfirst, -⟩ := compareOp_token hop.produces
    have hflat := (matches_flat _ (by decide) first hop).unseparated_eq
    rw [hfirst] at hflat
    subst hflat
    by_cases hnull : Single .keyword "NULL" (logOf value)
    · obtain ⟨q, hlog⟩ := hnull
      have hflat := (matches_flat _ (by decide) value hvalue).unseparated_eq
      rw [hlog] at hflat
      subst hflat
      exact adds_comparedNull op p q
    · obtain ⟨hadds, hclassified⟩ := adds_comparison op p hvalue hnull
      exact ⟨_, hadds, hclassified, .same _ (Or.inr (Or.inr (Or.inr
        ⟨op, p, _, hvalue.produces, ofSymbol?_symbol op, rfl⟩)))⟩

end Tails

section Terms

variable {n : Nat} {m inside more : List Matched}
  {r s : Except QueryError (List Element × List Element)}

/-- The matched log adds elements inside the parentheses of a call, and others when it is spelled
out. -/
structure AddsInside (m : List Matched) (r : Except QueryError (List Element × List Element)) :
    Prop where
  balanced : Block.Balanced (spelledOut m)
  adds : ∀ calls, Adds .filter (true :: calls) (logOf m) (r.map (·.1))
  addsSpelled : ∀ calls, Adds .filter (true :: calls) (spelledOut m) (r.map (·.2))

/-- The path as the only element. -/
def onlyPaths (found : Path × Path) : List Element × List Element :=
  ([.path found.1], [.path found.2])

theorem AddsInside.path {found : Except QueryError (Path × Path)}
    (h : AddsPaths SameTree m found) : AddsInside m (found.map onlyPaths) := by
  refine ⟨h.balanced, fun calls => ?_, fun calls => ?_⟩
  · have hadds := h.adds .filter (true :: calls)
    cases found <;> exact hadds
  · have hadds := h.addsSpelled .filter (true :: calls)
    cases found <;> exact hadds

theorem AddsInside.comma (ha : AddsInside m r) (p : Nat) (hb : AddsInside more s) :
    AddsInside (m ++ ⟨⟨.symbol, ",", p⟩, false⟩ :: more)
      (do
        let a ← r
        let b ← s
        return (a.1 ++ .token ⟨.symbol, ",", p⟩ :: b.1,
          a.2 ++ .token ⟨.symbol, ",", p⟩ :: b.2)) := by
  have hspelled : spelledOut (m ++ ⟨⟨.symbol, ",", p⟩, false⟩ :: more) =
      spelledOut m ++ ⟨.symbol, ",", p⟩ :: spelledOut more := spelledOut_between rfl rfl m more
  have hcomma : ∀ calls, Adds .filter (true :: calls) [⟨.symbol, ",", p⟩]
      (.ok [.token ⟨.symbol, ",", p⟩]) := fun calls =>
    Adds.arguments (List.forall_mem_singleton.mpr rfl)
  refine ⟨?_, fun calls => ?_, fun calls => ?_⟩
  · rw [hspelled]
    exact ha.balanced.append ((Block.Balanced.token rfl rfl).append hb.balanced)
  · have hadds := (ha.adds calls).append ((hcomma calls).append (hb.adds calls))
    rw [logOf_append, logOf_cons]
    cases r <;> cases s <;> exact hadds
  · have hadds := (ha.addsSpelled calls).append ((hcomma calls).append (hb.addsSpelled calls))
    rw [hspelled]
    cases r <;> cases s <;> exact hadds

/-- A call with what follows it. -/
theorem AddsBoth.call {word : String} (p q p' : Nat) (hcall : isCallWord word = true)
    (hplain : isPlain ⟨.keyword, word, p⟩ = true) (hinside : AddsInside inside r)
    (hmore : AddsBoth more s) :
    AddsBoth (unseparated [.ofKeyword word p, ⟨.symbol, "(", q⟩] ++
        (inside ++ unseparated [⟨.symbol, ")", p'⟩] ++ more))
      (do
        let a ← r
        let b ← s
        return (.token (.ofKeyword word p) :: .token ⟨.symbol, "(", q⟩ ::
            (a.1 ++ .token ⟨.symbol, ")", p'⟩ :: b.1),
          .token (.ofKeyword word p) :: .token ⟨.symbol, "(", q⟩ ::
            (a.2 ++ .token ⟨.symbol, ")", p'⟩ :: b.2))) := by
  have hlog : logOf (unseparated [.ofKeyword word p, ⟨.symbol, "(", q⟩] ++
      (inside ++ unseparated [⟨.symbol, ")", p'⟩] ++ more)) =
      (⟨.keyword, word, p⟩ :: ⟨.symbol, "(", q⟩ :: (logOf inside ++ [⟨.symbol, ")", p'⟩])) ++
        logOf more := by simp [Token.ofKeyword]
  have hspelled : spelledOut (unseparated [.ofKeyword word p, ⟨.symbol, "(", q⟩] ++
      (inside ++ unseparated [⟨.symbol, ")", p'⟩] ++ more)) =
      (⟨.keyword, word, p⟩ :: ⟨.symbol, "(", q⟩ :: (spelledOut inside ++ [⟨.symbol, ")", p'⟩])) ++
        spelledOut more := by
    rw [List.append_assoc, List.cons_append, List.cons_append, List.append_assoc]
    refine (spelledOut_spelled rfl _).trans (congrArg _ ?_)
    exact (spelledOut_spelled rfl _).trans (congrArg _ (spelledOut_between rfl rfl inside more))
  have hnull : (Token.ofKeyword word p).isKeyword "NULL" = false := by
    simp only [isPlain, isArgument, Bool.and_eq_true, Bool.not_eq_true'] at hplain
    exact hplain.1.1.1.2
  refine ⟨hnull, ?_, fun calls => ?_, fun calls => ?_⟩
  · rw [hspelled]
    have hword : Block.Balanced [⟨.keyword, word, p⟩] := Block.Balanced.token rfl rfl
    exact (hword.append ((Block.Balanced.token rfl rfl).append (hinside.balanced.append
      (Block.Balanced.token rfl rfl)))).append hmore.balanced
  · have hadds := (Adds.call p q p' hcall hplain (hinside.adds calls)).append (hmore.adds calls)
    rw [hlog]
    cases r with
    | error why => exact hadds
    | ok a =>
      cases s <;>
        simpa [Except.map, bind, Except.bind, pure, Except.pure, Token.ofKeyword] using hadds
  · have hadds := (Adds.call p q p' hcall hplain (hinside.addsSpelled calls)).append
      (hmore.addsSpelled calls)
    rw [hspelled]
    cases r with
    | error why => exact hadds
    | ok a =>
      cases s <;>
        simpa [Except.map, bind, Except.bind, pure, Except.pure, Token.ofKeyword] using hadds

theorem onlyPaths_yield {found : Except QueryError (Path × Path)} (h : AddsPaths SameTree m found) :
    Yields (fun es => ∃ p, es = onlyPaths p ∧ IsPathLog m p.1 ∧ p.1.Alike SameTree p.2)
      (found.map onlyPaths) :=
  h.alike.map fun p hp => ⟨p, rfl, hp⟩

/-- The matched log is a term, and so is what it is spelled out, with one tree. -/
def IsTermTwice (m : List Matched) : Prop :=
  ∃ r, AddsBoth m r ∧ Yields (fun es => Classified m es.1 ∧ SameTerm es) r

/-- A path with what follows it. -/
theorem spelled_pathTerm {found : Except QueryError (Path × Path)}
    {es : List Element × List Element} (hpath : AddsPaths SameTree m found) (hmore : AddsBoth more (.ok es))
    (hclassified : Classified more es.1) (htail : SameTail es) : IsTermTwice (m ++ more) := by
  refine ⟨found.map fun p => (.path p.1 :: es.1, .path p.2 :: es.2),
    ⟨beginsNull_append hpath.noNull hmore.noNull, ?_, fun calls => ?_, fun calls => ?_⟩, ?_⟩
  · rw [spelledOut_append m hmore.noNull]
    exact hpath.balanced.append hmore.balanced
  · have hadds := (hpath.adds .filter calls).append (hmore.adds calls)
    rw [logOf_append]
    cases found <;> exact hadds
  · have hadds := (hpath.addsSpelled .filter calls).append (hmore.addsSpelled calls)
    rw [spelledOut_append m hmore.noNull]
    cases found <;> exact hadds
  · refine hpath.alike.map fun p hp =>
      ⟨.path hp.1 hclassified, fun scope table nested hnested => ?_⟩
    obtain ⟨v, hreads, hreads'⟩ := htail scope.clock
    refine ⟨v >>= fun found => termQuery scope nested table p.1 found,
      ⟨_, _, rfl, rfl, reads_pathTerm hreads⟩, ⟨_, _, rfl, rfl, ?_⟩⟩
    have hsame : (fun found => termQuery scope nested table p.1 found) =
        fun found => termQuery scope nested table p.2 found :=
      funext fun found => termQuery_alike (fun x y hxy table => hnested x y hxy table) hp.2
    rw [hsame]
    exact reads_pathTerm hreads'

/-- A count along a path. -/
theorem spelled_countTerm {word : String} (hword : word = "COUNT" ∨ word = "DCOUNT") (a b c : Nat)
    (op : CompareOp) (p : Nat) {found : Except QueryError (Path × Path)}
    (hpath : AddsPaths SameTree m found) (hmore : Matches (Parses Part.body n) Language.value more)
    (hnull : ¬ Single .keyword "NULL" (logOf more)) :
    IsTermTwice (unseparated [.ofKeyword word a, ⟨.symbol, "(", b⟩] ++
      (m ++ unseparated [⟨.symbol, ")", c⟩] ++ (⟨⟨.symbol, op.symbol, p⟩, false⟩ :: more))) := by
  obtain ⟨hcompared, hclassified⟩ := adds_comparison op p hmore hnull
  have hcall : isCallWord word = true ∧ isPlain ⟨.keyword, word, a⟩ = true := by
    rcases hword with rfl | rfl <;> exact ⟨rfl, rfl⟩
  refine ⟨_, AddsBoth.call a b c hcall.1 hcall.2 (AddsInside.path hpath) hcompared, ?_⟩
  refine (onlyPaths_yield hpath).bind ?_
  rintro _ ⟨⟨path, path'⟩, rfl, hlog, halike⟩
  have hbehind : Classified (m ++ (unseparated [⟨.symbol, ")", c⟩] ++
      (⟨⟨.symbol, op.symbol, p⟩, false⟩ :: more))) _ :=
    .path hlog (.parenthesis (Or.inr rfl) hclassified)
  rw [← List.append_assoc] at hbehind
  refine ⟨.token false hcall.2 (.parenthesis (Or.inl rfl) hbehind),
    fun scope table nested hnested => ?_⟩
  · obtain ⟨v, hreads, -⟩ := countTest_takes scope.clock.shows_any p (ofSymbol?_symbol op)
      hmore.produces
    rcases hword with rfl | rfl
    · have hsame : (fun count => termQuery scope nested table path (.count count)) =
          fun count => termQuery scope nested table path' (.count count) :=
        funext fun count => termQuery_alike (fun x y hxy table => hnested x y hxy table) halike
      refine ⟨_, ⟨_, _, rfl, rfl, reads_countTerm hreads⟩, ⟨_, _, rfl, rfl, ?_⟩⟩
      rw [hsame]
      exact reads_countTerm hreads
    · have hsame : (fun count => distinctCount scope.schema table path count) =
          fun count => distinctCount scope.schema table path' count :=
        funext fun count => distinctCount_alike halike count
      refine ⟨_, ⟨_, _, rfl, rfl, reads_distinctTerm hreads⟩, ⟨_, _, rfl, rfl, ?_⟩⟩
      rw [hsame]
      exact reads_distinctTerm hreads

/-- A comparison of two paths. -/
theorem spelled_comparisonTerm (op : PathOp) (a b c d : Nat)
    {left right : Except QueryError (Path × Path)} (hleft : AddsPaths SameTree m left)
    (hright : AddsPaths SameTree inside right) :
    IsTermTwice (unseparated [.ofKeyword op.keyword a, ⟨.symbol, "(", b⟩] ++
      ((m ++ ⟨⟨.symbol, ",", c⟩, false⟩ :: inside) ++ unseparated [⟨.symbol, ")", d⟩] ++ [])) := by
  have hnothing : AddsBoth [] (.ok ([], [])) :=
    ⟨rfl, Block.Balanced.nil, fun _ => Adds.nil, fun _ => Adds.nil⟩
  have hword : isCallWord op.keyword = true ∧ isPlain ⟨.keyword, op.keyword, a⟩ = true ∧
      op.keyword ∈ argumentWords ∧ Glue.ofElement? (.token (.ofKeyword op.keyword a)) = none := by
    cases op <;> refine ⟨rfl, rfl, ?_, rfl⟩ <;> decide
  refine ⟨_, AddsBoth.call a b d hword.1 hword.2.1
    ((AddsInside.path hleft).comma c (AddsInside.path hright)) hnothing, ?_⟩
  refine Yields.bind (P := fun es => ∃ p q : Path × Path, IsPathLog m p.1 ∧ IsPathLog inside q.1 ∧
    p.1.Alike SameTree p.2 ∧ q.1.Alike SameTree q.2 ∧
    es = ([.path p.1, .token ⟨.symbol, ",", c⟩, .path q.1],
      [.path p.2, .token ⟨.symbol, ",", c⟩, .path q.2])) ((onlyPaths_yield hleft).bind ?_) ?_
  · rintro _ ⟨p, rfl, hplog, hp⟩
    refine (onlyPaths_yield hright).bind ?_
    rintro _ ⟨q, rfl, hqlog, hq⟩
    exact ⟨p, q, hplog, hqlog, hp, hq, rfl⟩
  · rintro _ ⟨p, q, hplog, hqlog, hp, hq, rfl⟩
    refine ⟨?_, fun scope table nested _ => ?_⟩
    · have hargs : Arguments (m ++ ⟨⟨.symbol, ",", c⟩, false⟩ :: (inside ++ []))
          [.path p.1, .token ⟨.symbol, ",", c⟩, .path q.1] :=
        .path hplog (.token rfl (.path hqlog .nil))
      rw [List.append_nil] at hargs
      exact .call a b d hword.2.2.1 hargs .nil
    · refine ⟨_, ⟨_, _, rfl, hword.2.2.2, reads_comparisonTerm⟩,
        ⟨_, _, rfl, hword.2.2.2, ?_⟩⟩
      rw [pathComparison_alike hp hq]
      exact reads_comparisonTerm

/-- The matched log of a comparison operator. -/
theorem matches_compareOp (h : Matches (Parses Part.body n) Language.compareOp m) :
    ∃ (op : CompareOp) (p : Nat), m = unseparated [⟨.symbol, op.symbol, p⟩] := by
  obtain ⟨op, p, hlog, -⟩ := compareOp_token h.produces
  have hflat := (matches_flat _ (by decide) m h).unseparated_eq
  exact ⟨op, p, by rw [hflat, hlog]⟩

section Levels

variable (hfilter : ∀ k < n, ∀ m, Parses Part.body k .filter m → Path.Filters SameTree m)
include hfilter

theorem matches_countTerm {word : String} (hword : word = "COUNT" ∨ word = "DCOUNT")
    (h : Matches (Parses Part.body n) (Language.countTerm word) m) : IsTermTwice m := by
  simp only [Language.countTerm, Matches, MatchesAll, matches_symbol, chained_nil_right] at h
  obtain ⟨_, _, rfl, ⟨a, rfl⟩, _, _, rfl, ⟨b, rfl⟩, inside, _, rfl, hpath, _, _, rfl, ⟨c, rfl⟩,
    compared, count, rfl, hop, hcount⟩ := h
  obtain ⟨op, p, rfl⟩ := matches_compareOp hop
  obtain ⟨found, hpath⟩ := adds_spelledPath hfilter hpath
  have hvalue : Matches (Parses Part.body n) Language.value count := by
    simp only [Language.value, Matches, MatchesAny, or_false] at hcount ⊢
    rcases hcount with hrange | hnumber
    · exact Or.inr (Or.inl hrange)
    · exact Or.inr (Or.inr (Or.inr (Or.inr (Or.inl hnumber))))
  have hproduced : Produces (Generates Part.body n) (.choice [Language.range, .number])
      (logOf count) :=
    Matches.produces (by simpa only [Matches] using hcount)
  have hterm := spelled_countTerm hword a b c op p hpath hvalue (produces_count hproduced).2
  rw [List.append_assoc] at hterm
  exact hterm

theorem matches_pathComparison (h : Matches (Parses Part.body n) Language.pathComparison m) :
    IsTermTwice m := by
  simp only [Language.pathComparison, Matches, MatchesAll, matches_symbol, matches_keywords,
    chained_nil_right] at h
  obtain ⟨_, _, rfl, ⟨word, hword, a, rfl⟩, _, _, rfl, ⟨b, rfl⟩, left, _, rfl, hleft, _, _, rfl,
    ⟨c, rfl⟩, right, _, rfl, hright, d, rfl⟩ := h
  obtain ⟨op, rfl⟩ : ∃ op : PathOp, op.keyword = word := by
    have hall : pathOperatorWords.all fun word => PathOp.all.any (·.keyword == word) := by decide
    obtain ⟨op, -, hop⟩ := List.any_eq_true.mp (List.all_eq_true.mp hall word hword)
    exact ⟨op, by simpa using hop⟩
  obtain ⟨found, hleft⟩ := adds_spelledPath hfilter hleft
  obtain ⟨other, hright⟩ := adds_spelledPath hfilter hright
  have hterm := spelled_comparisonTerm op a b c d hleft hright
  rw [List.append_nil, List.append_assoc] at hterm
  exact hterm

/-- A term, when the filters inside its paths have the same trees spelled out. -/
theorem matches_term (h : Matches (Parses Part.body n) termRule m) : IsTermTwice m := by
  simp only [termRule, Matches, MatchesAny, or_false] at h
  rcases h with h | h | h | h
  · exact matches_pathComparison hfilter h
  · exact matches_countTerm hfilter (Or.inr rfl) h
  · exact matches_countTerm hfilter (Or.inl rfl) h
  · simp only [MatchesAll, chained_nil_right] at h
    obtain ⟨front, tail, rfl, hpath, htail⟩ := h
    obtain ⟨found, hpath⟩ := adds_spelledPath hfilter hpath
    obtain ⟨es, htail, hclassified, hsame⟩ := adds_spelledTail htail
    exact spelled_pathTerm hpath htail hclassified hsame

end Levels

end Terms

end Filter

end LinkQuery
