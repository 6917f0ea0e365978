import LinkQuery.Element
import LinkQuery.Proofs.PathLogs
/-!
# From logs to elements

What the logs of paths, terms and lists are as elements. In a list, every token outside of paths is
an element of its own; in a filter this holds for the arguments of calls.

Main statements:
- `Element.Gathers.append`, `Element.Gathers.list`: logs in order give elements in order.
- `Element.adds_path`: the log of a path is one element, in all places the same.
- `Element.Adds.call`: a call keeps its commas.
- `Element.ofTokens_inside`: the filters inside the paths are shorter than the log.
-/
namespace LinkQuery.Element

open Rule Language

/-- Reading the log adds elements that satisfy `P`, or refuses the expression. -/
def Gathers (form : LogForm) (calls : List Bool) (done : List Element) (log : List Token)
    (P : ListSet Element) : Prop :=
  (∃ why, QueryError.IsRefusal why ∧ ∀ rest, collect form calls done (log ++ rest) = .error why) ∨
    ∃ es, P es ∧ ∀ rest, collect form calls done (log ++ rest)
      = collect form calls (es.reverse ++ done) rest

namespace Gathers

variable {form : LogForm} {calls : List Bool} {done : List Element} {P Q : ListSet Element}

theorem nil : Gathers form calls done [] (· = []) :=
  Or.inr ⟨[], rfl, fun _ => rfl⟩

theorem mono {log : List Token} (h : Gathers form calls done log P) (hPQ : ∀ es, P es → Q es) :
    Gathers form calls done log Q := by
  rcases h with hinvalid | ⟨es, hP, hes⟩
  · exact Or.inl hinvalid
  · exact Or.inr ⟨es, hPQ es hP, hes⟩

/-- A log behind a log; what is asked of its elements may depend on those in front of them. -/
theorem append {a b : List Token} (ha : Gathers form calls done a P)
    (hb : ∀ es, P es → Gathers form calls (es.reverse ++ done) b (fun more => Q (es ++ more))) :
    Gathers form calls done (a ++ b) Q := by
  rcases ha with ⟨why, hwhy, ha⟩ | ⟨es, hP, ha⟩
  · refine Or.inl ⟨why, hwhy, fun rest => ?_⟩
    rw [List.append_assoc]
    exact ha _
  · rcases hb es hP with ⟨why, hwhy, hb⟩ | ⟨more, hQ, hb⟩
    · refine Or.inl ⟨why, hwhy, fun rest => ?_⟩
      rw [List.append_assoc, ha, hb]
    · refine Or.inr ⟨es ++ more, hQ, fun rest => ?_⟩
      rw [List.append_assoc, ha, hb, List.reverse_append, List.append_assoc]

/-- A log in front of which elements that are known stand. -/
theorem cons {t : Token} {e : Element} {b : List Token}
    (h : ∀ rest, collect form calls done (t :: rest) = collect form calls (e :: done) rest)
    (hb : Gathers form calls (e :: done) b (fun more => Q (e :: more))) :
    Gathers form calls done (t :: b) Q := by
  refine append (a := [t]) (P := (· = [e])) (Or.inr ⟨[e], rfl, h⟩) ?_
  rintro _ rfl
  exact hb

/-- Items with separators between them. -/
theorem list {A S : LogSet} {limit : Nat} {log : List Token}
    (hfirst : ∀ log, A log → log.length ≤ limit → Gathers form calls done log P)
    (hnext : ∀ front log, P front → Chained S A log → log.length ≤ limit →
      Gathers form calls (front.reverse ++ done) log (fun more => P (front ++ more)))
    (h : Chained A (Repeated (Chained S A)) log) (hlimit : log.length ≤ limit) :
    Gathers form calls done log P := by
  obtain ⟨first, _, rfl, hA, parts, rfl, hparts⟩ := h
  simp only [List.length_append] at hlimit
  refine append (hfirst first hA (by omega)) fun front hfront => ?_
  induction parts generalizing front with
  | nil => exact nil.mono (by simpa using hfront)
  | cons part parts ih =>
    simp only [List.mem_cons, forall_eq_or_imp] at hparts
    simp only [List.flatten_cons, List.length_append] at hlimit ⊢
    refine append (hnext front part hfront hparts.1 (by omega)) fun es hes => ?_
    have hrest := ih hparts.2 (by omega) (front ++ es) hes
    simpa using hrest

end Gathers

/-! ## Logs in all places -/

/-- Behind any elements, the log adds these, or the expression is refused. -/
def Adds (form : LogForm) (calls : List Bool) (log : List Token)
    (v : Except QueryError (List Element)) : Prop :=
  ∀ done rest, collect form calls done (log ++ rest) =
    v >>= fun es => collect form calls (es.reverse ++ done) rest

namespace Adds

variable {form : LogForm} {calls : List Bool} {a b : List Token} {es fs : List Element}
  {v w : Except QueryError (List Element)}

theorem nil : Adds form calls [] (.ok []) :=
  fun _ _ => rfl

theorem append (ha : Adds form calls a v) (hb : Adds form calls b w) :
    Adds form calls (a ++ b) (do return (← v) ++ (← w)) := by
  intro done rest
  rw [List.append_assoc, ha]
  cases v with
  | error why => rfl
  | ok es =>
    refine (hb _ rest).trans ?_
    cases w with
    | error why => rfl
    | ok fs =>
      show collect form calls (fs.reverse ++ (es.reverse ++ done)) rest =
        collect form calls ((es ++ fs).reverse ++ done) rest
      simp

/-- A log in front of which a token stands that is known to become an element. -/
theorem cons {t : Token} {e : Element}
    (h : ∀ done rest, collect form calls done (t :: rest) = collect form calls (e :: done) rest)
    (hb : Adds form calls b (.ok es)) : Adds form calls (t :: b) (.ok (e :: es)) :=
  append (a := [t]) (v := .ok [e]) (w := .ok es) (fun done rest => h done rest) hb

/-- Tokens that each become an element of their own. -/
theorem each {log : List Token} (h : ∀ t ∈ log, ∀ done rest,
    collect form calls done (t :: rest) = collect form calls (.token t :: done) rest) :
    Adds form calls log (.ok (log.map .token)) := by
  induction log with
  | nil => exact nil
  | cons t log ih =>
    simp only [List.mem_cons, forall_eq_or_imp] at h
    exact cons h.1 (ih h.2)

theorem gathers {log : List Token} {done : List Element} {P : ListSet Element}
    (h : Adds form calls log v) (hv : Yields P v) : Gathers form calls done log P := by
  obtain ⟨why, rfl, hwhy⟩ | ⟨es, rfl, hes⟩ := hv.cases
  · exact Or.inl ⟨why, hwhy, h done⟩
  · exact Or.inr ⟨es, hes, h done⟩

/-- What a log adds in front of everything are its elements. -/
theorem ofTokens {log : List Token} (h : Adds form [] log v) : ofTokens form log = v := by
  have hall := h [] []
  rw [List.append_nil] at hall
  refine hall.trans ?_
  cases v with
  | error why => rfl
  | ok es =>
    show collect form [] (es.reverse ++ []) [] = _
    simp [collect]

end Adds

/-! ## Paths -/

theorem collect_path {form : LogForm} {calls : List Bool} {done : List Element}
    {tokens after : List Token} {p : Path} (position : Nat)
    (h : Path.read tokens = .ok (p, after)) :
    collect form calls done (⟨.marker .pathStart, "", position⟩ :: tokens) =
      collect form calls (.path p :: done) after := by
  rw [collect.eq_def]
  simp only [Token.isMarker, beq_self_eq_true, if_true]
  grind

theorem collect_badPath {form : LogForm} {calls : List Bool} {done : List Element}
    {tokens : List Token} {cause : InvalidCause} (position : Nat)
    (h : Path.read tokens = invalid cause) :
    collect form calls done (⟨.marker .pathStart, "", position⟩ :: tokens) = invalid cause := by
  rw [collect.eq_def]
  simp only [Token.isMarker, beq_self_eq_true, if_true]
  grind [invalid]

/-- The paths among the elements are not touched by further tokens. -/
theorem path_mem_add {form : LogForm} {calls : List Bool} {done : List Element} {t : Token}
    {p : Path} : .path p ∈ add form calls done t ↔ .path p ∈ done := by
  have hnull : .path p ∈ addNull done t ↔ .path p ∈ done := by
    unfold addNull
    split
    · split <;> simp
    · simp
  cases form with
  | list =>
    simp only [add, addToList]
    split <;> simp
  | filter =>
    simp only [add, addToFilter]
    split
    · simp
    · split
      · simp
      · split
        · exact hnull
        · simp

theorem collect_inside {form : LogForm} {limit : Nat} {calls : List Bool}
    {done es : List Element} {tokens : List Token} (h : collect form calls done tokens = .ok es)
    (hlimit : tokens.length ≤ limit)
    (hdone : ∀ p : Path, .path p ∈ done → ∀ s ∈ p.segments, s.Inside (·.length < limit)) :
    ∀ p : Path, .path p ∈ es → ∀ s ∈ p.segments, s.Inside (·.length < limit) := by
  fun_induction collect form calls done tokens with
  | case1 calls done =>
    obtain rfl := Except.ok.inj h
    simpa using hdone
  | case2 => cases h
  | case3 calls done t rest hstart p after hread ih =>
    have hafter := Path.read_length hread
    simp only [List.length_cons] at hlimit
    refine ih h (by omega) fun q hq => ?_
    rcases List.mem_cons.mp hq with hq | hq
    · obtain rfl := Element.path.inj hq
      exact Path.read_inside hread (by omega)
    · exact hdone q hq
  | case4 => cases h
  | case5 calls done t rest hstart his m after hnull ih =>
    have hafter := nullTest?_length hnull
    simp only [List.length_cons] at hlimit
    refine ih h (by omega) fun q hq => hdone q ?_
    simpa using hq
  | case6 calls done t rest hstart his ih =>
    simp only [List.length_cons] at hlimit
    exact ih h (by omega) fun q hq => hdone q (path_mem_add.mp hq)

/-- The filters inside the paths of a log are shorter than the log. -/
theorem ofTokens_inside {form : LogForm} {tokens : List Token} {es : List Element}
    (h : ofTokens form tokens = .ok es) :
    ∀ p : Path, .path p ∈ es → ∀ s ∈ p.segments, s.Inside (·.length < tokens.length) :=
  collect_inside h (Nat.le_refl _) (by simp)

/-- An element that is a proper path. -/
def IsPath (inner : LogSet) : ListSet Element :=
  fun es => ∃ p : Path, p.Proper inner ∧ es = [.path p]

/-- The log of a path adds the same path in all places. -/
theorem adds_path {n : Nat} {log : List Token} (limit : Nat)
    (h : Produces (Generates Part.body n) Language.path log) (hlimit : log.length ≤ limit) :
    ∃ v, (∀ form calls, Adds form calls log v) ∧ Yields (IsPath (Path.InnerLog limit)) v := by
  rw [produces_path] at h
  obtain ⟨_, _, rfl, ⟨position, rfl⟩, body, _, rfl, hbody, q, rfl⟩ := h
  have hbody' : body.length < limit := by
    simp only [List.length_append, List.length_cons, List.length_nil] at hlimit
    omega
  rcases Path.read_log hbody hbody' q with ⟨cause, hread⟩ | ⟨p, hproper, hread⟩
  · refine ⟨invalid cause, fun form calls done rest => ?_, trivial⟩
    simpa using collect_badPath position (hread rest)
  · refine ⟨.ok [.path p], fun form calls done rest => ?_, p, hproper, rfl⟩
    show _ = collect form calls (.path p :: done) rest
    simpa using collect_path position (hread rest)

theorem Gathers.path {form : LogForm} {calls : List Bool} {done : List Element} {n : Nat}
    {log : List Token} (limit : Nat) (h : Produces (Generates Part.body n) Language.path log)
    (hlimit : log.length ≤ limit) :
    Gathers form calls done log (IsPath (Path.InnerLog limit)) := by
  obtain ⟨v, hadds, hpath⟩ := adds_path limit h hlimit
  exact (hadds form calls).gathers hpath

/-! ## Tokens of lists -/

/-- The parentheses that are open do not matter in a list. -/
theorem collect_list_calls (calls other : List Bool) (done : List Element) (tokens : List Token) :
    collect .list calls done tokens = collect .list other done tokens := by
  induction h : tokens.length using Nat.strongRecOn generalizing calls other done tokens with
  | ind n ih =>
    subst h
    rw [collect.eq_def, collect.eq_def]
    cases tokens with
    | nil => rfl
    | cons t rest =>
      simp only [reduceCtorEq, decide_false, Bool.false_and, Bool.false_eq_true, if_false]
      split
      · split
        · rfl
        · rename_i p after hread
          exact ih after.length (Nat.lt_succ_of_lt (Path.read_length hread)) _ _ _ after rfl
      · exact ih rest.length (by simp) _ _ _ rest rfl

/-- A token that stands for itself in a list. -/
def standsAlone (t : Token) : Bool :=
  !t.isMarker .pathStart && !t.isMarker .impliedAnd

theorem collect_list_token {calls : List Bool} {done : List Element} {t : Token}
    {rest : List Token} (h : standsAlone t = true) :
    collect .list calls done (t :: rest) = collect .list calls (.token t :: done) rest := by
  simp only [standsAlone, Bool.and_eq_true, Bool.not_eq_true'] at h
  rw [collect.eq_def]
  simp only [h.1, h.2, Bool.false_eq_true, if_false, reduceCtorEq, decide_false, Bool.false_and,
    add, addToList]
  exact collect_list_calls _ _ _ _

theorem Gathers.tokens {calls : List Bool} {done : List Element} {log : List Token}
    (h : log.all standsAlone = true) :
    Gathers .list calls done log (· = log.map .token) :=
  (Adds.each fun t ht _ _ => collect_list_token (List.all_eq_true.mp h t ht)).gathers rfl

/-! ## Arguments of calls -/

/-- A token that stands for itself among the arguments of a call in a filter. -/
def isArgument (t : Token) : Bool :=
  standsAlone t && !t.isKeyword "IS" && !t.isKeyword "NULL" && !t.isSymbol "(" && !t.isSymbol ")"

theorem collect_argument {calls : List Bool} {done : List Element} {t : Token}
    {rest : List Token} (h : isArgument t = true) :
    collect .filter (true :: calls) done (t :: rest) =
      collect .filter (true :: calls) (.token t :: done) rest := by
  simp only [isArgument, standsAlone, Bool.and_eq_true, Bool.not_eq_true'] at h
  obtain ⟨⟨⟨⟨⟨hpath, hand⟩, his⟩, hnull⟩, hopen⟩, hclose⟩ := h
  rw [collect.eq_def]
  simp [hpath, hand, his, hnull, hopen, hclose, openAfter, add, addToFilter]

/-- A token that stands for itself anywhere in a filter. -/
def isPlain (t : Token) : Bool :=
  isArgument t && !t.isSymbol ","

theorem collect_plain {calls : List Bool} {done : List Element} {t : Token}
    {rest : List Token} (h : isPlain t = true) :
    collect .filter calls done (t :: rest) = collect .filter calls (.token t :: done) rest := by
  simp only [isPlain, isArgument, standsAlone, Bool.and_eq_true, Bool.not_eq_true'] at h
  obtain ⟨⟨⟨⟨⟨⟨hpath, hand⟩, his⟩, hnull⟩, hopen⟩, hclose⟩, hcomma⟩ := h
  rw [collect.eq_def]
  simp [hpath, hand, his, hnull, hopen, hclose, hcomma, openAfter, add, addToFilter]

theorem collect_open {calls : List Bool} {done : List Element} {rest : List Token} (p : Nat) :
    collect .filter calls done (⟨.symbol, "(", p⟩ :: rest) =
      collect .filter (opensCall done :: calls) (.token ⟨.symbol, "(", p⟩ :: done) rest := by
  rw [collect.eq_def]
  simp [Token.isMarker, Token.isKeyword, Token.isSymbol, openAfter, add, addToFilter]

theorem collect_close {call : Bool} {calls : List Bool} {done : List Element} {rest : List Token}
    (p : Nat) :
    collect .filter (call :: calls) done (⟨.symbol, ")", p⟩ :: rest) =
      collect .filter calls (.token ⟨.symbol, ")", p⟩ :: done) rest := by
  rw [collect.eq_def]
  simp [Token.isMarker, Token.isKeyword, Token.isSymbol, openAfter, add, addToFilter]

theorem Adds.plain {calls : List Bool} {log : List Token} (h : ∀ t ∈ log, isPlain t = true) :
    Adds .filter calls log (.ok (log.map .token)) :=
  Adds.each fun t ht _ _ => collect_plain (h t ht)

theorem Adds.arguments {calls : List Bool} {log : List Token}
    (h : ∀ t ∈ log, isArgument t = true) :
    Adds .filter (true :: calls) log (.ok (log.map .token)) :=
  Adds.each fun t ht _ _ => collect_argument (h t ht)

/-- A call with its arguments in parentheses. -/
theorem Adds.call {calls : List Bool} {word : String} {inside : List Token}
    {v : Except QueryError (List Element)} (p q r : Nat) (hcall : isCallWord word = true)
    (hplain : isPlain ⟨.keyword, word, p⟩ = true) (h : Adds .filter (true :: calls) inside v) :
    Adds .filter calls (⟨.keyword, word, p⟩ :: ⟨.symbol, "(", q⟩ :: (inside ++ [⟨.symbol, ")", r⟩]))
      (v.map fun es => .token ⟨.keyword, word, p⟩ :: .token ⟨.symbol, "(", q⟩ ::
        (es ++ [.token ⟨.symbol, ")", r⟩])) := by
  intro done rest
  have hopens : opensCall (.token ⟨.keyword, word, p⟩ :: done) = true := by simp [opensCall, hcall]
  rw [List.cons_append, collect_plain hplain, List.cons_append, collect_open, hopens,
    List.append_assoc, h]
  cases v with
  | error why => rfl
  | ok es =>
    show collect .filter (true :: calls) _ (⟨.symbol, ")", r⟩ :: rest) = collect .filter calls _ rest
    rw [collect_close]
    simp

/-- A log in parentheses. -/
theorem Gathers.inParentheses {calls : List Bool} {done : List Element} {log : List Token}
    {P : ListSet Element} {call : Bool} (hcall : opensCall done = call) (p q : Nat)
    (h : Gathers .filter (call :: calls) (.token ⟨.symbol, "(", p⟩ :: done) log P) :
    Gathers .filter calls done (⟨.symbol, "(", p⟩ :: (log ++ [⟨.symbol, ")", q⟩]))
      (fun es => ∃ inside, P inside ∧
        es = .token ⟨.symbol, "(", p⟩ :: (inside ++ [.token ⟨.symbol, ")", q⟩])) := by
  rcases h with ⟨why, hwhy, h⟩ | ⟨inside, hP, h⟩
  · refine Or.inl ⟨why, hwhy, fun rest => ?_⟩
    rw [List.cons_append, collect_open, hcall, List.append_assoc, h]
  · refine Or.inr ⟨_, ⟨inside, hP, rfl⟩, fun rest => ?_⟩
    rw [List.cons_append, collect_open, hcall, List.append_assoc, h, List.singleton_append,
      collect_close]
    simp

/-! ## Connectives and tests for null -/

section Filters

variable {calls : List Bool} {done : List Element} {rest : List Token}

theorem collect_isNull (p q : Nat) :
    collect .filter calls done (⟨.keyword, "IS", p⟩ :: ⟨.keyword, "NULL", q⟩ :: rest) =
      collect .filter calls (.token (.ofMarker .isNull p) :: done) rest := by
  rw [collect.eq_def]
  simp [Token.isMarker, Token.isKeyword, nullTest?]

theorem collect_isNotNull (p q r : Nat) :
    collect .filter calls done
        (⟨.keyword, "IS", p⟩ :: ⟨.keyword, "NOT", q⟩ :: ⟨.keyword, "NULL", r⟩ :: rest) =
      collect .filter calls (.token (.ofMarker .isNotNull p) :: done) rest := by
  rw [collect.eq_def]
  simp [Token.isMarker, Token.isKeyword, nullTest?]

theorem collect_null (p : Nat) :
    collect .filter calls done (⟨.keyword, "NULL", p⟩ :: rest) =
      collect .filter calls (addNull done ⟨.keyword, "NULL", p⟩) rest := by
  rw [collect.eq_def]
  simp [Token.isMarker, Token.isKeyword, Token.isSymbol, openAfter, add, addToFilter]

theorem collect_impliedAnd (p : Nat) :
    collect .filter calls done (⟨.marker .impliedAnd, "", p⟩ :: rest) =
      collect .filter calls (.token (.ofKeyword "AND" p) :: done) rest := by
  rw [collect.eq_def]
  simp [Token.isMarker, Token.isKeyword, Token.isSymbol, openAfter, add, addToFilter]

/-- A comma outside of calls. -/
theorem collect_comma (h : calls.headD false = false) (p : Nat) :
    collect .filter calls done (⟨.symbol, ",", p⟩ :: rest) =
      collect .filter calls (.token (.ofKeyword "OR" p) :: done) rest := by
  rw [collect.eq_def]
  simp only [List.headD_eq_head?_getD] at h
  simp [Token.isMarker, Token.isKeyword, Token.isSymbol, openAfter, add, addToFilter, h]

end Filters

end LinkQuery.Element
