import LinkQuery.Proofs.Classification
/-!
# Filters have the same tree spelled out

The parts of a filter one after another: each has the elements that its matched log asks for, and
spelled out it has the same tree. By levels of nesting this holds for whole filters.

Main statements:
- `Filter.connectives_spelled_out`: the elements of a filter are those of its matched log, and
  spelled out it has the same tree.
-/
namespace LinkQuery.Filter

open Rule Language ElementReader Element
open Compiler (staff toOption_eq_some)

/-! ## Parts of a matched log -/

/-- A separator of a list with the connective that it stands for: the keyword itself, an implied
`AND`, or a comma between alternatives. -/
inductive Joins (p : Nat) : String → Matched → Prop
  | and : Joins p "AND" ⟨.ofKeyword "AND" p, true⟩
  | or : Joins p "OR" ⟨.ofKeyword "OR" p, true⟩
  | impliedAnd : Joins p "AND" ⟨.ofMarker .impliedAnd p, true⟩
  | comma : Joins p "OR" ⟨⟨.symbol, ",", p⟩, true⟩

namespace Joins

variable {p : Nat} {word : String} {x : Matched}

/-- Outside of calls a separator becomes the keyword of its connective. -/
theorem collect (h : Joins p word x) (calls : List Bool) (done : List Element) (rest : List Token)
    (hcalls : calls.headD false = false) :
    Element.collect .filter calls done (x.token :: rest) =
      Element.collect .filter calls (.token (.ofKeyword word p) :: done) rest := by
  cases h with
  | and | or => exact collect_plain rfl
  | impliedAnd => exact collect_impliedAnd p
  | comma => exact collect_comma hcalls p

/-- Spelled out it is that keyword, which stands for itself. -/
theorem spelled (h : Joins p word x) :
    x.spelled = .ofKeyword word p ∧ isPlain (.ofKeyword word p) = true := by
  cases h <;> exact ⟨rfl, rfl⟩

theorem between (h : Joins p word x) (a b : List Matched) :
    spelledOut (a ++ x :: b) = spelledOut a ++ .ofKeyword word p :: spelledOut b := by
  have hx : x.token.isSymbol "=" = false ∧ x.token.isKeyword "NULL" = false := by
    cases h <;> exact ⟨rfl, rfl⟩
  rw [spelledOut_append a (b := x :: b) hx.2, spelledOut_cons hx.1, h.spelled.1]

theorem classified (h : Joins p word x) : Classified [x] [.token (.ofKeyword word p)] := by
  cases h with
  | and | or => exact .token true rfl .nil
  | impliedAnd => exact .impliedAnd p .nil
  | comma => exact .alternative p .nil

theorem opens_no_call (h : Joins p word x) (done : List Element) :
    opensCall (.token (.ofKeyword word p) :: done) = false := by
  cases h <;> rfl

end Joins

/-- The matched log is a part of a filter with terms below a level of nesting. -/
inductive Phrased (n : Nat) : Level → List Matched → Prop
  | term {k : Nat} {m : List Matched} (hk : k < n) (h : Matches (Parses Part.body k) termRule m) :
    Phrased n .unary m
  | star (p : Nat) : Phrased n .unary (unseparated [⟨.symbol, "*", p⟩])
  | group {m : List Matched} (p q : Nat) (h : Phrased n .disjunction m) :
    Phrased n .unary (unseparated [⟨.symbol, "(", p⟩] ++ (m ++ unseparated [⟨.symbol, ")", q⟩]))
  | negation {m : List Matched} (p : Nat) (h : Phrased n .unary m) :
    Phrased n .unary (unseparated [.ofKeyword "NOT" p] ++ m)
  | single {m : List Matched} (h : Phrased n .unary m) : Phrased n .conjunction m
  | and {a b : List Matched} {x : Matched} (p : Nat) (hx : Joins p "AND" x)
    (ha : Phrased n .conjunction a) (hb : Phrased n .unary b) : Phrased n .conjunction (a ++ x :: b)
  | alternative {m : List Matched} (h : Phrased n .conjunction m) : Phrased n .disjunction m
  | or {a b : List Matched} {x : Matched} (p : Nat) (hx : Joins p "OR" x)
    (ha : Phrased n .disjunction a) (hb : Phrased n .conjunction b) :
    Phrased n .disjunction (a ++ x :: b)

theorem Phrased.mono {n k : Nat} {level : Level} {m : List Matched} (h : Phrased n level m)
    (hk : n ≤ k) : Phrased k level m := by
  induction h with
  | term hlt h => exact .term (Nat.lt_of_lt_of_le hlt hk) h
  | star p => exact .star p
  | group p q _ ih => exact .group p q ih
  | negation p _ ih => exact .negation p ih
  | single _ ih => exact .single ih
  | and p hx _ _ iha ihb => exact .and p hx iha ihb
  | alternative _ ih => exact .alternative ih
  | or p hx _ _ iha ihb => exact .or p hx iha ihb

/-- What holds of a single item, and of one more item behind a separator, holds of a list. -/
theorem list_induction {α : Type} {A S P : ListSet α} {l : List α}
    (h : Chained A (Repeated (Chained S A)) l) (single : ∀ a, A a → P a)
    (snoc : ∀ front s a, P front → S s → A a → P (front ++ (s ++ a))) : P l := by
  obtain ⟨first, _, rfl, hfirst, parts, rfl, hparts⟩ := h
  have hfront := single first hfirst
  generalize first = front at hfront
  clear hfirst
  induction parts generalizing front with
  | nil => simpa using hfront
  | cons part parts ih =>
    simp only [List.mem_cons, forall_eq_or_imp] at hparts
    obtain ⟨⟨s, a, rfl, hs, ha⟩, hrest⟩ := hparts
    rw [List.flatten_cons, ← List.append_assoc]
    exact ih hrest _ (snoc front s a hfront hs ha)

theorem phrased_negations {n : Nat} {nots m : List Matched}
    (h : Repeated (Lone .keyword "NOT") nots) (hm : Phrased n .unary m) :
    Phrased n .unary (nots ++ m) := by
  refine h.induction (P := fun nots => Phrased n .unary (nots ++ m)) hm ?_
  rintro _ rest ⟨p, rfl⟩ hrest
  rw [List.append_assoc]
  exact .negation p hrest

/-- The matched log of a filter is made of its parts. -/
theorem phrased_of_parses {n : Nat} {m : List Matched} (h : Parses Part.body n .filter m) :
    Phrased n .disjunction m := by
  induction n generalizing m with
  | zero => exact h.elim
  | succ n ih =>
    have hprimary : ∀ m, Matches (Parses Part.body n) primary m → Phrased (n + 1) .unary m := by
      intro m hm
      simp only [primary, Matches, MatchesAny, matches_symbol, or_false] at hm
      rcases hm with hm | ⟨p, rfl⟩ | hm
      · simp only [MatchesAll, Matches, matches_symbol, chained_nil_right] at hm
        obtain ⟨_, _, rfl, ⟨p, rfl⟩, inside, _, rfl, hinside, q, rfl⟩ := hm
        exact .group p q ((ih hinside).mono (Nat.le_succ n))
      · exact .star p
      · refine .term (Nat.lt_succ_self n) ?_
        simpa only [termRule, Matches, MatchesAny, or_false] using hm
    have hunary : ∀ m, Matches (Parses Part.body n) Language.unary m →
        Phrased (n + 1) .unary m := by
      intro m hm
      simp only [Language.unary, Matches, MatchesAny, MatchesAll, chained_nil_right, or_false] at hm
      rcases hm with ⟨_, _, rfl, hnot, more, inside, rfl, hmore, hinside⟩ | hm
      · rw [← List.append_assoc]
        exact phrased_negations (Repeated.cons hnot hmore) (hprimary inside hinside)
      · exact hprimary m hm
    have hconjunction : ∀ m, Matches (Parses Part.body n)
        (.list Language.unary (.choice [.keyword "AND", .action .impliedAnd])) m →
        Phrased (n + 1) .conjunction m := by
      intro m hm
      simp only [Matches, MatchesAny, or_false] at hm
      refine list_induction hm (fun a ha => .single (hunary a ha)) ?_
      rintro front _ a hfront ⟨_, ⟨p, rfl⟩ | ⟨p, rfl⟩, rfl⟩ ha
      · exact .and p .and hfront (hunary a ha)
      · exact .and p .impliedAnd hfront (hunary a ha)
    simp only [Parses, Part.body, Language.filter] at h
    rw [Matches] at h
    refine list_induction h (fun a ha => .alternative (hconjunction a ha)) ?_
    rintro front _ a hfront ⟨_, hs, rfl⟩ ha
    simp only [Matches, MatchesAny, matches_symbol, or_false] at hs
    rcases hs with ⟨p, rfl⟩ | ⟨p, rfl⟩
    · exact .or p .or hfront (hconjunction a ha)
    · exact .or p .comma hfront (hconjunction a ha)

/-! ## Elements outside of calls -/

/-- Outside of calls, and not behind the keyword of one, the log adds these elements, or is
refused. -/
def Settles (log : List Token) (v : Except QueryError (List Element)) : Prop :=
  ∀ calls done rest, calls.headD false = false → opensCall done = false →
    collect .filter calls done (log ++ rest) =
      v >>= fun es => collect .filter calls (es.reverse ++ done) rest

namespace Settles

variable {log a b : List Token} {v w : Except QueryError (List Element)}

theorem of_adds (h : ∀ calls, Adds .filter calls log v) : Settles log v :=
  fun calls done rest _ _ => h calls done rest

/-- A token that becomes one that opens no call, in front of a log. -/
theorem cons {t s : Token} (hopens : ∀ done, opensCall (.token s :: done) = false)
    (hstep : ∀ calls done rest, calls.headD false = false → collect .filter calls done (t :: rest) =
      collect .filter calls (.token s :: done) rest) (h : Settles log v) :
    Settles (t :: log) (v.map (.token s :: ·)) := by
  intro calls done rest hcalls _
  rw [List.cons_append, hstep calls done _ hcalls, h calls _ rest hcalls (hopens done)]
  cases v with
  | error why => rfl
  | ok es =>
    show collect .filter calls (es.reverse ++ .token s :: done) rest =
      collect .filter calls ((.token s :: es).reverse ++ done) rest
    simp

/-- A log behind a token that becomes one that opens no call, behind a log. -/
theorem connected {t s : Token} (hopens : ∀ done, opensCall (.token s :: done) = false)
    (hstep : ∀ calls done rest, calls.headD false = false → collect .filter calls done (t :: rest) =
      collect .filter calls (.token s :: done) rest) (ha : Settles a v) (hb : Settles b w) :
    Settles (a ++ t :: b) (do
      let front ← v
      let back ← w
      return front ++ .token s :: back) := by
  intro calls done rest hcalls hdone
  rw [List.append_assoc, ha calls done _ hcalls hdone]
  cases v with
  | error why => rfl
  | ok front =>
    show collect .filter calls (front.reverse ++ done) (t :: b ++ rest) = _
    rw [List.cons_append, hstep calls _ _ hcalls, hb calls _ rest hcalls (hopens _)]
    cases w with
    | error why => rfl
    | ok back =>
      show collect .filter calls (back.reverse ++ .token s :: (front.reverse ++ done)) rest =
        collect .filter calls ((front ++ .token s :: back).reverse ++ done) rest
      simp

theorem group (p q : Nat) (h : Settles log v) :
    Settles (⟨.symbol, "(", p⟩ :: (log ++ [⟨.symbol, ")", q⟩]))
      (v.map fun es => .token ⟨.symbol, "(", p⟩ :: (es ++ [.token ⟨.symbol, ")", q⟩])) := by
  intro calls done rest hcalls hdone
  rw [List.cons_append, collect_open, hdone, List.append_assoc, h _ _ _ rfl rfl]
  cases v with
  | error why => rfl
  | ok es =>
    show collect .filter (false :: calls) _ (⟨.symbol, ")", q⟩ :: rest) =
      collect .filter calls _ rest
    rw [collect_close]
    simp

/-- What a log adds in front of everything are its elements. -/
theorem ofTokens (h : Settles log v) : Element.ofTokens .filter log = v := by
  have hall := h [] [] [] rfl rfl
  rw [List.append_nil] at hall
  refine hall.trans ?_
  cases v with
  | error why => rfl
  | ok es =>
    show collect .filter [] (es.reverse ++ []) [] = _
    simp [collect]

end Settles

/-! ## Parts spelled out -/

/-- Both elements are a part of a filter with one tree, if the filters inside them have one. -/
def SamePart (level : Level) (es : List Element × List Element) : Prop :=
  ∀ (scope : Scope) (table : String) (nested : Nested), nested.Respects SameTree nested →
    ∃ v, Derives (TermReads scope nested table) level es.1 v ∧
      Derives (TermReads scope nested table) level es.2 v

theorem SamePart.and {front back : List Element × List Element} (p : Nat)
    (hfront : SamePart .conjunction front) (hback : SamePart .unary back) :
    SamePart .conjunction (front.1 ++ .token (.ofKeyword "AND" p) :: back.1,
      front.2 ++ .token (.ofKeyword "AND" p) :: back.2) := by
  intro scope table nested hnested
  obtain ⟨v, hv, hv'⟩ := hfront scope table nested hnested
  obtain ⟨w, hw, hw'⟩ := hback scope table nested hnested
  exact ⟨_, .and p hv hw, .and p hv' hw'⟩

theorem SamePart.or {front back : List Element × List Element} (p : Nat)
    (hfront : SamePart .disjunction front) (hback : SamePart .conjunction back) :
    SamePart .disjunction (front.1 ++ .token (.ofKeyword "OR" p) :: back.1,
      front.2 ++ .token (.ofKeyword "OR" p) :: back.2) := by
  intro scope table nested hnested
  obtain ⟨v, hv, hv'⟩ := hfront scope table nested hnested
  obtain ⟨w, hw, hw'⟩ := hback scope table nested hnested
  exact ⟨_, .or p hv hw, .or p hv' hw'⟩

/-- The matched log has elements outside of calls, and others when it is spelled out: the first are
those that it asks for, and both are a part of a filter with one tree. -/
structure PartTwice (level : Level) (m : List Matched)
    (r : Except QueryError (List Element × List Element)) : Prop where
  balanced : Block.Balanced (spelledOut m)
  settles : Settles (logOf m) (r.map (·.1))
  settlesSpelled : Settles (spelledOut m) (r.map (·.2))
  same : Yields (fun es => Classified m es.1 ∧ SamePart level es) r

namespace PartTwice

variable {level left right : Level} {m a b : List Matched}
  {r s : Except QueryError (List Element × List Element)}

/-- What has a tree at one level has one at another. -/
theorem lift (h : PartTwice left m r)
    (hlevel : ∀ es, SamePart left es → SamePart right es) : PartTwice right m r :=
  ⟨h.balanced, h.settles, h.settlesSpelled,
    h.same.mono fun es hes => ⟨hes.1, hlevel es hes.2⟩⟩

theorem single (h : PartTwice .unary m r) : PartTwice .conjunction m r :=
  h.lift fun _ hes scope table nested hnested =>
    (hes scope table nested hnested).imp fun _ hv => ⟨hv.1.single, hv.2.single⟩

theorem alternative (h : PartTwice .conjunction m r) : PartTwice .disjunction m r :=
  h.lift fun _ hes scope table nested hnested =>
    (hes scope table nested hnested).imp fun _ hv => ⟨hv.1.alternative, hv.2.alternative⟩

theorem star (p : Nat) : PartTwice .unary (unseparated [⟨.symbol, "*", p⟩])
    (.ok ([.token ⟨.symbol, "*", p⟩], [.token ⟨.symbol, "*", p⟩])) := by
  have hsettles : Settles [⟨.symbol, "*", p⟩] (.ok [.token ⟨.symbol, "*", p⟩]) :=
    .of_adds fun calls => Adds.plain (List.forall_mem_singleton.mpr rfl)
  exact ⟨Block.Balanced.token rfl rfl, hsettles, hsettles, .single rfl,
    fun scope table nested _ => ⟨_, .star p, .star p⟩⟩

theorem group (p q : Nat) (h : PartTwice .disjunction m r) :
    PartTwice .unary (unseparated [⟨.symbol, "(", p⟩] ++ (m ++ unseparated [⟨.symbol, ")", q⟩]))
      (r.map fun es => (.token ⟨.symbol, "(", p⟩ :: (es.1 ++ [.token ⟨.symbol, ")", q⟩]),
        .token ⟨.symbol, "(", p⟩ :: (es.2 ++ [.token ⟨.symbol, ")", q⟩]))) := by
  have hlog : logOf (unseparated [⟨.symbol, "(", p⟩] ++ (m ++ unseparated [⟨.symbol, ")", q⟩])) =
      ⟨.symbol, "(", p⟩ :: (logOf m ++ [⟨.symbol, ")", q⟩]) := by simp
  have hspelled : spelledOut (unseparated [⟨.symbol, "(", p⟩] ++
      (m ++ unseparated [⟨.symbol, ")", q⟩])) =
      ⟨.symbol, "(", p⟩ :: (spelledOut m ++ [⟨.symbol, ")", q⟩]) :=
    spelledOut_enclosed rfl rfl rfl m
  refine ⟨?_, ?_, ?_, h.same.map fun es hes => ⟨?_, fun scope table nested hnested => ?_⟩⟩
  · rw [hspelled]
    exact (Block.Balanced.token rfl rfl).append (h.balanced.append (Block.Balanced.token rfl rfl))
  · have hsettles := h.settles.group p q
    rw [hlog]
    cases r <;> exact hsettles
  · have hsettles := h.settlesSpelled.group p q
    rw [hspelled]
    cases r <;> exact hsettles
  · exact .parenthesis (Or.inl rfl) (hes.1.append (.parenthesis (Or.inr rfl) .nil))
  · obtain ⟨v, hv, hv'⟩ := hes.2 scope table nested hnested
    exact ⟨v, .group p q hv, .group p q hv'⟩

theorem negation (p : Nat) (h : PartTwice .unary m r) :
    PartTwice .unary (unseparated [.ofKeyword "NOT" p] ++ m)
      (r.map fun es =>
        (.token (.ofKeyword "NOT" p) :: es.1, .token (.ofKeyword "NOT" p) :: es.2)) := by
  have hspelled : spelledOut (unseparated [.ofKeyword "NOT" p] ++ m) =
      .ofKeyword "NOT" p :: spelledOut m := spelledOut_spelled rfl m
  have hnot : ∀ {log : List Token} {v : Except QueryError (List Element)}, Settles log v →
      Settles (.ofKeyword "NOT" p :: log) (v.map (.token (.ofKeyword "NOT" p) :: ·)) :=
    Settles.cons (fun _ => rfl) fun calls done rest _ => collect_plain rfl
  refine ⟨?_, ?_, ?_, h.same.map fun es hes => ⟨.token false rfl hes.1,
    fun scope table nested hnested => ?_⟩⟩
  · rw [hspelled]
    exact (Block.Balanced.token rfl rfl).append h.balanced
  · have hsettles := hnot h.settles
    cases r <;> exact hsettles
  · have hsettles := hnot h.settlesSpelled
    rw [hspelled]
    cases r <;> exact hsettles
  · obtain ⟨v, hv, hv'⟩ := hes.2 scope table nested hnested
    exact ⟨_, .negation p hv, .negation p hv'⟩

/-- Two parts with a separator between them. -/
theorem connected {p : Nat} {word : String} {x : Matched} (hx : Joins p word x)
    (ha : PartTwice left a r) (hb : PartTwice right b s)
    (hlevel : ∀ front back, SamePart left front → SamePart right back → SamePart level
      (front.1 ++ .token (.ofKeyword word p) :: back.1,
        front.2 ++ .token (.ofKeyword word p) :: back.2)) :
    PartTwice level (a ++ x :: b) (do
      let front ← r
      let back ← s
      return (front.1 ++ .token (.ofKeyword word p) :: back.1,
        front.2 ++ .token (.ofKeyword word p) :: back.2)) := by
  have hplain := hx.spelled.2
  refine ⟨?_, ?_, ?_, ha.same.bind fun front hfront => hb.same.map fun back hback => ⟨?_, ?_⟩⟩
  · rw [hx.between]
    exact ha.balanced.append ((Block.Balanced.token rfl rfl).append hb.balanced)
  · have hsettles := Settles.connected hx.opens_no_call hx.collect ha.settles hb.settles
    rw [logOf_append, logOf_cons]
    cases r <;> cases s <;> exact hsettles
  · have hsettles := Settles.connected hx.opens_no_call
      (fun calls done rest _ => collect_plain hplain) ha.settlesSpelled hb.settlesSpelled
    rw [hx.between]
    cases r <;> cases s <;> exact hsettles
  · exact hfront.1.append (hx.classified.append hback.1)
  · exact hlevel front back hfront.2 hback.2

theorem of_term (h : IsTermTwice m) : ∃ r, PartTwice .unary m r := by
  obtain ⟨r, hadds, hsame⟩ := h
  exact ⟨r, hadds.balanced, .of_adds hadds.adds, .of_adds hadds.addsSpelled,
    hsame.mono fun es hes => ⟨hes.1, fun scope table nested hnested =>
      (hes.2 scope table nested hnested).imp fun _ hv => ⟨.term hv.1, .term hv.2⟩⟩⟩

end PartTwice

/-- A part of a filter is one twice, if the filters inside its terms have the same tree spelled
out. -/
theorem Phrased.twice {n : Nat} {level : Level} {m : List Matched} (h : Phrased n level m)
    (hfilter : ∀ k < n, ∀ m, Parses Part.body k .filter m → Path.Filters SameTree m) :
    ∃ r, PartTwice level m r := by
  induction h with
  | term hk h => exact PartTwice.of_term (matches_term (fun i hi => hfilter i (hi.trans hk)) h)
  | star p => exact ⟨_, .star p⟩
  | group p q _ ih => exact ih.elim fun _ h => ⟨_, h.group p q⟩
  | negation p _ ih => exact ih.elim fun _ h => ⟨_, h.negation p⟩
  | single _ ih => exact ih.imp fun _ h => h.single
  | alternative _ ih => exact ih.imp fun _ h => h.alternative
  | and p hx _ _ iha ihb =>
    obtain ⟨r, ha⟩ := iha
    obtain ⟨s, hb⟩ := ihb
    exact ⟨_, ha.connected hx hb fun _ _ => SamePart.and p⟩
  | or p hx _ _ iha ihb =>
    obtain ⟨r, ha⟩ := iha
    obtain ⟨s, hb⟩ := ihb
    exact ⟨_, ha.connected hx hb fun _ _ => SamePart.or p⟩

/-! ## Whole filters -/

/-- A part that is a whole filter has the same tree spelled out. -/
theorem PartTwice.sameTree {m : List Matched} {r : Except QueryError (List Element × List Element)}
    (h : PartTwice .disjunction m r) : SameTree (logOf m) (spelledOut m) := by
  refine ⟨(spelledOut_length m).symm, fun scope table => ?_⟩
  -- Spelling out keeps the number of tokens, so the filters inside have the same bound.
  have hlog := h.settles.ofTokens
  have hspelled := h.settlesSpelled.ofTokens
  rw [buildIn, buildIn, spelledOut_length]
  have hsame := h.same
  cases r with
  | error why =>
    simp only [buildWith, ElementReader.run, hlog, hspelled]
    rfl
  | ok es =>
    have hnested : Nested.Respects SameTree
        (fun target inner =>
          if inner.length < (logOf m).length then buildIn scope target inner
          else internal .noProgress)
        (fun target inner =>
          if inner.length < (logOf m).length then buildIn scope target inner
          else internal .noProgress) := by
      intro x y hxy target
      simp only [hxy.1, hxy.2]
    obtain ⟨v, hv, hv'⟩ := hsame.2 scope table _ hnested
    rw [buildWith_derives hlog hv, buildWith_derives hspelled hv']

/-- The matched log is one of a filter. -/
def FilterMatch (m : List Matched) : Prop :=
  ∃ n, Parses Part.body n .filter m

theorem FilterMatch.filterLog {m : List Matched} (h : FilterMatch m) :
    Path.FilterLog (logOf m) := by
  obtain ⟨n, h⟩ := h
  refine ⟨n, ?_⟩
  rw [← logsOf_parses]
  exact ⟨m, h, rfl⟩

/-- A filter inside a path has the same tree spelled out. -/
theorem filters_of_parses (n : Nat) :
    ∀ m, Parses Part.body n .filter m → Path.Filters SameTree m := by
  induction n using Nat.strong_induction_on with
  | _ n ih =>
    -- A filter inside a path stands at a lower level than the one around it.
    intro m h
    obtain ⟨r, htwice⟩ := (phrased_of_parses h).twice ih
    exact ⟨htwice.sameTree, Path.FilterLog.balanced (FilterMatch.filterLog ⟨n, h⟩), htwice.balanced⟩

/--
A filter that the grammar accepts has a matched log. Whatever matched log it has, its elements are
those that the matched log asks for, or it is refused, and spelled out it has the same tree.
-/
theorem connectives_spelled_out {log : List Token} (h : Path.FilterLog log) :
    (∃ m, FilterMatch m ∧ logOf m = log) ∧
    ∀ m, FilterMatch m → logOf m = log →
      Yields (Classified m) (Element.ofTokens .filter log) ∧
      ∀ scope table, build scope table (spelledOut m) = build scope table log := by
  constructor
  · obtain ⟨n, h⟩ := h
    rw [← logsOf_parses] at h
    obtain ⟨m, hm, hlog⟩ := h
    exact ⟨m, ⟨n, hm⟩, hlog⟩
  · rintro m ⟨n, hm⟩ rfl
    obtain ⟨r, htwice⟩ := (phrased_of_parses hm).twice fun k _ => filters_of_parses k
    obtain ⟨hlength, htree⟩ := htwice.sameTree
    refine ⟨?_, fun scope table => ?_⟩
    · rw [htwice.settles.ofTokens]
      exact htwice.same.map fun es hes => hes.1
    · have hempty : (spelledOut m).isEmpty = (logOf m).isEmpty := by
        rw [Bool.eq_iff_iff, List.isEmpty_iff_length_eq_zero, List.isEmpty_iff_length_eq_zero,
          hlength]
      simp only [build, hempty, htree]

/-- Commas between alternatives and in calls, an implied `AND` and a test for null, some of them in
parentheses and in a filter inside a path. -/
theorem connectives_spelled_out_calls : ∃ scope log m es q, staff.scope = .ok scope ∧
    staff.log .filter
      "Name = NOW('UTC', +1 DAY), (Boss.WHERE(*, Name = NULL) DIFFERS(Name, Boss))" = .ok log ∧
    FilterMatch m ∧ logOf m = log ∧ Element.ofTokens .filter log = .ok es ∧ Classified m es ∧
    build scope "Person" (spelledOut m) = .ok (some q) ∧
    build scope "Person" log = .ok (some q) := by
  have hread : (staff.scope.toOption.bind fun scope => (staff.log .filter
      "Name = NOW('UTC', +1 DAY), (Boss.WHERE(*, Name = NULL) DIFFERS(Name, Boss))").toOption.bind
        fun log => (Element.ofTokens .filter log).toOption.bind fun _ =>
          (build scope "Person" log).toOption.bind fun q => q.map fun _ => log.isEmpty) =
      some false := by decide +kernel
  obtain ⟨scope, hscope, hread⟩ := Option.bind_eq_some_iff.mp hread
  obtain ⟨log, hlog, hread⟩ := Option.bind_eq_some_iff.mp hread
  obtain ⟨es, hes, hread⟩ := Option.bind_eq_some_iff.mp hread
  obtain ⟨_, hbuilt, hread⟩ := Option.bind_eq_some_iff.mp hread
  obtain ⟨q, rfl, hempty⟩ := Option.map_eq_some_iff.mp hread
  have hlog := toOption_eq_some hlog
  have hes := toOption_eq_some hes
  have hbuilt := toOption_eq_some hbuilt
  have hfilter : Path.FilterLog log :=
    ⟨_, (staff.log_answers .filter _).of_ok hlog (List.isEmpty_eq_false_iff.mp hempty)⟩
  obtain ⟨⟨m, hm, hleaves⟩, hall⟩ := connectives_spelled_out hfilter
  obtain ⟨hclassified, hsame⟩ := hall m hm hleaves
  rw [hes, yields_ok] at hclassified
  exact ⟨scope, log, m, es, q, toOption_eq_some hscope, hlog, hm, hleaves, hes, hclassified,
    (hsame scope "Person").trans hbuilt, hbuilt⟩

end LinkQuery.Filter
