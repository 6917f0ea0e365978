import LinkQuery.Proofs.TermLogs
import Mathlib.Logic.Function.Iterate
/-!
# Derivations of filters

A filter is a list of alternatives, an alternative a list of terms, and a term has any number of
negations in front of a star, of a filter in parentheses, or of a path or a call. A derivation says
so of a log and gives the tree that goes with it: a disjunction of conjunctions of negations.

Main statements:
- `Filter.derivation_of_filterLog`: the log of a filter has a derivation.
- `Filter.conjunctionOf_concat`, `Filter.disjunctionOf_concat`: combining trees one by one.
-/
namespace LinkQuery

open Rule Language

/-! ## Combining trees one by one -/

namespace Query

variable {schema : Schema} {good : Time.Timestamp → Prop} {table : String}

theorem conjuncts_append (front back : List Query) :
    conjuncts (front ++ back) = conjuncts front ++ conjuncts back := by
  fun_induction conjuncts front with
  | case1 => rfl
  | case2 nested rest ih => simp [conjuncts, ih]
  | case3 rest ih => simpa [conjuncts] using ih
  | case4 first rest hall heverything ih =>
    rw [List.cons_append, conjuncts, ih, List.cons_append]
    · exact hall
    · exact heverything

theorem disjuncts_append (front back : List Query) :
    disjuncts (front ++ back) = disjuncts front ++ disjuncts back := by
  fun_induction disjuncts front with
  | case1 => rfl
  | case2 nested rest ih => simp [disjuncts, ih]
  | case3 rest ih => simpa [disjuncts] using ih
  | case4 first rest hany hnothing ih =>
    rw [List.cons_append, disjuncts, ih, List.cons_append]
    · exact hany
    · exact hnothing

theorem conjuncts_singleton {q : Query} (h : q.isConjunct = true) : conjuncts [q] = [q] := by
  cases q <;> first | rfl | cases h

theorem disjuncts_singleton {q : Query} (h : q.isDisjunct = true) : disjuncts [q] = [q] := by
  cases q <;> first | rfl | cases h

/-- A conjunction has the conditions of its parts. -/
theorem conjuncts_and {parts : List Query} (h : ∀ q ∈ parts, q.WellFormed schema good table) :
    conjuncts [and parts] = conjuncts parts := by
  have hparts := conjuncts_wellFormed h
  unfold Query.and
  split
  · rename_i hnil
    rw [hnil]
    rfl
  · rename_i only hone
    rw [hone]
    exact conjuncts_singleton (hparts only (by simp [hone])).2
  · exact List.append_nil _

/-- A disjunction has the conditions of its parts. -/
theorem disjuncts_or {parts : List Query} (h : ∀ q ∈ parts, q.WellFormed schema good table) :
    disjuncts [or parts] = disjuncts parts := by
  have hparts := disjuncts_wellFormed h
  unfold Query.or
  split
  · rename_i hnil
    rw [hnil]
    rfl
  · rename_i only hone
    rw [hone]
    exact disjuncts_singleton (hparts only (by simp [hone])).2
  · exact List.append_nil _

theorem and_concat {parts : List Query} (h : ∀ q ∈ parts, q.WellFormed schema good table)
    (last : Query) : and [and parts, last] = and (parts ++ [last]) := by
  have hconjuncts : conjuncts [and parts, last] = conjuncts (parts ++ [last]) := by
    rw [conjuncts_append, ← conjuncts_and h, ← conjuncts_append]
    rfl
  unfold Query.and at hconjuncts ⊢
  rw [hconjuncts]

theorem or_concat {parts : List Query} (h : ∀ q ∈ parts, q.WellFormed schema good table)
    (last : Query) : or [or parts, last] = or (parts ++ [last]) := by
  have hdisjuncts : disjuncts [or parts, last] = disjuncts (parts ++ [last]) := by
    rw [disjuncts_append, ← disjuncts_or h, ← disjuncts_append]
    rfl
  unfold Query.or at hdisjuncts ⊢
  rw [hdisjuncts]

theorem and_singleton {q : Query} (h : q.WellFormed schema good table) : and [q] = q := by
  cases q with
  | allOf children =>
    match children, h.1 with
    | a :: b :: rest, _ => simp [Query.and, conjuncts]
  | _ => rfl

theorem or_singleton {q : Query} (h : q.WellFormed schema good table) : or [q] = q := by
  cases q with
  | anyOf children =>
    match children, h.1 with
    | a :: b :: rest, _ => simp [Query.or, disjuncts]
  | _ => rfl

end Query

namespace Filter

/-- A tree, or the reason to refuse it. -/
abbrev Built := Except QueryError Query

/-- All of the trees in order, or the first refusal. -/
def conjunctionOf (parts : List Built) : Built := do
  return Query.and (← parts.mapM id)

/-- At least one of the trees in order, or the first refusal. -/
def disjunctionOf (parts : List Built) : Built := do
  return Query.or (← parts.mapM id)

section Combining

variable {schema : Schema} {good : Time.Timestamp → Prop} {table : String} {parts : List Built}
  {last : Built}

theorem parts_yield (h : ∀ part ∈ parts, Yields (Query.WellFormed schema good table) part) :
    Yields (fun qs => ∀ q ∈ qs, Query.WellFormed schema good table q) (parts.mapM id) :=
  Yields.mapM h

theorem conjunctionOf_yields
    (h : ∀ part ∈ parts, Yields (Query.WellFormed schema good table) part) :
    Yields (Query.WellFormed schema good table) (conjunctionOf parts) :=
  (parts_yield h).map fun _ hqs => Query.WellFormed.and hqs

theorem disjunctionOf_yields
    (h : ∀ part ∈ parts, Yields (Query.WellFormed schema good table) part) :
    Yields (Query.WellFormed schema good table) (disjunctionOf parts) :=
  (parts_yield h).map fun _ hqs => Query.WellFormed.or hqs

theorem conjunctionOf_singleton (h : Yields (Query.WellFormed schema good table) last) :
    conjunctionOf [last] = last := by
  obtain ⟨_, rfl, -⟩ | ⟨q, rfl, hq⟩ := h.cases
  · rfl
  · exact congrArg Except.ok (Query.and_singleton hq)

theorem disjunctionOf_singleton (h : Yields (Query.WellFormed schema good table) last) :
    disjunctionOf [last] = last := by
  obtain ⟨_, rfl, -⟩ | ⟨q, rfl, hq⟩ := h.cases
  · rfl
  · exact congrArg Except.ok (Query.or_singleton hq)

/-- A conjunction with one more part. -/
theorem conjunctionOf_concat
    (h : ∀ part ∈ parts, Yields (Query.WellFormed schema good table) part) :
    conjunctionOf (parts ++ [last]) = (do return Query.and [← conjunctionOf parts, ← last]) := by
  unfold conjunctionOf
  rw [List.mapM_append]
  obtain ⟨_, hparts, -⟩ | ⟨qs, hparts, hqs⟩ := (parts_yield h).cases
  · rw [hparts]
    rfl
  · rw [hparts]
    cases last with
    | error why => rfl
    | ok q => exact congrArg Except.ok (Query.and_concat hqs q).symm

/-- A disjunction with one more part. -/
theorem disjunctionOf_concat
    (h : ∀ part ∈ parts, Yields (Query.WellFormed schema good table) part) :
    disjunctionOf (parts ++ [last]) = (do return Query.or [← disjunctionOf parts, ← last]) := by
  unfold disjunctionOf
  rw [List.mapM_append]
  obtain ⟨_, hparts, -⟩ | ⟨qs, hparts, hqs⟩ := (parts_yield h).cases
  · rw [hparts]
    rfl
  · rw [hparts]
    cases last with
    | error why => rfl
    | ok q => exact congrArg Except.ok (Query.or_concat hqs q).symm

end Combining

/-! ## Derivations -/

/-- The logs of items that each stand behind a separator. -/
inductive Joined (separator : LogSet) : List (List Token) → List Token → Prop
  | nil : Joined separator [] []
  | cons {gap item log : List Token} {items : List (List Token)} (h : separator gap)
    (hrest : Joined separator items log) :
    Joined separator (item :: items) (gap ++ (item ++ log))

theorem Joined.item_length {separator : LogSet} {items : List (List Token)} {log item : List Token}
    (h : Joined separator items log) (hitem : item ∈ items) : item.length ≤ log.length := by
  induction h with
  | nil => cases hitem
  | cons _ _ ih =>
    simp only [List.length_append]
    rcases List.mem_cons.mp hitem with rfl | hitem
    · omega
    · have := ih hitem
      omega

/-- What stands between two terms of an alternative. -/
def AndLog : LogSet :=
  fun log => Single .keyword "AND" log ∨ Single (.marker .impliedAnd) "" log

/-- What stands between two alternatives. -/
def OrLog : LogSet :=
  fun log => Single .keyword "OR" log ∨ Single .symbol "," log

/-- The parts of a filter. -/
inductive Phrase where
  /-- A term without the negations in front of it. -/
  | primary
  /-- A term. -/
  | unary
  /-- An alternative. -/
  | conjunction
  /-- A filter. -/
  | disjunction

/-- The log is a part of a filter, with its tree or the reason to refuse it. `termTree` gives the
trees of paths and calls. -/
inductive Derivation (termTree : List Token → Built) : Phrase → List Token → Built → Prop
  | term {log : List Token} (h : TermLog log) : Derivation termTree .primary log (termTree log)
  | star (p : Nat) : Derivation termTree .primary [⟨.symbol, "*", p⟩] (.ok .everything)
  | group {log : List Token} {v : Built} (p q : Nat) (h : Derivation termTree .disjunction log v) :
    Derivation termTree .primary (⟨.symbol, "(", p⟩ :: (log ++ [⟨.symbol, ")", q⟩])) v
  | unary {log : List Token} {v : Built} (nots : List Nat)
    (h : Derivation termTree .primary log v) :
    Derivation termTree .unary (nots.map (Token.ofKeyword "NOT") ++ log)
      (v.map Query.not^[nots.length])
  | conjunction {first : List Token × Built} {rest : List (List Token × Built)} {log : List Token}
    (hterms : ∀ t ∈ first :: rest, Derivation termTree .unary t.1 t.2)
    (hlog : Joined AndLog (rest.map (·.1)) log) :
    Derivation termTree .conjunction (first.1 ++ log) (conjunctionOf ((first :: rest).map (·.2)))
  | disjunction {first : List Token × Built} {rest : List (List Token × Built)} {log : List Token}
    (hparts : ∀ t ∈ first :: rest, Derivation termTree .conjunction t.1 t.2)
    (hlog : Joined OrLog (rest.map (·.1)) log) :
    Derivation termTree .disjunction (first.1 ++ log) (disjunctionOf ((first :: rest).map (·.2)))

section Existence

variable {termTree : List Token → Built} {n : Nat} {log : List Token}

/-- Items with separators between them, each with a tree. -/
theorem exists_joined {A S R : LogSet} {D : List Token × Built → Prop} (hS : ∀ log, S log → R log)
    (hA : ∀ log, A log → ∃ v, D (log, v)) (h : Chained A (Repeated (Chained S A)) log) :
    ∃ first rest behind, log = first.1 ++ behind ∧ (∀ t ∈ first :: rest, D t) ∧
      Joined R (rest.map (·.1)) behind := by
  obtain ⟨first, behind, rfl, hfirst, hbehind⟩ := h
  obtain ⟨v, hv⟩ := hA first hfirst
  suffices hrest : ∃ rest : List (List Token × Built), (∀ t ∈ rest, D t) ∧
      Joined R (rest.map (·.1)) behind by
    obtain ⟨rest, hrest, hjoined⟩ := hrest
    exact ⟨(first, v), rest, behind, rfl, List.forall_mem_cons.mpr ⟨hv, hrest⟩, hjoined⟩
  refine hbehind.induction (P := fun behind => ∃ rest : List (List Token × Built),
    (∀ t ∈ rest, D t) ∧ Joined R (rest.map (·.1)) behind) ⟨[], by simp, .nil⟩ ?_
  rintro _ log ⟨gap, item, rfl, hgap, hitem⟩ ⟨rest, hrest, hjoined⟩
  obtain ⟨w, hw⟩ := hA item hitem
  refine ⟨(item, w) :: rest, List.forall_mem_cons.mpr ⟨hw, hrest⟩, ?_⟩
  rw [List.append_assoc]
  exact .cons (hS gap hgap) hjoined

/-- A relation between the logs of parts of filters and their trees that every way to form a part
keeps. The terms are those of a set, and filters in parentheses satisfy `Inner`. -/
structure Phrases (termTree : List Token → Built) (terms : LogSet)
    (Inner : List Token → Built → Prop) (D : Phrase → List Token → Built → Prop) : Prop where
  term : ∀ log, terms log → D .primary log (termTree log)
  star : ∀ p, D .primary [⟨.symbol, "*", p⟩] (.ok .everything)
  group : ∀ p q log v, Inner log v →
    D .primary (⟨.symbol, "(", p⟩ :: (log ++ [⟨.symbol, ")", q⟩])) v
  unary : ∀ (nots : List Nat) log v, D .primary log v →
    D .unary (nots.map (Token.ofKeyword "NOT") ++ log) (v.map Query.not^[nots.length])
  conjunction : ∀ (first : List Token × Built) (rest : List (List Token × Built)) log,
    (∀ t ∈ first :: rest, D .unary t.1 t.2) → Joined AndLog (rest.map (·.1)) log →
      D .conjunction (first.1 ++ log) (conjunctionOf ((first :: rest).map (·.2)))
  disjunction : ∀ (first : List Token × Built) (rest : List (List Token × Built)) log,
    (∀ t ∈ first :: rest, D .conjunction t.1 t.2) → Joined OrLog (rest.map (·.1)) log →
      D .disjunction (first.1 ++ log) (disjunctionOf ((first :: rest).map (·.2)))

theorem derivation_phrases {terms : LogSet} (hterms : ∀ log, terms log → TermLog log) :
    Phrases termTree terms (Derivation termTree .disjunction) (Derivation termTree) where
  term log h := .term (hterms log h)
  star p := .star p
  group p q _ _ h := .group p q h
  unary nots _ _ h := .unary nots h
  conjunction _ _ _ hterms hlog := .conjunction hterms hlog
  disjunction _ _ _ hparts hlog := .disjunction hparts hlog

section Phrases

variable {Inner : List Token → Built → Prop} {D : Phrase → List Token → Built → Prop}
  (hD : Phrases termTree (Produces (Generates Part.body n) termRule) Inner D)
  (hfilter : ∀ log, Generates Part.body n .filter log → ∃ v, Inner log v)

include hD hfilter

theorem Phrases.exists_primary (h : Produces (Generates Part.body n) primary log) :
    ∃ v, D .primary log v := by
  simp only [primary, Produces, ProducesAny, produces_symbol, or_false] at h
  rcases h with h | ⟨p, rfl⟩ | h
  · simp only [ProducesAll, Produces, produces_symbol, chained_nil_right] at h
    obtain ⟨_, _, rfl, ⟨p, rfl⟩, inside, _, rfl, hinside, q, rfl⟩ := h
    obtain ⟨v, hv⟩ := hfilter inside hinside
    exact ⟨v, hD.group p q inside v hv⟩
  · exact ⟨_, hD.star p⟩
  · refine ⟨_, hD.term log ?_⟩
    simpa only [termRule, Produces, ProducesAny, or_false] using h

omit hD hfilter in
/-- The tokens of negations. -/
theorem nots_of_repeated (h : Repeated (Single .keyword "NOT") log) :
    ∃ nots : List Nat, log = nots.map (Token.ofKeyword "NOT") := by
  refine h.induction (P := fun log => ∃ nots : List Nat, log = nots.map (Token.ofKeyword "NOT"))
    ⟨[], rfl⟩ ?_
  rintro _ rest ⟨p, rfl⟩ ⟨nots, rfl⟩
  exact ⟨p :: nots, rfl⟩

theorem Phrases.exists_unary (h : Produces (Generates Part.body n) Language.unary log) :
    ∃ v, D .unary log v := by
  simp only [Language.unary, Produces, ProducesAny, ProducesAll, chained_nil_right, or_false] at h
  rcases h with ⟨_, _, rfl, hnot, more, term, rfl, hmore, hterm⟩ | h
  · obtain ⟨nots, hnots⟩ := nots_of_repeated (Repeated.cons hnot hmore)
    obtain ⟨v, hv⟩ := hD.exists_primary hfilter hterm
    rw [← List.append_assoc, hnots]
    exact ⟨_, hD.unary nots term v hv⟩
  · obtain ⟨v, hv⟩ := hD.exists_primary hfilter h
    exact ⟨_, hD.unary [] log v hv⟩

theorem Phrases.exists_conjunction (h : Produces (Generates Part.body n)
      (.list Language.unary (.choice [.keyword "AND", .action .impliedAnd])) log) :
    ∃ v, D .conjunction log v := by
  rw [Produces] at h
  obtain ⟨first, rest, behind, rfl, hterms, hlog⟩ := exists_joined
    (R := AndLog) (D := fun t => D .unary t.1 t.2)
    (fun log hlog => by simpa only [Produces, ProducesAny, or_false, AndLog] using hlog)
    (fun log hlog => hD.exists_unary hfilter hlog) h
  exact ⟨_, hD.conjunction first rest behind hterms hlog⟩

theorem Phrases.exists_disjunction (h : Generates Part.body (n + 1) .filter log) :
    ∃ v, D .disjunction log v := by
  simp only [Generates, Part.body, Language.filter] at h
  rw [Produces] at h
  obtain ⟨first, rest, behind, rfl, hparts, hlog⟩ := exists_joined
    (R := OrLog) (D := fun t => D .conjunction t.1 t.2)
    (fun log hlog => by
      simpa only [Produces, ProducesAny, produces_symbol, or_false, OrLog] using hlog)
    (fun log hlog => hD.exists_conjunction hfilter hlog) h
  exact ⟨_, hD.disjunction first rest behind hparts hlog⟩

end Phrases

/-- The log of a filter has a tree at its level when every level forms its parts from the one below. -/
theorem exists_phrase {D : Nat → Phrase → List Token → Built → Prop}
    (hD : ∀ m < n, Phrases termTree (Produces (Generates Part.body m) termRule)
      (D m .disjunction) (D (m + 1)))
    (h : Generates Part.body n .filter log) : ∃ v, D n .disjunction log v := by
  induction n generalizing log with
  | zero => exact h.elim
  | succ n ih =>
    have hbelow := fun m hm => hD m (Nat.lt_succ_of_lt hm)
    exact (hD n (Nat.lt_succ_self n)).exists_disjunction (fun _ hlog => ih hbelow hlog) h

/-- The log of a filter has a derivation. -/
theorem derivation_of_filterLog (h : Path.FilterLog log) :
    ∃ v, Derivation termTree .disjunction log v :=
  h.elim fun _ h => exists_phrase (D := fun _ => Derivation termTree)
    (fun m _ => derivation_phrases fun _ hlog => ⟨m, hlog⟩) h

end Existence

end Filter

end LinkQuery
