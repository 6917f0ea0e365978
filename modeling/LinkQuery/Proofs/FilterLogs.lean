import LinkQuery.Proofs.Derivations
/-!
# Reading the logs of filters

The stacks that read a filter arrive at the tree of its derivation. So a filter becomes a
well-formed tree, or is refused as invalid.

Main statements:
- `Filter.Derivation.gathers`: the elements of a part of a filter have the tree of its derivation.
- `Filter.buildWith_derivation`: the tree of a filter is that of its derivation.
- `Filter.buildIn_yields`: the tree of a log.
-/
namespace LinkQuery.Filter

open Rule Language ElementReader Element
open Time (Timestamp)

/-! ## Terms by themselves -/

theorem nextPath_eq_ok {path : Path} {es rest : List Element}
    (h : nextPath es = .ok (path, rest)) : es = .path path :: rest := by
  match es, h with
  | .path p :: rest, h =>
    obtain ⟨rfl, rfl⟩ := Prod.mk.inj (Except.ok.inj h)
    rfl

theorem symbol_eq_ok {text : String} {u : Unit} {es rest : List Element}
    (h : ElementReader.symbol text es = .ok (u, rest)) : ∃ t, es = .token t :: rest := by
  unfold ElementReader.symbol at h
  obtain ⟨⟨t, behind⟩, htoken, hrest⟩ := bind_eq_ok h
  match es, htoken with
  | .token t :: behind, htoken =>
    obtain ⟨rfl, rfl⟩ := Prod.mk.inj (Except.ok.inj htoken)
    dsimp only at hrest
    split at hrest
    · cases hrest
    · obtain ⟨-, rfl⟩ := Prod.mk.inj (Except.ok.inj hrest)
      exact ⟨t, rfl⟩

theorem countedPath_mem {path : Path} {es rest : List Element}
    (h : countedPath es = .ok (path, rest)) : .path path ∈ es := by
  unfold countedPath at h
  obtain ⟨⟨_, behind⟩, hopen, h⟩ := bind_eq_ok h
  obtain ⟨⟨counted, behind'⟩, hpath, h⟩ := bind_eq_ok h
  obtain ⟨⟨_, behind''⟩, -, h⟩ := bind_eq_ok h
  obtain ⟨rfl, -⟩ := Prod.mk.inj (Except.ok.inj h)
  obtain ⟨t, rfl⟩ := symbol_eq_ok hopen
  obtain rfl := nextPath_eq_ok hpath
  simp

/-- Reads a term from its first element on. -/
def soleTerm (scope : Scope) (nested : Nested) (table : String) : ElementReader Query := do
  match ← peek? with
  | none => fail .noOperand
  | some element =>
    skip
    term scope nested table element

/-- The tree of a log that holds nothing but one term. -/
def termTree (scope : Scope) (nested : Nested) (table : String) (tokens : List Token) : Built :=
  run (soleTerm scope nested table) .filter tokens

theorem termTree_of_refused {scope : Scope} {nested : Nested} {table : String} {log : List Token}
    {why : QueryError} (h : ofTokens .filter log = .error why) :
    termTree scope nested table log = .error why := by
  unfold termTree ElementReader.run
  rw [h]
  rfl

theorem termTree_of_elements {scope : Scope} {nested : Nested} {table : String} {log : List Token}
    {e : Element} {tail : List Element} (h : ofTokens .filter log = .ok (e :: tail)) :
    termTree scope nested table log = (term scope nested table e tail).map (·.1) := by
  unfold termTree ElementReader.run
  rw [h]
  show (term scope nested table e tail >>= fun found => Except.ok found.1) = _
  cases term scope nested table e tail <;> rfl

section Levels

variable {scope : Scope} {nested : Nested} {table : String} {good : Timestamp → Prop} {limit : Nat}
  {calls : List Bool} {done : List Element} {log : List Token} {v : Built}

/-- The level of precedence of a part of a filter. -/
def Phrase.level : Phrase → Level
  | .primary | .unary => .unary
  | .conjunction => .conjunction
  | .disjunction => .disjunction

/-- The elements are a part of a filter with this tree, which is well formed. -/
def IsPhrase (scope : Scope) (nested : Nested) (table : String) (good : Timestamp → Prop)
    (level : Level) (v : Built) : ListSet Element :=
  fun es => Derives (TermReads scope nested table) level es v ∧
    Yields (Query.WellFormed scope.schema good table) v

/-- A term by itself has the tree that it has wherever it stands. -/
theorem gathers_term (hclock : scope.clock.Shows good)
    (hnested : nested.Builds scope.schema good (Path.InnerLog limit)) (h : TermLog log)
    (hlimit : log.length ≤ limit) :
    Gathers .filter calls done log
      (IsPhrase scope nested table good .unary (termTree scope nested table log)) := by
  have hterm : AddsTerm scope table good (Path.InnerLog limit) log := adds_term hclock h hlimit
  obtain ⟨v, hadds, hv⟩ := hterm
  refine (hadds calls).gathers ?_
  obtain ⟨why, rfl, hwhy⟩ | ⟨_, rfl, e, tail, rfl, hglue, -, hterm⟩ := hv.cases
  · exact hwhy
  · obtain ⟨w, hreads, hw⟩ := hterm nested hnested
    have htree : termTree scope nested table log = w := by
      have hsole := hreads [] nofun
      rw [List.append_nil] at hsole
      rw [termTree_of_elements (hadds []).ofTokens, hsole]
      cases w <;> rfl
    rw [htree]
    exact ⟨.term ⟨e, tail, rfl, hglue, hreads⟩, hw⟩

/-! ## Parts of a filter -/

/-- Items behind separators, read one by one behind the items in front of them. -/
theorem Joined.gathers {separator : LogSet} {items : List (List Token × Built)}
    {P : List Built → ListSet Element} (h : Joined separator (items.map (·.1)) log)
    (hlimit : log.length ≤ limit)
    (hnext : ∀ t ∈ items, ∀ trees front gap, P trees front → separator gap →
      t.1.length ≤ limit → Gathers .filter calls (front.reverse ++ done) (gap ++ t.1)
        (fun more => P (trees ++ [t.2]) (front ++ more)))
    {trees : List Built} {front : List Element} (hfront : P trees front) :
    Gathers .filter calls (front.reverse ++ done) log
      (fun more => P (trees ++ items.map (·.2)) (front ++ more)) := by
  induction items generalizing log trees front with
  | nil =>
    cases h
    exact Gathers.nil.mono (by simpa using hfront)
  | cons t items ih =>
    simp only [List.map_cons] at h
    cases h with
    | cons hgap hrest =>
      simp only [List.length_append] at hlimit
      simp only [List.mem_cons, forall_eq_or_imp] at hnext
      rw [← List.append_assoc]
      refine Gathers.append (hnext.1 trees front _ hfront hgap (by omega)) fun es hes => ?_
      simpa using ih hrest (by omega) hnext.2 hes

/-- The elements are the parts of a conjunction so far. -/
def IsConjunction (scope : Scope) (nested : Nested) (table : String) (good : Timestamp → Prop)
    (parts : List Built) : ListSet Element :=
  fun es => Derives (TermReads scope nested table) .conjunction es (conjunctionOf parts) ∧
    ∀ part ∈ parts, Yields (Query.WellFormed scope.schema good table) part

/-- The elements are the parts of a disjunction so far. -/
def IsDisjunction (scope : Scope) (nested : Nested) (table : String) (good : Timestamp → Prop)
    (parts : List Built) : ListSet Element :=
  fun es => Derives (TermReads scope nested table) .disjunction es (disjunctionOf parts) ∧
    ∀ part ∈ parts, Yields (Query.WellFormed scope.schema good table) part

theorem IsPhrase.conjunction {es : List Element} (h : IsPhrase scope nested table good .unary v es) :
    IsConjunction scope nested table good [v] es := by
  refine ⟨?_, List.forall_mem_singleton.mpr h.2⟩
  rw [conjunctionOf_singleton h.2]
  exact .single h.1

theorem IsPhrase.disjunction {es : List Element}
    (h : IsPhrase scope nested table good .conjunction v es) :
    IsDisjunction scope nested table good [v] es := by
  refine ⟨?_, List.forall_mem_singleton.mpr h.2⟩
  rw [disjunctionOf_singleton h.2]
  exact .alternative h.1

theorem IsConjunction.and {parts : List Built} {front es : List Element} (p : Nat)
    (hfront : IsConjunction scope nested table good parts front)
    (h : IsPhrase scope nested table good .unary v es) :
    IsConjunction scope nested table good (parts ++ [v])
      (front ++ .token (.ofKeyword "AND" p) :: es) := by
  refine ⟨?_, List.forall_mem_append.mpr ⟨hfront.2, List.forall_mem_singleton.mpr h.2⟩⟩
  rw [conjunctionOf_concat hfront.2]
  exact .and p hfront.1 h.1

theorem IsDisjunction.or {parts : List Built} {front es : List Element} (p : Nat)
    (hfront : IsDisjunction scope nested table good parts front)
    (h : IsPhrase scope nested table good .conjunction v es) :
    IsDisjunction scope nested table good (parts ++ [v])
      (front ++ .token (.ofKeyword "OR" p) :: es) := by
  refine ⟨?_, List.forall_mem_append.mpr ⟨hfront.2, List.forall_mem_singleton.mpr h.2⟩⟩
  rw [disjunctionOf_concat hfront.2]
  exact .or p hfront.1 h.1

/-- Negations in front of a term. -/
theorem gathers_negations (nots : List Nat) (hdone : opensCall done = false)
    (h : ∀ done, opensCall done = false →
      Gathers .filter calls done log (IsPhrase scope nested table good .unary v)) :
    Gathers .filter calls done (nots.map (Token.ofKeyword "NOT") ++ log)
      (IsPhrase scope nested table good .unary (v.map Query.not^[nots.length])) := by
  induction nots generalizing done with
  | nil =>
    refine (h done hdone).mono fun es hes => ?_
    cases v <;> exact hes
  | cons p nots ih =>
    have hnot : opensCall (.token (.ofKeyword "NOT" p) :: done) = false := rfl
    refine Gathers.cons (fun _ => collect_plain rfl) ((ih hnot).mono fun es hes => ?_)
    have hone : v.map Query.not^[nots.length + 1] =
        (v.map Query.not^[nots.length]).map Query.not := by
      rw [Function.iterate_succ']
      cases v <;> rfl
    rw [List.length_cons, hone]
    exact ⟨.negation p hes.1, hes.2.map fun _ hq => hq.not⟩

/-- The elements of a part of a filter have the tree of its derivation. -/
theorem Derivation.gathers (hclock : scope.clock.Shows good)
    (hnested : nested.Builds scope.schema good (Path.InnerLog limit)) {phrase : Phrase}
    (h : Derivation (termTree scope nested table) phrase log v) (hlimit : log.length ≤ limit)
    (houtside : calls.headD false = false) (hdone : opensCall done = false) :
    Gathers .filter calls done log (IsPhrase scope nested table good phrase.level v) := by
  induction h generalizing calls done with
  | term h => exact gathers_term hclock hnested h hlimit
  | star p =>
    refine (Adds.plain (List.forall_mem_singleton.mpr rfl)).gathers ?_
    exact ⟨.star p, trivial⟩
  | group p q h ih =>
    simp only [List.length_append, List.length_cons] at hlimit
    have hinside : Gathers .filter (false :: calls) (.token ⟨.symbol, "(", p⟩ :: done) _ _ :=
      ih (by omega) rfl rfl
    refine (Gathers.inParentheses hdone p q hinside).mono ?_
    rintro _ ⟨es, hes, rfl⟩
    exact ⟨.group p q hes.1, hes.2⟩
  | unary nots h ih =>
    simp only [List.length_append] at hlimit
    exact gathers_negations nots hdone fun done hdone => ih (by omega) houtside hdone
  | @conjunction first rest log hterms hlog ih =>
    simp only [List.length_append] at hlimit
    simp only [List.mem_cons, forall_eq_or_imp] at ih
    refine Gathers.append (P := IsConjunction scope nested table good [first.2])
      ((ih.1 (by omega) houtside hdone).mono fun es hes => hes.conjunction) fun front hfront => ?_
    refine (Joined.gathers hlog (show _ ≤ limit by omega) ?_ hfront).mono fun es hes =>
      ⟨hes.1, conjunctionOf_yields hes.2⟩
    intro t ht trees front gap hfront hgap hlimit
    have hright : ∀ p, Gathers .filter calls
        (.token (.ofKeyword "AND" p) :: (front.reverse ++ done)) t.1
        (fun more => IsConjunction scope nested table good (trees ++ [t.2])
          (front ++ .token (.ofKeyword "AND" p) :: more)) := fun p =>
      (ih.2 t ht hlimit houtside rfl).mono fun es hes => hfront.and p hes
    rcases hgap with ⟨p, rfl⟩ | ⟨p, rfl⟩
    · exact Gathers.cons (fun _ => collect_plain rfl) (hright p)
    · exact Gathers.cons (fun _ => collect_impliedAnd p) (hright p)
  | @disjunction first rest log hparts hlog ih =>
    simp only [List.length_append] at hlimit
    simp only [List.mem_cons, forall_eq_or_imp] at ih
    refine Gathers.append (P := IsDisjunction scope nested table good [first.2])
      ((ih.1 (by omega) houtside hdone).mono fun es hes => hes.disjunction) fun front hfront => ?_
    refine (Joined.gathers hlog (show _ ≤ limit by omega) ?_ hfront).mono fun es hes =>
      ⟨hes.1, disjunctionOf_yields hes.2⟩
    intro t ht trees front gap hfront hgap hlimit
    have hright : ∀ p, Gathers .filter calls
        (.token (.ofKeyword "OR" p) :: (front.reverse ++ done)) t.1
        (fun more => IsDisjunction scope nested table good (trees ++ [t.2])
          (front ++ .token (.ofKeyword "OR" p) :: more)) := fun p =>
      (ih.2 t ht hlimit houtside rfl).mono fun es hes => hfront.or p hes
    rcases hgap with ⟨p, rfl⟩ | ⟨p, rfl⟩
    · exact Gathers.cons (fun _ => collect_plain rfl) (hright p)
    · exact Gathers.cons (fun _ => collect_comma houtside p) (hright p)

end Levels

/-! ## Logs -/

variable {scope : Scope} {table : String} {good : Timestamp → Prop} {log : List Token}

/-- The tree of a filter is that of its derivation, unless its elements are refused. -/
theorem buildWith_derivation {nested : Nested} {v : Built} (hclock : scope.clock.Shows good)
    (hnested : nested.Builds scope.schema good (Path.InnerLog log.length))
    (h : Derivation (termTree scope nested table) .disjunction log v) :
    (∃ why, QueryError.IsRefusal why ∧ ofTokens .filter log = .error why ∧
        buildWith scope nested table log = .error why) ∨
      (∃ es, ofTokens .filter log = .ok es) ∧ buildWith scope nested table log = v ∧
        Yields (Query.WellFormed scope.schema good table) v := by
  have hgathers : Gathers .filter [] [] log _ :=
    h.gathers hclock hnested (Nat.le_refl _) rfl rfl
  rcases hgathers with ⟨why, hwhy, hrefused⟩ | ⟨es, ⟨hv, hP⟩, hes⟩
  · have helements : ofTokens .filter log = .error why := by simpa [ofTokens] using hrefused []
    refine Or.inl ⟨why, hwhy, helements, ?_⟩
    unfold buildWith ElementReader.run
    rw [helements]
    rfl
  · have helements : ofTokens .filter log = .ok es := by
      simpa [ofTokens, collect] using hes []
    exact Or.inr ⟨⟨es, helements⟩, buildWith_derives helements hv, hP⟩

/-- The tree of a log whose inner filters become well-formed trees. -/
theorem buildWith_yields {nested : Nested} (hclock : scope.clock.Shows good)
    (hnested : nested.Builds scope.schema good (Path.InnerLog log.length))
    (h : Path.FilterLog log) :
    Yields (Query.WellFormed scope.schema good table) (buildWith scope nested table log) := by
  obtain ⟨v, hv⟩ : ∃ v, Derivation (termTree scope nested table) .disjunction log v :=
    derivation_of_filterLog h
  rcases buildWith_derivation hclock hnested hv with
    ⟨why, hwhy, -, hrefused⟩ | ⟨-, hbuilt, hP⟩
  · rw [hrefused]
    exact hwhy
  · rwa [hbuilt]

/-- The tree of a log. -/
theorem buildIn_yields (hclock : scope.clock.Shows good) (h : Path.FilterLog log) :
    Yields (Query.WellFormed scope.schema good table) (buildIn scope table log) := by
  induction hlength : log.length using Nat.strongRecOn generalizing table log with
  | ind length ih =>
    subst hlength
    rw [buildIn]
    refine buildWith_yields hclock ?_ h
    intro target inner hinner
    dsimp only
    rw [if_pos hinner.2]
    exact ih inner.length hinner.2 hinner.1 rfl

/-- Without tokens there is no filter. -/
theorem buildIn_nil : buildIn scope table [] = internal .noOperand := by
  rw [buildIn, buildWith, ElementReader.run, Element.ofTokens, Element.collect]
  show ((ElementReader.untilEnd _ _ [] >>= fun found => pure found.1) >>= Stacks.tree) = _
  rw [ElementReader.untilEnd_nil]
  rfl

/-- The log of a filter is not empty. -/
theorem build_of_filterLog (h : Path.FilterLog log) :
    build scope table log = (buildIn scope table log).map some := by
  have hbuilds := @buildIn_yields scope table _ _ scope.clock.shows_any h
  cases log with
  | nil =>
    rw [buildIn_nil] at hbuilds
    cases hbuilds
  | cons t rest => rfl

/-- The tree of a log that may be empty. -/
theorem build_yields (hclock : scope.clock.Shows good) (h : log ≠ [] → Path.FilterLog log) :
    Yields (Query.WellFormedIfAny scope.schema good table) (build scope table log) := by
  unfold build
  split
  · trivial
  · rename_i hempty
    exact (buildIn_yields hclock (h (by simpa using hempty))).map fun _ hq => hq

/-- The tree of several logs. -/
theorem buildAll_yields (hclock : scope.clock.Shows good) {filters : List (List Token)}
    (h : ∀ filter ∈ filters, Path.FilterLog filter) :
    Yields (Query.WellFormedIfAny scope.schema good table) (buildAll scope table filters) := by
  have hbuilds : Nested.Builds scope.schema good Path.FilterLog (buildIn scope) :=
    fun _ _ hlog => buildIn_yields hclock hlog
  exact allFilters_yields hbuilds h

end LinkQuery.Filter
