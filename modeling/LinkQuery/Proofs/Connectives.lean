import LinkQuery.Filter.Build
import LinkQuery.Proofs.Readers
import LinkQuery.Proofs.Stacks
/-!
# Connectives and negations of filters

Which elements are a filter, and its tree, by levels of precedence. The stacks that read a filter
arrive at this tree.

Main statements:
- `Filter.Derives.advances`: reading the elements of a level leaves its tree on the stacks.
- `Filter.buildWith_derives`: the tree of a whole filter.
-/
namespace LinkQuery.Filter

open ElementReader OperatorStacks

/-! ## Derivations -/

/-- The levels of precedence of a filter. -/
inductive Level where
  | unary | conjunction | disjunction
deriving Repr, DecidableEq

/-- The elements are a part of a filter, with its tree or the reason to refuse it. `term` are the
terms. -/
inductive Derives (term : List Element → Except QueryError Query → Prop) :
    Level → List Element → Except QueryError Query → Prop
  | term {es : List Element} {v : Except QueryError Query} (h : term es v) :
    Derives term .unary es v
  | star (p : Nat) : Derives term .unary [.token ⟨.symbol, "*", p⟩] (.ok .everything)
  | group {es : List Element} {v : Except QueryError Query} (p q : Nat)
    (h : Derives term .disjunction es v) :
    Derives term .unary (.token ⟨.symbol, "(", p⟩ :: (es ++ [.token ⟨.symbol, ")", q⟩])) v
  | negation {es : List Element} {v : Except QueryError Query} (p : Nat)
    (h : Derives term .unary es v) :
    Derives term .unary (.token (.ofKeyword "NOT" p) :: es) (v.map Query.not)
  | single {es : List Element} {v : Except QueryError Query} (h : Derives term .unary es v) :
    Derives term .conjunction es v
  | and {a b : List Element} {v w : Except QueryError Query} (p : Nat)
    (ha : Derives term .conjunction a v) (hb : Derives term .unary b w) :
    Derives term .conjunction (a ++ .token (.ofKeyword "AND" p) :: b)
      (do return Query.and [← v, ← w])
  | alternative {es : List Element} {v : Except QueryError Query}
    (h : Derives term .conjunction es v) : Derives term .disjunction es v
  | or {a b : List Element} {v w : Except QueryError Query} (p : Nat)
    (ha : Derives term .disjunction a v) (hb : Derives term .conjunction b w) :
    Derives term .disjunction (a ++ .token (.ofKeyword "OR" p) :: b)
      (do return Query.or [← v, ← w])

/-- What follows a term: the end, a connective or a closing parenthesis. -/
def Behind (rest : List Element) : Prop :=
  ∀ e ∈ rest.head?, ∃ p, e = .token (.ofKeyword "AND" p) ∨ e = .token (.ofKeyword "OR" p) ∨
    e = .token ⟨.symbol, ")", p⟩

theorem Behind.cons {e : Element} {rest : List Element} (p : Nat)
    (h : e = .token (.ofKeyword "AND" p) ∨ e = .token (.ofKeyword "OR" p) ∨
      e = .token ⟨.symbol, ")", p⟩) : Behind (e :: rest) := by
  rintro _ ⟨⟩
  exact ⟨p, h⟩

/-- The elements are a term with this tree. -/
def TermReads (scope : Scope) (nested : Nested) (table : String) (es : List Element)
    (v : Except QueryError Query) : Prop :=
  ∃ e tail, es = e :: tail ∧ Glue.ofElement? e = none ∧
    Reads (term scope nested table e) tail Behind v

/-! ## Stacks -/

/-- The stacks are in front of a part of this level. -/
def Level.Clear : Level → Stacks → Prop
  | .unary => fun _ => True
  | .conjunction => OperatorStacks.Clear Operator.rank 2
  | .disjunction => OperatorStacks.Clear Operator.rank 1

/-- The stacks `t` are behind a part of this level with the tree `q`, `s` being those in front. -/
def Level.Lands : Level → Stacks → Query → Stacks → Prop
  | .unary => fun s q t => s.operand q = .ok t
  | .conjunction => OperatorStacks.Lands Operator.apply Operator.rank 2
  | .disjunction => OperatorStacks.Lands Operator.apply Operator.rank 1

theorem Operator.one_le_rank (op : Operator) : 1 ≤ op.rank := by
  rcases op with (_ | _) | _ <;> decide

/-- Without a negation in front, an operand stays as it is. -/
theorem Stacks.operand_of_clear {s : Stacks} {q : Query} {k : Nat} (hk : k ≤ 3)
    (h : OperatorStacks.Clear Operator.rank k s) : s.operand q = .ok (s.push q) := by
  refine reduce_of_head fun op hop => ?_
  have hrank := h op hop
  cases op with
  | connective c => rfl
  | negation =>
    simp only [Operator.rank] at hrank
    omega

/-- A negation applies to the operand right behind it. -/
theorem Stacks.operand_negation {s : Stacks} {q : Query} :
    Stacks.operand (s.waiting .negation) q = s.operand q.not :=
  reduce_cons rfl rfl

/-- There is always an operand for the negations. -/
theorem Stacks.operand_ok (s : Stacks) (q : Query) : ∃ t, s.operand q = .ok t := by
  obtain ⟨operands, operators, outer⟩ := s
  induction operators generalizing q with
  | nil => exact ⟨_, rfl⟩
  | cons op rest ih =>
    cases op with
    | connective c =>
      have hclear : OperatorStacks.Clear Operator.rank 3 ⟨operands, .connective c :: rest, outer⟩ :=
        Clear.waiting (s := ⟨operands, rest, outer⟩) (by cases c <;> decide)
      exact ⟨_, operand_of_clear (by decide) hclear⟩
    | negation =>
      obtain ⟨t, ht⟩ := ih q.not
      exact ⟨t, (operand_negation (s := ⟨operands, rest, outer⟩)).trans ht⟩

/-! ## Reading -/

section Reading

variable {scope : Scope} {nested : Nested} {table : String}

/-- Reading the elements leads from the stacks to others, or refuses the filter. -/
def Advances (scope : Scope) (nested : Nested) (table : String) (s : Stacks)
    (es : List Element) (v : Except QueryError Query) (lands : Query → Stacks → Prop) : Prop :=
  ∀ rest, Behind rest →
    match v with
    | .error why => untilEnd (step scope nested table) s (es ++ rest) = .error why
    | .ok q => ∃ t, lands q t ∧ untilEnd (step scope nested table) s (es ++ rest) =
        untilEnd (step scope nested table) t rest

theorem step_cons (s : Stacks) (e : Element) (rest : List Element) :
    step scope nested table s (e :: rest) =
      (Glue.ofElement? e).elim (Filter.term scope nested table e >>= fun q =>
        ElementReader.lift (s.operand q)) (fun g => ElementReader.lift (s.behind g)) rest := by
  unfold step
  simp only [peek?, skip, bind, StateT.bind, Except.bind, List.head?_cons, List.tail_cons]
  cases Glue.ofElement? e with
  | none => rfl
  | some g => rfl

theorem step_glue {s t : Stacks} {e : Element} {g : Glue} {rest : List Element}
    (h : Glue.ofElement? e = some g) (hs : s.behind g = .ok t) :
    untilEnd (step scope nested table) s (e :: rest) =
      untilEnd (step scope nested table) t rest := by
  refine untilEnd_more (a := [e]) ?_ (by simp)
  rw [List.singleton_append, step_cons, h]
  simp only [Option.elim, ElementReader.lift, hs]
  rfl

theorem Advances.term {s : Stacks} {es : List Element} {v : Except QueryError Query}
    (h : TermReads scope nested table es v) :
    Advances scope nested table s es v (Level.unary.Lands s) := by
  obtain ⟨e, tail, rfl, hglue, hterm⟩ := h
  intro rest hrest
  have hstep : step scope nested table s (e :: (tail ++ rest)) =
      (Filter.term scope nested table e (tail ++ rest) >>= fun found =>
        (s.operand found.1).map fun t => (t, found.2)) := by
    rw [step_cons, hglue]
    rfl
  rw [hterm rest hrest] at hstep
  cases v with
  | error why => exact untilEnd_error hstep (by simp)
  | ok q =>
    obtain ⟨t, ht⟩ := s.operand_ok q
    refine ⟨t, ht, untilEnd_more (a := e :: tail) ?_ (by simp)⟩
    refine hstep.trans ?_
    show (s.operand q).map _ = _
    rw [ht]
    rfl

/-- Without a negation in front, an operand stays as it is. -/
theorem Advances.clear {s : Stacks} {es : List Element} {v : Except QueryError Query} {k : Nat}
    (h : Advances scope nested table s es v (Level.unary.Lands s)) (hk : k ≤ 3)
    (hs : OperatorStacks.Clear Operator.rank k s) :
    Advances scope nested table s es v (Lands Operator.apply Operator.rank k s) := by
  intro rest hrest
  have hone := h rest hrest
  cases v with
  | error why => exact hone
  | ok q =>
    obtain ⟨t, ht, hread⟩ := hone
    obtain rfl := Except.ok.inj ((Stacks.operand_of_clear hk hs).symm.trans ht)
    exact ⟨_, Lands.push hs, hread⟩

/-- Reading a connective between its operands. -/
theorem Advances.connected {s : Stacks} {a b : List Element} {v w : Except QueryError Query}
    {c : Connective} {word : String} {k : Nat} {combine : List Query → Query} (p : Nat)
    (hword : Glue.ofToken? (.ofKeyword word p) = some (.connective c))
    (hbehind : ∀ rest, Behind (.token (.ofKeyword word p) :: rest))
    (hs : OperatorStacks.Clear Operator.rank k s) (hrank : (Operator.connective c).rank = k)
    (hcombine : ∀ left right rest, Operator.apply (.connective c) (right :: left :: rest) =
      .ok (combine [left, right] :: rest))
    (ha : Advances scope nested table s a v (Lands Operator.apply Operator.rank k s))
    (hb : ∀ s, OperatorStacks.Clear Operator.rank (k + 1) s →
      Advances scope nested table s b w (Lands Operator.apply Operator.rank (k + 1) s)) :
    Advances scope nested table s (a ++ .token (.ofKeyword word p) :: b)
      (do return combine [← v, ← w]) (Lands Operator.apply Operator.rank k s) := by
  intro rest hrest
  have hleft := ha (.token (.ofKeyword word p) :: (b ++ rest)) (hbehind _)
  rw [List.append_assoc]
  cases v with
  | error why => exact hleft
  | ok left =>
    obtain ⟨t, ht, hread⟩ := hleft
    have happly := fun right => ht.connected hs hrank (hcombine left right s.operands)
    have hconnect : untilEnd (step scope nested table) s
          (a ++ .token (.ofKeyword word p) :: (b ++ rest)) =
        untilEnd (step scope nested table) ((s.push left).waiting (.connective c)) (b ++ rest) :=
      hread.trans (step_glue hword (happly .everything).1)
    have hclear : OperatorStacks.Clear Operator.rank (k + 1)
      ((s.push left).waiting (.connective c)) := Clear.waiting (by omega)
    have hright := hb _ hclear rest hrest
    rw [← hconnect] at hright
    cases w with
    | error why => exact hright
    | ok right =>
      obtain ⟨u, hu, hread⟩ := hright
      exact ⟨u, (happly right).2 u hu, hread⟩

/-- Reading the elements of a level leaves its tree on the stacks. -/
theorem Derives.advances {level : Level} {es : List Element} {v : Except QueryError Query}
    (h : Derives (TermReads scope nested table) level es v) :
    ∀ s, level.Clear s → Advances scope nested table s es v (level.Lands s) := by
  induction h with
  | term h => exact fun s _ => Advances.term h
  | star p =>
    intro s _ rest _
    obtain ⟨t, ht⟩ := s.operand_ok .everything
    exact ⟨t, ht, step_glue rfl ht⟩
  | group p q h ih =>
    rename_i es v
    intro s _ rest hrest
    have hinside := ih s.opened (Clear.of_nil rfl) (.token ⟨.symbol, ")", q⟩ :: rest)
      (Behind.cons q (by simp))
    have hopen : untilEnd (step scope nested table) s
          (.token ⟨.symbol, "(", p⟩ :: (es ++ [.token ⟨.symbol, ")", q⟩]) ++ rest) =
        untilEnd (step scope nested table) s.opened
          (es ++ .token ⟨.symbol, ")", q⟩ :: rest) := by
      rw [List.cons_append, List.append_assoc]
      exact step_glue (g := .opening) rfl rfl
    rw [← hopen] at hinside
    cases v with
    | error why => exact hinside
    | ok inner =>
      obtain ⟨t, ht, hread⟩ := hinside
      obtain ⟨u, hu⟩ := s.operand_ok inner
      refine ⟨u, hu, hread.trans (step_glue (g := .closing) rfl ?_)⟩
      show (t.closed Operator.apply _ >>= Stacks.negated) = _
      rw [ht.closed Operator.one_le_rank]
      exact hu
  | negation p h ih =>
    rename_i es v
    intro s _ rest hrest
    have hbehind := ih (s.waiting .negation) trivial rest hrest
    have hnot : untilEnd (step scope nested table) s
          (.token (.ofKeyword "NOT" p) :: es ++ rest) =
        untilEnd (step scope nested table) (s.waiting .negation) (es ++ rest) :=
      step_glue (g := .negation) rfl rfl
    cases v with
    | error why => exact hnot.trans hbehind
    | ok inner =>
      obtain ⟨t, ht, hread⟩ := hbehind
      exact ⟨t, Stacks.operand_negation.symm.trans ht, hnot.trans hread⟩
  | single h ih => exact fun s hs => (ih s trivial).clear (by decide) hs
  | and p ha hb iha ihb =>
    intro s hs
    exact Advances.connected p rfl (fun _ => Behind.cons p (by simp)) hs rfl (fun _ _ _ => rfl)
      (iha s hs) fun s hs => (ihb s trivial).clear (by decide) hs
  | alternative h ih =>
    rename_i es v
    intro s hs rest hrest
    have hone := ih s (fun op hop => Nat.lt_succ_of_lt (hs op hop)) rest hrest
    cases v with
    | error why => exact hone
    | ok q =>
      obtain ⟨t, ht, hread⟩ := hone
      exact ⟨t, Lands.weaken ht (by decide) hs, hread⟩
  | or p ha hb iha ihb =>
    intro s hs
    exact Advances.connected p rfl (fun _ => Behind.cons p (by simp)) hs rfl (fun _ _ _ => rfl)
      (iha s hs) fun s hs => ihb s hs

/-- The tree of a whole filter. -/
theorem buildWith_derives {tokens : List Token} {es : List Element}
    {v : Except QueryError Query} (hes : Element.ofTokens .filter tokens = .ok es)
    (h : Derives (TermReads scope nested table) .disjunction es v) :
    buildWith scope nested table tokens = v := by
  have hread := h.advances OperatorStacks.empty (Clear.of_nil rfl) [] nofun
  rw [List.append_nil] at hread
  unfold buildWith ElementReader.run
  rw [hes]
  cases v with
  | error why =>
    show (untilEnd _ _ es >>= _) >>= _ = _
    rw [hread]
    rfl
  | ok q =>
    obtain ⟨t, ht, hread⟩ := hread
    rw [untilEnd_nil] at hread
    show (untilEnd _ _ es >>= _) >>= _ = _
    rw [hread]
    show t.tree = _
    unfold Stacks.tree
    rw [ht.finish Operator.one_le_rank]
    rfl

end Reading

end LinkQuery.Filter
