import LinkQuery.Proofs.FilterLogs
import LinkQuery.Proofs.Positions
/-!
# Lexemes that say a tree

`Says` relates the lexemes of a part of a filter with the tree that the part is read as, wherever it
stands. What is said by parts is said by the whole: terms are negated and joined, and a filter in
parentheses is a term again.

Main statements:
- `Says.not`, `Says.group`, `Says.and`, `Says.or`: the combinations.
- `Says.build`: what a whole filter says is what is built from it.
-/
namespace LinkQuery

open Rule Element

/-! ## Blocks of lexemes -/

namespace Block

/-- Lexemes that neither open nor close a block. -/
theorem balanced_of_flat {l : List Lexeme}
    (h : ∀ x ∈ l, x.1 ≠ .marker .whereStart ∧ x.1 ≠ .marker .whereEnd) :
    Balanced (Lexeme.placed l) := by
  induction l with
  | nil => exact Balanced.nil
  | cons x l ih =>
    simp only [List.mem_cons, forall_eq_or_imp] at h
    have hone : Balanced [⟨x.1, x.2, 0⟩] :=
      Balanced.token (by simpa [Token.isMarker] using h.1.1) (by simpa [Token.isMarker] using h.1.2)
    exact hone.append (ih h.2)

theorem balanced_append {a b : List Lexeme} (ha : Balanced (Lexeme.placed a))
    (hb : Balanced (Lexeme.placed b)) : Balanced (Lexeme.placed (a ++ b)) := by
  rw [Lexeme.placed_append]
  exact ha.append hb

theorem balanced_cons {x : Lexeme} {l : List Lexeme} (hstart : x.1 ≠ .marker .whereStart)
    (hend : x.1 ≠ .marker .whereEnd) (h : Balanced (Lexeme.placed l)) :
    Balanced (Lexeme.placed (x :: l)) :=
  balanced_append (a := [x]) (balanced_of_flat (by simp [hstart, hend])) h

end Block

namespace Filter

open ElementReader

/-! ## Parts of a filter -/

/-- Builds the filters with fewer than `limit` tokens as filters of their own. -/
def Nested.BuildsBelow (scope : Scope) (limit : Nat) (nested : Nested) : Prop :=
  ∀ table log, log.length < limit → nested table log = buildIn scope table log

theorem Nested.BuildsBelow.mono {scope : Scope} {limit less : Nat} {nested : Nested}
    (h : nested.BuildsBelow scope limit) (hless : less ≤ limit) : nested.BuildsBelow scope less :=
  fun table log hlog => h table log (by omega)

/-- The log adds these elements to those in front of it. -/
def Gives (calls : List Bool) (done : List Element) (log : List Token) (es : List Element) : Prop :=
  ∀ rest, collect .filter calls done (log ++ rest) = collect .filter calls (es.reverse ++ done) rest

theorem Gives.append {calls : List Bool} {done es more : List Element} {a b : List Token}
    (ha : Gives calls done a es) (hb : Gives calls (es.reverse ++ done) b more) :
    Gives calls done (a ++ b) (es ++ more) := by
  intro rest
  rw [List.append_assoc, ha, hb, List.reverse_append, List.append_assoc]

theorem Gives.cons {calls : List Bool} {done es : List Element} {t : Token} {e : Element}
    {b : List Token} (h : ∀ rest, collect .filter calls done (t :: rest) =
      collect .filter calls (e :: done) rest) (hb : Gives calls (e :: done) b es) :
    Gives calls done (t :: b) (e :: es) :=
  show Gives calls done ([t] ++ b) ([e] ++ es) from Gives.append h hb

theorem Gives.inParentheses {calls : List Bool} {done es : List Element} {log : List Token}
    (hdone : opensCall done = false) (p q : Nat)
    (h : Gives (false :: calls) (.token ⟨.symbol, "(", p⟩ :: done) log es) :
    Gives calls done (⟨.symbol, "(", p⟩ :: (log ++ [⟨.symbol, ")", q⟩]))
      (.token ⟨.symbol, "(", p⟩ :: (es ++ [.token ⟨.symbol, ")", q⟩])) := by
  intro rest
  rw [List.cons_append, collect_open, hdone, List.append_assoc, h, List.singleton_append,
    collect_close]
  simp

/-- The lexemes are a part of a filter with this tree, or with this reason to refuse it, wherever
they stand. -/
structure Says (scope : Scope) (table : String) (level : Level) (l : List Lexeme) (v : Built) :
    Prop where
  balanced : Block.Balanced (Lexeme.placed l)
  reads : ∀ nested : Nested, nested.BuildsBelow scope l.length →
    ∀ calls done, calls.headD false = false → opensCall done = false →
      ∃ es, Gives calls done (Lexeme.placed l) es ∧
        Derives (TermReads scope nested table) level es v

namespace Says

variable {scope : Scope} {table : String} {level : Level} {l a b : List Lexeme} {v w : Built}

/-- A term that adds the same elements in all places. -/
theorem term (e : Element) (tail : List Element)
    (hbalanced : Block.Balanced (Lexeme.placed l))
    (hadds : ∀ calls, Adds .filter calls (Lexeme.placed l) (.ok (e :: tail)))
    (hglue : Glue.ofElement? e = none)
    (h : ∀ nested : Nested, nested.BuildsBelow scope l.length →
      Reads (Filter.term scope nested table e) tail Behind v) :
    Says scope table .unary l v :=
  ⟨hbalanced, fun nested hnested calls done _ _ =>
    ⟨e :: tail, hadds calls done, .term ⟨e, tail, rfl, hglue, h nested hnested⟩⟩⟩

theorem star : Says scope table .unary [(.symbol, "*")] (.ok .everything) :=
  ⟨Block.balanced_of_flat (by simp), fun _ _ _ _ _ _ =>
    ⟨[.token ⟨.symbol, "*", 0⟩], Gives.cons (fun _ => collect_plain rfl) fun _ => rfl, .star 0⟩⟩

theorem conjunction (h : Says scope table .unary l v) : Says scope table .conjunction l v :=
  ⟨h.balanced, fun nested hnested calls done hcalls hdone =>
    (h.reads nested hnested calls done hcalls hdone).imp fun _ hes => ⟨hes.1, hes.2.single⟩⟩

theorem disjunction (h : Says scope table .conjunction l v) : Says scope table .disjunction l v :=
  ⟨h.balanced, fun nested hnested calls done hcalls hdone =>
    (h.reads nested hnested calls done hcalls hdone).imp fun _ hes => ⟨hes.1, hes.2.alternative⟩⟩

theorem not (h : Says scope table .unary l v) :
    Says scope table .unary ((.keyword, "NOT") :: l) (v.map Query.not) := by
  refine ⟨Block.balanced_cons (by simp) (by simp) h.balanced,
    fun nested hnested calls done hcalls _ => ?_⟩
  obtain ⟨es, hes, hderives⟩ := h.reads nested (hnested.mono (Nat.le_succ _)) calls
    (.token (.ofKeyword "NOT" 0) :: done) hcalls rfl
  exact ⟨_, Gives.cons (fun _ => collect_plain rfl) hes, .negation 0 hderives⟩

theorem group (h : Says scope table .disjunction l v) :
    Says scope table .unary ((.symbol, "(") :: (l ++ [(.symbol, ")")])) v := by
  refine ⟨Block.balanced_cons (by simp) (by simp)
    (Block.balanced_append h.balanced (Block.balanced_of_flat (by simp))),
    fun nested hnested calls done hcalls hdone => ?_⟩
  obtain ⟨es, hes, hderives⟩ := h.reads nested (hnested.mono (by simp; omega)) (false :: calls)
    (.token ⟨.symbol, "(", 0⟩ :: done) rfl rfl
  refine ⟨_, ?_, .group 0 0 hderives⟩
  have hinside := Gives.inParentheses hdone 0 0 hes
  simpa [Lexeme.placed] using hinside

/-- A connective between two parts. -/
theorem connected {word : String} {first second : Level} {r : Built}
    (hplain : isPlain ⟨.keyword, word, 0⟩ = true) (hcall : isCallWord word = false)
    (ha : Says scope table first a v) (hb : Says scope table second b w)
    (h : ∀ {nested : Nested} {x y : List Element}, Derives (TermReads scope nested table) first x v →
      Derives (TermReads scope nested table) second y w →
      Derives (TermReads scope nested table) level (x ++ .token (.ofKeyword word 0) :: y) r) :
    Says scope table level (a ++ (.keyword, word) :: b) r := by
  refine ⟨Block.balanced_append ha.balanced (Block.balanced_cons (by simp) (by simp) hb.balanced),
    fun nested hnested calls done hcalls hdone => ?_⟩
  obtain ⟨x, hx, hleft⟩ := ha.reads nested (hnested.mono (by simp)) calls done hcalls hdone
  obtain ⟨y, hy, hright⟩ := hb.reads nested (hnested.mono (by simp; omega)) calls
    (.token (.ofKeyword word 0) :: (x.reverse ++ done)) hcalls (by simp [opensCall, hcall, Token.ofKeyword])
  refine ⟨_, ?_, h hleft hright⟩
  rw [Lexeme.placed_append]
  exact hx.append (Gives.cons (fun _ => collect_plain hplain) hy)

theorem and (ha : Says scope table .conjunction a v) (hb : Says scope table .unary b w) :
    Says scope table .conjunction (a ++ (.keyword, "AND") :: b)
      (do return Query.and [← v, ← w]) :=
  connected rfl rfl ha hb fun hx hy => .and 0 hx hy

theorem or (ha : Says scope table .disjunction a v) (hb : Says scope table .conjunction b w) :
    Says scope table .disjunction (a ++ (.keyword, "OR") :: b)
      (do return Query.or [← v, ← w]) :=
  connected rfl rfl ha hb fun hx hy => .or 0 hx hy

/-- What a whole filter says is what is built from it. -/
theorem build (h : Says scope table .disjunction l v) :
    buildIn scope table (Lexeme.placed l) = v := by
  have hlength : (Lexeme.placed l).length = l.length := List.length_map ..
  rw [buildIn]
  obtain ⟨es, hes, hderives⟩ := h.reads _ (fun target log hlog => if_pos (hlength ▸ hlog)) [] [] rfl
    rfl
  suffices h : ofTokens .filter (Lexeme.placed l) = .ok es from buildWith_derives h hderives
  have hall := hes []
  rw [List.append_nil, List.append_nil] at hall
  rw [ofTokens, hall]
  simp [collect]

end Says

end Filter

end LinkQuery
