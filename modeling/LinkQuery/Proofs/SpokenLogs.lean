import LinkQuery.Proofs.FilterTexts
import LinkQuery.Proofs.Phrases
import LinkQuery.Proofs.TermLogs
/-!
# The logs of accepted texts

A rule produces logs wherever their tokens stand, so the lexemes of an accepted text are a log of
its rule. What holds of the logs of a rule holds of the lexemes that its texts say.

Main statements:
- `Rule.Accepts.produces`: the lexemes of an accepted text are a log of the rule.
- `Rule.IsFilterText.filterLog`: the lexemes of a filter in parentheses.
- `Rule.IsTail.spoken`: what the test behind a path says.
-/
namespace LinkQuery.Rule

variable {ν : Type}

/-! ## Positions of tokens -/

/-- The language holds a log wherever its tokens stand. -/
def LogSet.Movable (A : LogSet) : Prop :=
  ∀ a b : List Token, a.map Token.lexeme = b.map Token.lexeme → A a → A b

namespace LogSet.Movable

variable {A B : LogSet}

theorem nil : Movable (· = []) := by
  intro a b h ha
  subst ha
  simpa using h.symm

theorem single (kind : TokenKind) (value : String) : Movable (Single kind value) := by
  intro a b h ha
  obtain ⟨p, rfl⟩ := ha
  obtain ⟨t, rfl⟩ : ∃ t, b = [t] := by
    rw [← List.length_eq_one_iff, ← List.length_map (f := Token.lexeme), ← h]
    rfl
  obtain ⟨k, v, q⟩ := t
  simp only [List.map_cons, List.map_nil, List.cons.injEq, and_true, Token.lexeme,
    Prod.mk.injEq] at h
  exact ⟨q, by rw [h.1, h.2]⟩

theorem chained (hA : Movable A) (hB : Movable B) : Movable (Chained A B) := by
  intro log other h hlog
  obtain ⟨a, b, rfl, ha, hb⟩ := hlog
  rw [List.map_append] at h
  obtain ⟨a', b', rfl, hfirst, hsecond⟩ := List.map_eq_append_iff.mp h.symm
  exact ⟨a', b', rfl, hA a a' hfirst.symm ha, hB b b' hsecond.symm hb⟩

theorem repeated (hA : Movable A) : Movable (Repeated A) := by
  intro log other h hlog
  revert other
  refine hlog.induction (P := fun log => ∀ other : List Token,
    log.map Token.lexeme = other.map Token.lexeme → Repeated A other) ?_ ?_
  · intro other h
    obtain rfl : other = [] := by simpa using h.symm
    exact Repeated.nil A
  · intro first rest hfirst ih other h
    rw [List.map_append] at h
    obtain ⟨a, b, rfl, ha, hb⟩ := List.map_eq_append_iff.mp h.symm
    exact Repeated.cons (hA first a ha.symm hfirst) (ih b hb.symm)

end LogSet.Movable

section Movable

variable {lang : ν → LogSet}

mutual

/-- What a rule produces does not depend on where the tokens stand. -/
theorem produces_movable (hlang : ∀ name, (lang name).Movable) :
    ∀ rule : Rule ν, (Produces lang rule : LogSet).Movable
  | .literal text logged => by
    simp only [Produces]
    split
    · exact LogSet.Movable.single _ _
    · exact LogSet.Movable.nil
  | .keyword text => LogSet.Movable.single _ _
  | .word => fun a b h ha => ha.imp fun value ha => LogSet.Movable.single _ _ a b h ha
  | .number => fun a b h ha => ha.imp fun value ha => LogSet.Movable.single _ _ a b h ha
  | .quoted => fun a b h ha => ha.imp fun value ha => LogSet.Movable.single _ _ a b h ha
  | .choice rules => producesAny_movable hlang rules
  | .longest rules => producesAny_movable hlang rules
  | .sequence rules => producesAll_movable hlang rules
  | .list item separator => (produces_movable hlang item).chained
      ((produces_movable hlang separator).chained (produces_movable hlang item)).repeated
  | .optional rule => fun a b h ha => ha.imp (LogSet.Movable.nil a b h)
      (produces_movable hlang rule a b h)
  | .many rule => (produces_movable hlang rule).repeated
  | .peek _ _ => LogSet.Movable.nil
  | .required rule _ => produces_movable hlang rule
  | .silent _ => LogSet.Movable.nil
  | .action m => LogSet.Movable.single _ _
  | .nonterminal name => hlang name

theorem producesAny_movable (hlang : ∀ name, (lang name).Movable) :
    ∀ rules : List (Rule ν), (ProducesAny lang rules : LogSet).Movable
  | [] => fun _ _ _ ha => ha
  | rule :: rest => fun a b h ha =>
    ha.imp (produces_movable hlang rule a b h) (producesAny_movable hlang rest a b h)

theorem producesAll_movable (hlang : ∀ name, (lang name).Movable) :
    ∀ rules : List (Rule ν), (ProducesAll lang rules : LogSet).Movable
  | [] => LogSet.Movable.nil
  | rule :: rest => (produces_movable hlang rule).chained (producesAll_movable hlang rest)

end

end Movable

theorem generates_movable (body : ν → Rule ν) :
    ∀ (levels : Nat) (name : ν), (Generates body levels name : LogSet).Movable
  | 0, _ => fun _ _ _ ha => ha
  | levels + 1, name => produces_movable (generates_movable body levels) (body name)

/-! ## Accepted texts -/

/-- The lexemes of an accepted text are a log of the rule. -/
theorem Accepts.produces {body : ν → Rule ν} {rule : Rule ν} {cs rest : List Char}
    {l : List Lexeme} (h : Accepts body rule cs rest l) :
    ∃ levels, Produces (Generates body levels) rule (Lexeme.placed l) := by
  obtain ⟨enough, h⟩ := h
  have hstart := State.start_before cs enough
  obtain ⟨read, tokens, -, hrun, rfl⟩ := h enough (Nat.le_refl _) _ hstart
  have htidy := runWithin_tidy body enough rule (State.start cs enough) hstart.room
  rw [runWithin_eq, hrun] at htidy
  obtain ⟨count, logged, hlogged, hsame⟩ := htidy
  have htokens : logged = tokens := by
    have hlog := congrArg (fun s => s.log.toList) hsame
    simpa [State.past, State.start] using hlog.symm
  refine ⟨enough, produces_movable (generates_movable body enough) rule logged _ ?_ hlogged⟩
  simp [htokens, Lexeme.placed, Token.lexeme, Function.comp_def]

open Language
open Element (Adds)
open Filter (Tail Behind)

/-- A filter in parentheses says the log of a filter. -/
theorem IsFilterText.filterLog {filter : List Char} {l : List Lexeme} (h : IsFilterText filter l) :
    Path.FilterLog (Lexeme.placed l) := by
  obtain ⟨levels, hlog⟩ := (h []).produces
  exact ⟨levels + 1, hlog⟩

/-- The blocks inside a filter in parentheses are closed. -/
theorem IsFilterText.balanced {filter : List Char} {l : List Lexeme} (h : IsFilterText filter l) :
    Block.Balanced (Lexeme.placed l) :=
  h.filterLog.balanced

/-- The lexemes behind a path are the same test in all places, or the same reason to refuse it. -/
structure Spoken (clock : Clock) (l : List Lexeme) (es : List Element) (v : Except QueryError Tail) :
    Prop where
  balanced : Block.Balanced (Lexeme.placed l)
  adds : ∀ calls, Adds .filter calls (Lexeme.placed l) (.ok es)
  reads : ElementReader.Reads (Tail.read clock) es Behind v

/-- What a test says is read in the same way in all places. -/
theorem IsTail.spoken {text : List Char} {l : List Lexeme} (h : IsTail text l) (clock : Clock) :
    ∃ es v, Spoken clock l es v := by
  obtain ⟨levels, hlog⟩ := (h.accepts [] .finish).produces
  obtain ⟨es, hes, hadds⟩ := Filter.adds_tail (Or.inr hlog)
  obtain ⟨v, hreads, -⟩ := Filter.tail_takes clock.shows_any hes
  have hbalanced : Block.Balanced (Lexeme.placed l) :=
    Block.balanced_of_keeps (Block.balanced_of_generates levels) (by decide) _ hlog
  exact ⟨es, v, hbalanced, hadds, hreads⟩

end LinkQuery.Rule
