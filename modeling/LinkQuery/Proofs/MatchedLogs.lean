import LinkQuery.Proofs.PathLogs
/-!
# What the grammar matched as a separator

A log does not say which rule a token comes from. A matched log does, as far as lists go: it knows
of each token whether the grammar took it for the separator between two items of a list. Every log
that a rule produces comes from a matched log, and every matched log leaves one behind.

Main statements:
- `Rule.logsOf_matches`: the matched logs of a rule leave the logs that the rule produces.
- `Rule.logsOf_parses`: the same for a grammar, level by level.
- `Rule.matches_flat`: without lists, nothing is a separator, and the tokens are those of the rule.
-/
namespace LinkQuery.Rule

/-- A token of a log, and whether it was matched as the separator between two items of a list. -/
structure Matched where
  token : Token
  separates : Bool

/-- The log that a matched log leaves. -/
def logOf (m : List Matched) : List Token := m.map (·.token)

/-- A log without separators as a matched log. -/
def unseparated (log : List Token) : List Matched := log.map (⟨·, false⟩)

@[simp]
theorem logOf_nil : logOf [] = [] := rfl

@[simp]
theorem logOf_cons (x : Matched) (m : List Matched) : logOf (x :: m) = x.token :: logOf m := rfl

@[simp]
theorem logOf_append (a b : List Matched) : logOf (a ++ b) = logOf a ++ logOf b := List.map_append

@[simp]
theorem logOf_unseparated (log : List Token) : logOf (unseparated log) = log := by
  simp [logOf, unseparated, Function.comp_def]

/-- The logs that matched logs leave. -/
def LogsOf (A : ListSet Matched) : LogSet := fun log => ∃ m, A m ∧ logOf m = log

/-- The matched log of a single token. -/
def Lone (kind : TokenKind) (value : String) : ListSet Matched :=
  fun m => ∃ position, m = unseparated [⟨kind, value, position⟩]

/-- What was matched between two items of a list. -/
def Separating (A : ListSet Matched) : ListSet Matched :=
  fun m => ∃ s, A s ∧ m = s.map fun x => ⟨x.token, true⟩

variable {ν : Type}

mutual

/-- The matched logs of a rule, given those of the nonterminals. -/
def Matches (lang : ν → ListSet Matched) : Rule ν → ListSet Matched
  | .literal text logged => if logged then Lone .symbol text else (· = [])
  | .keyword text => Lone .keyword text
  | .word => fun m => ∃ value, Lone .word value m
  | .number => fun m => ∃ value, Lone .number value m
  | .quoted => fun m => ∃ value, Lone .quoted value m
  | .choice rules => MatchesAny lang rules
  | .longest rules => MatchesAny lang rules
  | .sequence rules => MatchesAll lang rules
  | .list item separator =>
    Chained (Matches lang item)
      (Repeated (Chained (Separating (Matches lang separator)) (Matches lang item)))
  | .optional rule => fun m => m = [] ∨ Matches lang rule m
  | .many rule => Repeated (Matches lang rule)
  | .peek _ _ => (· = [])
  | .required rule _ => Matches lang rule
  | .silent _ => (· = [])
  | .action m => Lone (.marker m) ""
  | .nonterminal name => lang name

/-- The matched logs of one of several rules. -/
def MatchesAny (lang : ν → ListSet Matched) : List (Rule ν) → ListSet Matched
  | [] => fun _ => False
  | rule :: rest => fun m => Matches lang rule m ∨ MatchesAny lang rest m

/-- The matched logs of several rules in order. -/
def MatchesAll (lang : ν → ListSet Matched) : List (Rule ν) → ListSet Matched
  | [] => (· = [])
  | rule :: rest => Chained (Matches lang rule) (MatchesAll lang rest)

end

/-- The matched logs that a grammar has for a nonterminal within some levels of nesting. -/
def Parses (body : ν → Rule ν) : Nat → ν → ListSet Matched
  | 0, _ => fun _ => False
  | levels + 1, name => Matches (Parses body levels) (body name)

@[simp]
theorem matches_symbol (lang : ν → ListSet Matched) (text : String) :
    Matches lang (symbol text) = Lone .symbol text := by
  simp [symbol, Matches]

@[simp]
theorem matches_hidden (lang : ν → ListSet Matched) (text : String) :
    Matches lang (hidden text) = (· = []) := by
  simp [hidden, Matches]

/-- The matched log of one of several keywords. -/
def LoneKeyword (words : List String) : ListSet Matched :=
  fun m => ∃ text ∈ words, Lone .keyword text m

@[simp]
theorem matches_keywords (lang : ν → ListSet Matched) (words : List String) :
    Matches lang (keywords words) = LoneKeyword words := by
  simp only [keywords, Matches]
  induction words with
  | nil =>
    funext m
    simp [MatchesAny, LoneKeyword]
  | cons text rest ih =>
    funext m
    simp only [List.map_cons, MatchesAny, ih, LoneKeyword, Matches, List.mem_cons,
      exists_eq_or_imp]

/-! ## The logs that are left -/

section Logs

variable {A B : ListSet Matched}

theorem logsOf_nil : LogsOf (· = []) = (· = []) := by
  funext log
  simp [LogsOf, eq_comm]

theorem logsOf_lone (kind : TokenKind) (value : String) :
    LogsOf (Lone kind value) = Single kind value := by
  funext log
  apply propext
  constructor
  · rintro ⟨_, ⟨position, rfl⟩, rfl⟩
    exact ⟨position, logOf_unseparated _⟩
  · rintro ⟨position, rfl⟩
    exact ⟨_, ⟨position, rfl⟩, logOf_unseparated _⟩

theorem logsOf_exists {α : Type} (A : α → ListSet Matched) :
    LogsOf (fun m => ∃ x, A x m) = fun log => ∃ x, LogsOf (A x) log := by
  funext log
  apply propext
  constructor
  · rintro ⟨m, ⟨x, hm⟩, rfl⟩
    exact ⟨x, m, hm, rfl⟩
  · rintro ⟨x, m, hm, rfl⟩
    exact ⟨m, ⟨x, hm⟩, rfl⟩

theorem logsOf_or : LogsOf (fun m => A m ∨ B m) = fun log => LogsOf A log ∨ LogsOf B log := by
  funext log
  apply propext
  constructor
  · rintro ⟨m, hm | hm, rfl⟩
    · exact Or.inl ⟨m, hm, rfl⟩
    · exact Or.inr ⟨m, hm, rfl⟩
  · rintro (⟨m, hm, rfl⟩ | ⟨m, hm, rfl⟩)
    · exact ⟨m, Or.inl hm, rfl⟩
    · exact ⟨m, Or.inr hm, rfl⟩

theorem logsOf_chained : LogsOf (Chained A B) = Chained (LogsOf A) (LogsOf B) := by
  funext log
  apply propext
  constructor
  · rintro ⟨_, ⟨a, b, rfl, ha, hb⟩, rfl⟩
    exact ⟨logOf a, logOf b, logOf_append a b, ⟨a, ha, rfl⟩, ⟨b, hb, rfl⟩⟩
  · rintro ⟨_, _, rfl, ⟨a, ha, rfl⟩, ⟨b, hb, rfl⟩⟩
    exact ⟨a ++ b, ⟨a, b, rfl, ha, hb⟩, logOf_append a b⟩

theorem logsOf_repeated : LogsOf (Repeated A) = Repeated (LogsOf A) := by
  funext log
  apply propext
  constructor
  · rintro ⟨m, hm, rfl⟩
    refine hm.induction (P := fun m => Repeated (LogsOf A) (logOf m)) (Repeated.nil _) ?_
    intro first rest hfirst hrest
    rw [logOf_append]
    exact Repeated.cons ⟨first, hfirst, rfl⟩ hrest
  · intro hlog
    refine hlog.induction (P := LogsOf (Repeated A)) ⟨[], Repeated.nil A, rfl⟩ ?_
    rintro _ _ ⟨first, hfirst, rfl⟩ ⟨rest, hrest, rfl⟩
    exact ⟨first ++ rest, Repeated.cons hfirst hrest, logOf_append first rest⟩

theorem logsOf_separating : LogsOf (Separating A) = LogsOf A := by
  have hsame : ∀ s : List Matched, logOf (s.map fun x => ⟨x.token, true⟩) = logOf s := by
    intro s
    simp [logOf, Function.comp_def]
  funext log
  apply propext
  constructor
  · rintro ⟨_, ⟨s, hs, rfl⟩, rfl⟩
    exact ⟨s, hs, (hsame s).symm⟩
  · rintro ⟨s, hs, rfl⟩
    exact ⟨_, ⟨s, hs, rfl⟩, hsame s⟩

end Logs

mutual

/-- The matched logs of a rule leave the logs that the rule produces. -/
theorem logsOf_matches (lang : ν → ListSet Matched) : ∀ rule : Rule ν,
    LogsOf (Matches lang rule) = Produces (fun name => LogsOf (lang name)) rule
  | .literal text logged => by
    cases logged with
    | true => exact logsOf_lone .symbol text
    | false => exact logsOf_nil
  | .keyword text => logsOf_lone .keyword text
  | .word => by simp only [Matches, Produces, logsOf_exists, logsOf_lone]
  | .number => by simp only [Matches, Produces, logsOf_exists, logsOf_lone]
  | .quoted => by simp only [Matches, Produces, logsOf_exists, logsOf_lone]
  | .choice rules => logsOf_matchesAny lang rules
  | .longest rules => logsOf_matchesAny lang rules
  | .sequence rules => logsOf_matchesAll lang rules
  | .list item separator => by
    simp only [Matches, Produces, logsOf_chained, logsOf_repeated, logsOf_separating,
      logsOf_matches lang item, logsOf_matches lang separator]
  | .optional rule => by
    simp only [Matches, Produces, logsOf_or, logsOf_nil, logsOf_matches lang rule]
  | .many rule => by
    simp only [Matches, Produces, logsOf_repeated, logsOf_matches lang rule]
  | .peek _ _ => logsOf_nil
  | .required rule _ => logsOf_matches lang rule
  | .silent _ => logsOf_nil
  | .action m => logsOf_lone (.marker m) ""
  | .nonterminal _ => rfl

theorem logsOf_matchesAny (lang : ν → ListSet Matched) : ∀ rules : List (Rule ν),
    LogsOf (MatchesAny lang rules) = ProducesAny (fun name => LogsOf (lang name)) rules
  | [] => by
    funext log
    simp [LogsOf, MatchesAny, ProducesAny]
  | rule :: rest => by
    simp only [MatchesAny, ProducesAny, logsOf_or, logsOf_matches lang rule,
      logsOf_matchesAny lang rest]

theorem logsOf_matchesAll (lang : ν → ListSet Matched) : ∀ rules : List (Rule ν),
    LogsOf (MatchesAll lang rules) = ProducesAll (fun name => LogsOf (lang name)) rules
  | [] => logsOf_nil
  | rule :: rest => by
    simp only [MatchesAll, ProducesAll, logsOf_chained, logsOf_matches lang rule,
      logsOf_matchesAll lang rest]

end

/-- The matched logs of a grammar leave the logs that it generates. -/
theorem logsOf_parses (body : ν → Rule ν) (levels : Nat) :
    (fun name => LogsOf (Parses body levels name)) = Generates body levels := by
  induction levels with
  | zero =>
    funext name log
    simp [LogsOf, Parses, Generates]
  | succ levels ih =>
    funext name
    simp only [Parses, Generates, logsOf_matches, ih]

/-- What was matched for a rule leaves a log that the rule produces. -/
theorem Matches.produces {body : ν → Rule ν} {levels : Nat} {rule : Rule ν} {m : List Matched}
    (h : Matches (Parses body levels) rule m) :
    Produces (Generates body levels) rule (logOf m) := by
  rw [← logsOf_parses, ← logsOf_matches]
  exact ⟨m, h, rfl⟩

/-! ## Rules without lists -/

mutual

/-- Neither the rule itself nor a part of it is a list or a nonterminal. -/
def isFlat : Rule ν → Bool
  | .literal _ _ | .keyword _ | .word | .number | .quoted => true
  | .peek _ _ | .silent _ | .action _ => true
  | .choice rules => areFlat rules
  | .longest rules => areFlat rules
  | .sequence rules => areFlat rules
  | .list _ _ | .nonterminal _ => false
  | .optional rule => isFlat rule
  | .many rule => isFlat rule
  | .required rule _ => isFlat rule

/-- None of the rules has a list or a nonterminal. -/
def areFlat : List (Rule ν) → Bool
  | [] => true
  | rule :: rest => isFlat rule && areFlat rest

end

/-- The tokens of the matched log separate nothing, and each is of one of these forms. -/
def Flat (forms : List Atom) (m : List Matched) : Prop :=
  ∀ x ∈ m, x.separates = false ∧ ∃ a ∈ forms, a.Covers x.token

namespace Flat

variable {forms more : List Atom} {m a b : List Matched}

theorem nil : Flat forms [] := by simp [Flat]

theorem append (ha : Flat forms a) (hb : Flat forms b) : Flat forms (a ++ b) := by
  intro x hx
  rcases List.mem_append.mp hx with hx | hx
  · exact ha x hx
  · exact hb x hx

theorem left (h : Flat forms m) : Flat (forms ++ more) m :=
  fun x hx => (h x hx).imp_right fun ⟨a, ha, hcovers⟩ => ⟨a, List.mem_append_left _ ha, hcovers⟩

theorem right (h : Flat more m) : Flat (forms ++ more) m :=
  fun x hx => (h x hx).imp_right fun ⟨a, ha, hcovers⟩ => ⟨a, List.mem_append_right _ ha, hcovers⟩

theorem lone {kind : TokenKind} {value : String} {a : Atom} (h : Lone kind value m)
    (hkind : kind = a.kind) (hvalue : ∀ v ∈ a.value, value = v) : Flat [a] m := by
  obtain ⟨position, rfl⟩ := h
  intro x hx
  obtain rfl := List.mem_singleton.mp hx
  exact ⟨rfl, a, List.mem_singleton_self a, hkind, hvalue⟩

theorem unseparated_eq (h : Flat forms m) : m = unseparated (logOf m) := by
  induction m with
  | nil => rfl
  | cons x m ih =>
    have hx : x = ⟨x.token, false⟩ := by
      rw [← (h x List.mem_cons_self).1]
    have hm := ih fun y hy => h y (List.mem_cons_of_mem _ hy)
    show x :: m = ⟨x.token, false⟩ :: unseparated (logOf m)
    rw [← hx, ← hm]

end Flat

mutual

/-- Without lists nothing is a separator, and every token is of a form of the rule. -/
theorem matches_flat {lang : ν → ListSet Matched} : ∀ rule : Rule ν, rule.isFlat = true →
    ∀ m, Matches lang rule m → Flat rule.atoms m
  | .literal text logged, _ => by
    cases logged with
    | true => exact fun m h => Flat.lone (a := ⟨.symbol, some text⟩) h rfl (by simp)
    | false =>
      rintro _ rfl
      exact Flat.nil
  | .keyword text, _ => fun m h => Flat.lone (a := ⟨.keyword, some text⟩) h rfl (by simp)
  | .word, _ => fun _ ⟨_, h⟩ => Flat.lone (a := ⟨.word, none⟩) h rfl (by simp)
  | .number, _ => fun _ ⟨_, h⟩ => Flat.lone (a := ⟨.number, none⟩) h rfl (by simp)
  | .quoted, _ => fun _ ⟨_, h⟩ => Flat.lone (a := ⟨.quoted, none⟩) h rfl (by simp)
  | .choice rules, hflat => matchesAny_flat rules hflat
  | .longest rules, hflat => matchesAny_flat rules hflat
  | .sequence rules, hflat => matchesAll_flat rules hflat
  | .optional rule, hflat => by
    rintro m (rfl | h)
    · exact Flat.nil
    · exact matches_flat rule hflat m h
  | .many rule, hflat => fun m h => h.induction Flat.nil fun first rest hfirst hrest =>
      (matches_flat rule hflat first hfirst).append hrest
  | .peek _ _, _ => by
    rintro _ rfl
    exact Flat.nil
  | .required rule _, hflat => matches_flat rule hflat
  | .silent _, _ => by
    rintro _ rfl
    exact Flat.nil
  | .action marker, _ => fun m h => Flat.lone (a := ⟨.marker marker, some ""⟩) h rfl (by simp)

theorem matchesAny_flat {lang : ν → ListSet Matched} : ∀ rules : List (Rule ν),
    areFlat rules = true → ∀ m, MatchesAny lang rules m → Flat (atomsOfAll rules) m
  | [], _ => fun _ h => h.elim
  | rule :: rest, hflat => by
    simp only [areFlat, Bool.and_eq_true] at hflat
    rintro m (h | h)
    · exact (matches_flat rule hflat.1 m h).left
    · exact (matchesAny_flat rest hflat.2 m h).right

theorem matchesAll_flat {lang : ν → ListSet Matched} : ∀ rules : List (Rule ν),
    areFlat rules = true → ∀ m, MatchesAll lang rules m → Flat (atomsOfAll rules) m
  | [], _ => by
    rintro _ rfl
    exact Flat.nil
  | rule :: rest, hflat => by
    simp only [areFlat, Bool.and_eq_true] at hflat
    rintro _ ⟨a, b, rfl, ha, hb⟩
    exact (matches_flat rule hflat.1 a ha).left.append (matchesAll_flat rest hflat.2 b hb).right

end

end LinkQuery.Rule
