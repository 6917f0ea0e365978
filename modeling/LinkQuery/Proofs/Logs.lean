import LinkQuery.Rule.Basic
/-!
# The logs of a grammar

The language of logs that a rule may add to, read off the rule: tokens of its literals and token
classes, markers of its actions, chained in the order of its sequences. Look-ahead and silent rules
add nothing.

Main statements:
- `Rule.Produces.closed`: a property that joining keeps and that all tokens of a rule have holds for
  every log of the rule.
-/
namespace LinkQuery.Rule

variable {α ν : Type}

/-! ## Languages -/

/-- A language of lists. -/
abbrev ListSet (α : Type) := List α → Prop

/-- A language of logs. -/
abbrev LogSet := ListSet Token

/-- The lists that are chained from two lists in order. -/
def Chained (A B : ListSet α) : ListSet α :=
  fun list => ∃ a b, list = a ++ b ∧ A a ∧ B b

/-- The lists that are chained from any number of lists. -/
def Repeated (A : ListSet α) : ListSet α :=
  fun list => ∃ parts : List (List α), list = parts.flatten ∧ ∀ part ∈ parts, A part

/-- The log of a single token. -/
def Single (kind : TokenKind) (value : String) : LogSet :=
  fun log => ∃ position, log = [⟨kind, value, position⟩]

theorem Repeated.nil (A : ListSet α) : Repeated A [] :=
  ⟨[], rfl, by simp⟩

theorem Repeated.cons {A : ListSet α} {first rest : List α} (h : A first)
    (hrest : Repeated A rest) : Repeated A (first ++ rest) := by
  obtain ⟨parts, rfl, hparts⟩ := hrest
  exact ⟨first :: parts, rfl, by simpa using ⟨h, hparts⟩⟩

@[simp]
theorem chained_nil_left (A : ListSet α) : Chained (· = []) A = A := by
  funext log
  apply propext
  constructor
  · rintro ⟨_, b, rfl, rfl, hb⟩
    exact hb
  · exact fun h => ⟨[], log, rfl, rfl, h⟩

@[simp]
theorem chained_nil_right (A : ListSet α) : Chained A (· = []) = A := by
  funext log
  apply propext
  constructor
  · rintro ⟨a, _, rfl, ha, rfl⟩
    rwa [List.append_nil]
  · exact fun h => ⟨log, [], (List.append_nil log).symm, h, rfl⟩

theorem chained_assoc (A B C : ListSet α) : Chained (Chained A B) C = Chained A (Chained B C) := by
  funext log
  apply propext
  constructor
  · rintro ⟨_, c, rfl, ⟨a, b, rfl, ha, hb⟩, hc⟩
    exact ⟨a, b ++ c, by simp, ha, b, c, rfl, hb, hc⟩
  · rintro ⟨a, _, rfl, ha, b, c, rfl, hb, hc⟩
    exact ⟨a ++ b, c, by simp, ⟨a, b, rfl, ha, hb⟩, hc⟩

theorem single_chained {kind : TokenKind} {value : String} {A : LogSet} {log : List Token} :
    Chained (Single kind value) A log ↔
      ∃ position rest, log = ⟨kind, value, position⟩ :: rest ∧ A rest := by
  constructor
  · rintro ⟨_, rest, rfl, ⟨position, rfl⟩, hrest⟩
    exact ⟨position, rest, rfl, hrest⟩
  · rintro ⟨position, rest, rfl, hrest⟩
    exact ⟨_, rest, rfl, ⟨position, rfl⟩, hrest⟩

/-- What holds of no parts and of one more part in front holds of all repetitions. -/
theorem Repeated.induction {A P : ListSet α} {log : List α} (h : Repeated A log) (nil : P [])
    (cons : ∀ first rest, A first → P rest → P (first ++ rest)) : P log := by
  obtain ⟨parts, rfl, hparts⟩ := h
  induction parts with
  | nil => exact nil
  | cons first parts ih =>
    simp only [List.mem_cons, forall_eq_or_imp] at hparts
    simp only [List.flatten_cons]
    exact cons first _ hparts.1 (ih hparts.2)

mutual

/-- The logs that a rule may add, given those of the nonterminals. -/
def Produces (lang : ν → LogSet) : Rule ν → LogSet
  | .literal text logged => if logged then Single .symbol text else (· = [])
  | .keyword text => Single .keyword text
  | .word => fun log => ∃ value, Single .word value log
  | .number => fun log => ∃ value, Single .number value log
  | .quoted => fun log => ∃ value, Single .quoted value log
  | .choice rules => ProducesAny lang rules
  | .longest rules => ProducesAny lang rules
  | .sequence rules => ProducesAll lang rules
  | .list item separator =>
    Chained (Produces lang item) (Repeated (Chained (Produces lang separator) (Produces lang item)))
  | .optional rule => fun log => log = [] ∨ Produces lang rule log
  | .many rule => Repeated (Produces lang rule)
  | .peek _ _ => (· = [])
  | .required rule _ => Produces lang rule
  | .silent _ => (· = [])
  | .action m => Single (.marker m) ""
  | .nonterminal name => lang name

/-- The logs that one of several rules may add. -/
def ProducesAny (lang : ν → LogSet) : List (Rule ν) → LogSet
  | [] => fun _ => False
  | rule :: rest => fun log => Produces lang rule log ∨ ProducesAny lang rest log

/-- The logs that several rules in order may add. -/
def ProducesAll (lang : ν → LogSet) : List (Rule ν) → LogSet
  | [] => (· = [])
  | rule :: rest => Chained (Produces lang rule) (ProducesAll lang rest)

end

/-- The log of one of several keywords. -/
def OneKeyword (words : List String) : LogSet :=
  fun log => ∃ text ∈ words, Single .keyword text log

@[simp]
theorem produces_symbol (lang : ν → LogSet) (text : String) :
    Produces lang (symbol text) = Single .symbol text := by
  simp [symbol, Produces]

@[simp]
theorem produces_hidden (lang : ν → LogSet) (text : String) :
    Produces lang (hidden text) = (· = []) := by
  simp [hidden, Produces]

@[simp]
theorem produces_keywords (lang : ν → LogSet) (words : List String) :
    Produces lang (keywords words) = OneKeyword words := by
  simp only [keywords, Produces]
  induction words with
  | nil =>
    funext log
    simp [ProducesAny, OneKeyword]
  | cons text rest ih =>
    funext log
    simp only [List.map_cons, ProducesAny, ih, OneKeyword, Produces, List.mem_cons,
      exists_eq_or_imp]

/-- The logs that a grammar generates for a nonterminal within some levels of nesting. -/
def Generates (body : ν → Rule ν) : Nat → ν → LogSet
  | 0, _ => fun _ => False
  | levels + 1, name => Produces (Generates body levels) (body name)

/-! ## Atoms -/

/-- A kind of token that a rule logs, with its value where the rule fixes it. -/
structure Atom where
  kind : TokenKind
  value : Option String
deriving Repr, DecidableEq

/-- The token is of this form. -/
def Atom.Covers (a : Atom) (t : Token) : Prop :=
  t.kind = a.kind ∧ ∀ value ∈ a.value, t.value = value

mutual

/-- The forms of the tokens that a rule logs itself, not through a nonterminal. -/
def atoms : Rule ν → List Atom
  | .literal text logged => if logged then [⟨.symbol, some text⟩] else []
  | .keyword text => [⟨.keyword, some text⟩]
  | .word => [⟨.word, none⟩]
  | .number => [⟨.number, none⟩]
  | .quoted => [⟨.quoted, none⟩]
  | .choice rules => atomsOfAll rules
  | .longest rules => atomsOfAll rules
  | .sequence rules => atomsOfAll rules
  | .list item separator => atoms item ++ atoms separator
  | .optional rule => atoms rule
  | .many rule => atoms rule
  | .peek _ _ => []
  | .required rule _ => atoms rule
  | .silent _ => []
  | .action m => [⟨.marker m, some ""⟩]
  | .nonterminal _ => []

/-- The forms of the tokens that several rules log. -/
def atomsOfAll : List (Rule ν) → List Atom
  | [] => []
  | rule :: rest => atoms rule ++ atomsOfAll rest

end

/-! ## Closed properties -/

/-- A property of logs that joining keeps and that all logs of the nonterminals have. -/
structure Closed (lang : ν → LogSet) (P : LogSet) : Prop where
  nil : P []
  append : ∀ a b, P a → P b → P (a ++ b)
  name : ∀ name log, lang name log → P log

section Closed

variable {lang : ν → LogSet} {P : LogSet}

theorem Chained.closed (h : Closed lang P) {A B : LogSet}
    (hA : ∀ log, A log → P log) (hB : ∀ log, B log → P log) :
    ∀ log, Chained A B log → P log := by
  rintro _ ⟨a, b, rfl, ha, hb⟩
  exact h.append a b (hA a ha) (hB b hb)

theorem Repeated.closed (h : Closed lang P) {A : LogSet}
    (hA : ∀ log, A log → P log) : ∀ log, Repeated A log → P log := by
  intro log hlog
  refine hlog.induction h.nil fun first rest hfirst hrest => ?_
  exact h.append first rest (hA first hfirst) hrest

theorem Single.closed {kind : TokenKind} {value : String} {forms : List Atom}
    (token : ∀ a ∈ forms, ∀ t, a.Covers t → P [t]) {a : Atom} (ha : a ∈ forms)
    (hkind : a.kind = kind) (hvalue : ∀ v ∈ a.value, value = v) :
    ∀ log, Single kind value log → P log := by
  rintro _ ⟨position, rfl⟩
  exact token a ha _ ⟨hkind.symm, hvalue⟩

mutual

/-- A property that joining keeps and that all tokens of a rule have holds for its logs. -/
theorem Produces.closed (h : Closed lang P) : ∀ (rule : Rule ν), (∀ a ∈ rule.atoms, ∀ t, a.Covers t → P [t]) →
    ∀ log, Produces lang rule log → P log
  | .literal text logged, token => by
    cases logged with
    | true =>
      simp only [Produces, if_true]
      exact Single.closed token (a := ⟨.symbol, some text⟩) (by simp [atoms]) rfl (by simp)
    | false =>
      rintro _ rfl
      exact h.nil
  | .keyword text, token =>
    Single.closed token (a := ⟨.keyword, some text⟩) (by simp [atoms]) rfl (by simp)
  | .word, token => by
    rintro log ⟨value, hlog⟩
    exact Single.closed token (a := ⟨.word, none⟩) (by simp [atoms]) rfl (by simp) log hlog
  | .number, token => by
    rintro log ⟨value, hlog⟩
    exact Single.closed token (a := ⟨.number, none⟩) (by simp [atoms]) rfl (by simp) log hlog
  | .quoted, token => by
    rintro log ⟨value, hlog⟩
    exact Single.closed token (a := ⟨.quoted, none⟩) (by simp [atoms]) rfl (by simp) log hlog
  | .choice rules, token => ProducesAny.closed h rules token
  | .longest rules, token => ProducesAny.closed h rules token
  | .sequence rules, token => ProducesAll.closed h rules token
  | .list item separator, token => by
    have hitem := Produces.closed h item fun a ha => token a (List.mem_append_left _ ha)
    have hsep := Produces.closed h separator fun a ha => token a (List.mem_append_right _ ha)
    exact Chained.closed h hitem (Repeated.closed h (Chained.closed h hsep hitem))
  | .optional rule, token => by
    rintro log (rfl | hlog)
    · exact h.nil
    · exact Produces.closed h rule token log hlog
  | .many rule, token => Repeated.closed h (Produces.closed h rule token)
  | .peek _ _, _ => by
    rintro _ rfl
    exact h.nil
  | .required rule _, token => Produces.closed h rule token
  | .silent _, _ => by
    rintro _ rfl
    exact h.nil
  | .action m, token =>
    Single.closed token (a := ⟨.marker m, some ""⟩) (by simp [atoms]) rfl (by simp)
  | .nonterminal name, _ => h.name name

theorem ProducesAny.closed (h : Closed lang P) : ∀ (rules : List (Rule ν)),
    (∀ a ∈ atomsOfAll rules, ∀ t, a.Covers t → P [t]) → ∀ log, ProducesAny lang rules log → P log
  | [], _ => fun _ hlog => hlog.elim
  | rule :: rest, token => by
    rintro log (hlog | hlog)
    · exact Produces.closed h rule (fun a ha => token a (List.mem_append_left _ ha)) log hlog
    · exact ProducesAny.closed h rest (fun a ha => token a (List.mem_append_right _ ha)) log hlog

theorem ProducesAll.closed (h : Closed lang P) : ∀ (rules : List (Rule ν)),
    (∀ a ∈ atomsOfAll rules, ∀ t, a.Covers t → P [t]) → ∀ log, ProducesAll lang rules log → P log
  | [], _ => by
    rintro _ rfl
    exact h.nil
  | rule :: rest, token =>
    Chained.closed h
      (Produces.closed h rule fun a ha => token a (List.mem_append_left _ ha))
      (ProducesAll.closed h rest fun a ha => token a (List.mem_append_right _ ha))

end

end Closed

end LinkQuery.Rule
