import LinkQuery.Proofs.PrintedTerms
import LinkQuery.Proofs.TokenShapes
/-!
# Texts of arithmetic

Operators of one rank are matched as a list, whatever the tree, so the text of a left operand is
matched together with the operators behind it: `LeadsList` says what a text is at the front of a
list, `IsItem` what it is as one item.

Main statements:
- `LeadsList.more`: one more operator with its right operand.
- `IsRanked.number`, `IsRanked.call`, `IsRanked.group`, `IsRanked.binary`: the texts of a metric.
-/
namespace LinkQuery.Rule

open Language

variable {cs mid rest text other gap before after : List Char} {a b l : List Lexeme}
  {name : String} {names : List String}

/-! ## Gaps -/

/-- White space, at least one character of it. -/
structure IsSpace (gap : List Char) : Prop where
  nonempty : gap ≠ []
  blank : ∀ c ∈ gap, Text.isBlank c = true

theorem dropBlanks_gap (h : ∀ c ∈ gap, Text.isBlank c = true) (cs : List Char) :
    Text.dropBlanks (gap ++ cs) = Text.dropBlanks cs :=
  List.dropWhile_append_of_pos h

theorem endsNumber_blank {c : Char} (h : Text.isBlank c = true) : EndsNumber (c :: rest) := by
  refine endsNumber_of_front ?_ ?_
  · by_contra hname
    rw [Bool.not_eq_false] at hname
    rw [Text.isBlank_of_isNameChar hname] at h
    cases h
  · rintro rfl
    exact absurd h (by decide)

theorem IsSpace.endsNumber (h : IsSpace gap) : EndsNumber (gap ++ rest) := by
  obtain ⟨c, more, rfl⟩ := List.exists_cons_of_ne_nil h.nonempty
  exact endsNumber_blank (h.blank c (List.mem_cons_self ..))

theorem IsSpace.front (h : IsSpace gap) (cs : List Char) :
    Rule.front (gap ++ cs) = Rule.front cs := by
  rw [Rule.front, dropBlanks_gap h.blank, Rule.front]

/-! ## Items of a list -/

/-- The text is matched by the rule in front of certain texts. -/
def IsItem (ends : List Char → Prop) (rule : PartRule) (text : List Char) (l : List Lexeme) :
    Prop :=
  ∀ cs rest, Text.dropBlanks cs = text ++ rest → ends rest → Accepts Part.body rule cs rest l

/-- The text is matched at the front of a list, with what the list holds behind it. -/
def LeadsList (ends : List Char → Prop) (item separator : PartRule) (text : List Char)
    (l : List Lexeme) : Prop :=
  ∀ cs rest mid b, Text.dropBlanks cs = text ++ rest → ends rest →
    Repeats (listStep Part.body item separator) rest mid b →
    Accepts Part.body (.list item separator) cs mid (l ++ b)

section Lists

variable {ends narrow : List Char → Prop} {item separator : PartRule}

theorem IsItem.leadsList (h : IsItem ends item text l) : LeadsList ends item separator text l :=
  fun cs rest _ _ hcs hrest hmore => Accepts.list (h cs rest hcs hrest) hmore

/-- A list is an item in front of a text that does not go on with a separator. -/
theorem LeadsList.isItem (h : LeadsList ends item separator text l)
    (hends : ∀ rest, narrow rest → ends rest ∧ Rejects Part.body separator rest) :
    IsItem narrow (.list item separator) text l := by
  intro cs rest hcs hrest
  obtain ⟨hfollow, hstop⟩ := hends rest hrest
  simpa using h cs rest rest [] hcs hfollow (Repeats.listNone (Rejects.seqHead hstop))

/-- One more separator and item at the front of a list. -/
theorem LeadsList.more (h : LeadsList ends item separator text a) (hitem : IsItem ends item other l)
    (hends : ∀ rest, ends (before ++ (after ++ (other ++ rest))))
    (hseparator : ∀ rest, Accepts Part.body separator (before ++ rest) rest b)
    (hbefore : before ≠ [])
    (hafter : ∀ rest, Text.dropBlanks (after ++ (other ++ rest)) = other ++ rest) :
    LeadsList ends item separator (text ++ (before ++ (after ++ other))) (a ++ (b ++ l)) := by
  intro cs rest mid c hcs hrest hrepeats
  have hone := Accepts.seq (hseparator (after ++ (other ++ rest)))
    ((hitem _ rest (hafter rest) hrest).seq Accepts.seqNil)
  have hlonger : rest.length < (before ++ (after ++ (other ++ rest))).length := by
    have := List.length_pos_iff.mpr hbefore
    simp only [List.length_append]
    omega
  have hall := h cs _ mid _ (by rw [hcs]; simp) (hends rest)
    (Repeats.listMore hone hlonger hrepeats)
  simpa using hall

end Lists

/-! ## Paths of names -/

/-- Names behind points are steps that end in front of no modifier. -/
theorem Repeats.modifiableNames (h : ∀ name ∈ names, IsWord name) (hrest : EndsPath rest) :
    Repeats (fun levels => run (calls Part.body levels) (.sequence [
        without (.sequence [hidden ".", keywords modifierWords, hidden "("]),
        hidden ".",
        .required (.nonterminal .step) "a path step"]))
      ((names.flatMap fun name => '.' :: name.toList) ++ rest) rest
      (names.map fun name => (.word, name)) := by
  induction names with
  | nil =>
    have hpoint : Rejects Part.body (hidden ".") rest := Rejects.literalOf '.' rfl hrest.step
    exact Repeats.none (Rejects.seqTail (Accepts.without (Rejects.seqHead hpoint))
      (Rejects.seqHead hpoint))
  | cons name names ih =>
    rw [List.forall_mem_cons] at h
    have hend := (Filter.isSteps_names h.2 rest hrest).2
    generalize hbehind : (names.flatMap fun name => '.' :: name.toList) ++ rest = behind at hend ih
    have htext : ((name :: names).flatMap fun name => '.' :: name.toList) ++ rest =
        '.' :: (name.toList ++ behind) := by
      rw [← hbehind]
      simp
    have hdrop : Text.dropBlanks (name.toList ++ behind) = name.toList ++ behind :=
      h.1.dropBlanks behind
    have hmodifier : Rejects Part.body (.sequence [hidden ".", keywords modifierWords, hidden "("])
        ('.' :: (name.toList ++ behind)) :=
      Rejects.seqTail (Accepts.hidden rfl) (Rejects.keywordsOnName hdrop h.1 hend.name
        (capital_of_all rfl) hend.rejectsCall.1)
    have hunmarked : Text.dropBlanks (name.toList ++ behind) = name.toList ++ ([] ++ behind) :=
      hdrop
    have hstep : Accepts Part.body (.nonterminal .step) (name.toList ++ behind) behind _ :=
      Accepts.nameStep hunmarked h.1 .none hend
    rw [htext]
    exact Repeats.more ((Accepts.without hmodifier).seq ((Accepts.hidden rfl).seq
      ((Accepts.required hstep).seq Accepts.seqNil)))
      (by simp only [List.length_cons, List.length_append]; omega) (ih h.2)

theorem toList_pathText (first : String) (names : List String) :
    (Query.pathText (first :: names)).toList =
      first.toList ++ names.flatMap fun name => '.' :: name.toList :=
  Filter.toList_intercalate "." first names

/-- Names with points between them. -/
theorem Accepts.modifiableNames {first : String} (h : ∀ name ∈ first :: names, IsWord name)
    (hcs : Text.dropBlanks cs = (Query.pathText (first :: names)).toList ++ rest)
    (hrest : EndsPath rest) :
    Accepts Part.body modifiablePath cs rest
      (pathLexemes ((first :: names).map fun name => (.word, name))) := by
  rw [List.forall_mem_cons] at h
  rw [toList_pathText, List.append_assoc] at hcs
  have hunmarked : Text.dropBlanks cs = first.toList ++ ([] ++ (_ ++ rest)) := hcs
  have hall : Accepts Part.body modifiablePath cs rest _ :=
    Accepts.action.seq ((Accepts.nameSegment hunmarked h.1 .none
        (Filter.isSteps_names h.2 rest hrest).2).seq
      ((Accepts.many (Repeats.modifiableNames h.2 hrest)).seq (Accepts.action.seq Accepts.seqNil)))
  simpa [pathLexemes] using hall

/-! ## Keywords -/

/-- The keyword of a function in front of its parenthesis. -/
theorem Accepts.metricFunction (function : MetricFunction)
    (hcs : Text.dropBlanks cs = function.keyword.toList ++ '(' :: rest) :
    Accepts Part.body (.keywords metricWords) cs ('(' :: rest) [(.keyword, function.keyword)] := by
  refine Accepts.keywords hcs (endsName_open _) ?_ ?_
  · cases function <;> decide
  · cases function <;> rfl

/-! ## Ends of operands -/

/-- A product of factors ends here. -/
structure EndsProduct (rest : List Char) : Prop where
  number : EndsNumber rest
  operator : front rest ∉ [some '*', some '/']

/-- A sum of products ends here. -/
structure EndsSum (rest : List Char) : Prop where
  product : EndsProduct rest
  operator : front rest ∉ [some '+', some '-']

theorem endsSum_of_front {c : Char} (hnumber : EndsNumber rest) (hfront : front rest = c)
    (h : c ∉ ['*', '/', '+', '-']) : EndsSum rest := by
  simp only [List.mem_cons, List.not_mem_nil, or_false, not_or] at h
  refine ⟨⟨hnumber, ?_⟩, ?_⟩ <;> rw [hfront] <;> simp [h]

theorem rejects_operator {first second : String} {c d : Char} (hfirst : first.toList.head? = some c)
    (hsecond : second.toList.head? = some d) (h : front rest ∉ [some c, some d]) :
    Rejects Part.body (.choice [symbol first, symbol second]) rest := by
  simp only [List.mem_cons, List.not_mem_nil, or_false, not_or] at h
  exact Rejects.choiceCons (Rejects.literalOf c hfirst h.1)
    (Rejects.choiceCons (Rejects.literalOf d hsecond h.2) Rejects.choiceNil)

end LinkQuery.Rule

namespace LinkQuery.Metric

open Rule Language

variable {text other before after digits : List Char} {l a b : List Lexeme} {k : Nat}

/-! ## Operands of a rank -/

/-- The text is an operand whose operators bind at least as closely as the rank. -/
def IsRanked : Nat → List Char → List Lexeme → Prop
  | 0 | 1 => LeadsList EndsProduct metricTerm (.choice [symbol "+", symbol "-"])
  | 2 => LeadsList EndsNumber metricFactor (.choice [symbol "*", symbol "/"])
  | _ + 3 => IsItem EndsNumber metricFactor

namespace IsRanked

theorem of_term (h : IsRanked 2 text l) (hk : k ≤ 2) : IsRanked k text l := by
  have hterm : IsItem EndsProduct metricTerm text l := LeadsList.isItem h fun _ hrest =>
    ⟨hrest.number, rejects_operator rfl rfl hrest.operator⟩
  match k, hk with
  | 0, _ | 1, _ => exact hterm.leadsList
  | 2, _ => exact h

theorem of_factor (h : IsRanked 3 text l) : IsRanked k text l := by
  have hterm : IsRanked 2 text l := IsItem.leadsList h
  match k with
  | 0 | 1 | 2 => exact of_term hterm (by decide)
  | _ + 3 => exact h

/-- A text of any rank is a metric in front of what no operator begins. -/
theorem isMetric (h : IsRanked 1 text l) : IsItem EndsSum Language.metric text l :=
  LeadsList.isItem h fun _ hrest => ⟨hrest.product, rejects_operator rfl rfl hrest.operator⟩

theorem number (h : IsNumber digits) : IsRanked k digits [(.number, String.ofList digits)] := by
  refine of_factor fun cs rest hcs hrest => ?_
  obtain ⟨c, more, rfl, hc⟩ := h.first
  have hall : ("-0123456789".toList.all fun c =>
      [.sequence [symbol "(", .required (.nonterminal .metric) "a metric expression",
        .required (symbol ")") "')'"], Language.dateDifference, metricCall].all fun rule =>
          !mayBegin (namesMayBegin Part.body 0) rule (some c)) = true := by decide
  have hothers := List.all_eq_true.mp hall c hc
  simp only [List.all_cons, List.all_nil, Bool.and_true, Bool.and_eq_true,
    Bool.not_eq_true'] at hothers
  have hfront : front cs = some c := by
    rw [front, hcs]
    rfl
  exact Accepts.choiceTail (rejects_of_front 0 hfront hothers.1)
    (Accepts.choiceTail (rejects_of_front 0 hfront hothers.2.1)
      (Accepts.choiceTail (rejects_of_front 0 hfront hothers.2.2)
        (Accepts.choiceHead (Accepts.number hcs h hrest))))

/-- An operand in parentheses. -/
theorem group (h : IsRanked 1 text l)
    (hsolid : ∃ c more, text = c :: more ∧ Text.isBlank c = false) :
    IsRanked k ('(' :: (text ++ [')'])) ((.symbol, "(") :: (l ++ [(.symbol, ")")])) := by
  refine of_factor fun cs rest hcs _ => Accepts.choiceHead ?_
  have hopen : Text.dropBlanks cs = "(".toList ++ (text ++ ')' :: rest) := by
    rw [hcs]
    simp
  have hclose : EndsSum (')' :: rest) :=
    endsSum_of_front (endsNumber_of_front (by decide) (by decide)) rfl (by decide)
  exact (Accepts.symbol hopen).seq ((Accepts.required (Accepts.nonterminal
      (h.isMetric _ _ (dropBlanks_solid hsolid _) hclose))).seq
    ((Accepts.required (Accepts.symbol rfl)).seq Accepts.seqNil))

/-- The symbol of an operator behind white space. -/
theorem accepts_operator (first second : ArithmeticOp) {op : ArithmeticOp}
    (hop : op = first ∨ op = second) (hbefore : IsSpace before) (rest : List Char) :
    Accepts Part.body (.choice [symbol first.symbol, symbol second.symbol])
      (before ++ op.symbol.toList ++ rest) rest [(.symbol, op.symbol)] := by
  have hdrop : Text.dropBlanks (before ++ op.symbol.toList ++ rest) = op.symbol.toList ++ rest := by
    rw [List.append_assoc, dropBlanks_gap hbefore.blank]
    cases op <;> exact Text.dropBlanks_cons (by decide)
  by_cases hfirst : op = first
  · exact hfirst ▸ Accepts.choiceHead (Accepts.symbol hdrop)
  · obtain rfl := hop.resolve_left hfirst
    refine Accepts.choiceTail (Rejects.literal ?_) (Accepts.choiceHead (Accepts.symbol hdrop))
    rw [hdrop]
    cases op <;> cases first <;> first | rfl | exact absurd rfl hfirst

/-- An operator between its operands. -/
theorem binary {op : ArithmeticOp} (hk : k ≤ op.rank) (hleft : IsRanked op.rank text a)
    (hright : IsRanked (op.rank + 1) other b)
    (hsolid : ∃ c more, other = c :: more ∧ Text.isBlank c = false) (hbefore : IsSpace before)
    (hafter : IsSpace after) :
    IsRanked k (text ++ (before ++ op.symbol.toList ++ (after ++ other)))
      (a ++ ([(.symbol, op.symbol)] ++ b)) := by
  have hsymbol : before ++ op.symbol.toList ≠ [] := by simp [hbefore.nonempty]
  have hnumber : ∀ more, EndsNumber (before ++ op.symbol.toList ++ more) := fun more => by
    rw [List.append_assoc]
    exact hbefore.endsNumber
  have hdrop : ∀ rest, Text.dropBlanks (after ++ (other ++ rest)) = other ++ rest := fun rest => by
    rw [dropBlanks_gap hafter.blank]
    exact dropBlanks_solid hsolid rest
  have hfront : ∀ more, front (before ++ op.symbol.toList ++ more) = op.symbol.toList.head? :=
    fun more => by
      rw [List.append_assoc, hbefore.front]
      cases op <;> rfl
  match op with
  | .multiply | .divide =>
    refine of_term (LeadsList.more hleft hright (fun _ => hnumber _) ?_ hsymbol hdrop) hk
    exact accepts_operator .multiply .divide (by simp) hbefore
  | .add | .subtract =>
    have hproduct : ∀ more, EndsProduct (before ++ _ ++ more) := fun more =>
      ⟨hnumber more, by rw [hfront]; decide⟩
    have hterm : IsItem EndsProduct metricTerm other b := LeadsList.isItem hright fun _ hrest =>
      ⟨hrest.number, rejects_operator rfl rfl hrest.operator⟩
    have hall : IsRanked 1 _ _ := LeadsList.more hleft hterm (fun _ => hproduct _)
      (accepts_operator .add .subtract (by simp) hbefore) hsymbol hdrop
    match k, hk with
    | 0, _ | 1, _ => exact hall

end IsRanked

/-! ## Calls -/

/-- The digits are read as the decimal. -/
structure IsDecimalText (value : Decimal) (digits : List Char) : Prop where
  isNumber : IsNumber digits
  reads : Decimal.ofText? (String.ofList digits) = some value

/-- What a function is called on: a star for the objects themselves, or the names of a path. -/
def targetText : List String → List Char
  | [] => ['*']
  | path => (Query.pathText path).toList

/-- The text of the parameter of a call, if it has one. -/
inductive IsParameterText : Option Decimal → List Char → Prop
  | none : IsParameterText none []
  | some {value : Decimal} {gap digits : List Char} (hgap : ∀ c ∈ gap, Text.isBlank c = true)
    (h : IsDecimalText value digits) : IsParameterText (some value) (',' :: (gap ++ digits))

/-- The text of a call whose path has no filters. -/
def IsCallText (c : MetricCall) (text : List Char) : Prop :=
  ∃ parameter, IsParameterText c.parameter parameter ∧
    text = c.function.keyword.toList ++ '(' :: (targetText c.path ++ (parameter ++ [')']))

/-- What the target of a call says. -/
def targetLexemes : List String → List Lexeme
  | [] => [(.symbol, "*")]
  | path => pathLexemes (path.map fun name => (.word, name))

/-- What the parameter of a call says. -/
inductive SaysParameter : Option Decimal → List Lexeme → Prop
  | none : SaysParameter none []
  | some {value : Decimal} {digits : String} (h : decimalOf digits = .ok value) :
    SaysParameter (some value) [(.symbol, ","), (.number, digits)]

/-- What a call says. -/
def SaysCall (c : MetricCall) (l : List Lexeme) : Prop :=
  ∃ parameter, SaysParameter c.parameter parameter ∧
    l = (.keyword, c.function.keyword) :: (.symbol, "(") ::
      (targetLexemes c.path ++ (parameter ++ [(.symbol, ")")]))

theorem IsParameterText.accepts {parameter : Option Decimal} (h : IsParameterText parameter text) :
    ∃ l, SaysParameter parameter l ∧ ∀ rest, EndsPath (text ++ ')' :: rest) ∧
      Accepts Part.body (.optional (.sequence [symbol ",", .required .number "a number"]))
        (text ++ ')' :: rest) (')' :: rest) l := by
  cases h with
  | none =>
    exact ⟨[], .none, fun rest => ⟨(EndsTerm.close rest).endsPath,
      Accepts.optionalNone (Rejects.seqHead (Rejects.literal rfl))⟩⟩
  | @some value gap digits hgap h =>
    have hvalue : decimalOf (String.ofList digits) = .ok value := by simp [decimalOf, h.reads]
    refine ⟨_, .some hvalue, fun rest => ⟨endsPath_comma _, ?_⟩⟩
    have hdigits : Text.dropBlanks (gap ++ (digits ++ ')' :: rest)) = digits ++ ')' :: rest := by
      rw [dropBlanks_gap hgap]
      exact h.isNumber.isValue.solid _
    have hall : Accepts Part.body (.sequence [symbol ",", .required .number "a number"])
        (',' :: (gap ++ (digits ++ ')' :: rest))) (')' :: rest) _ :=
      (Accepts.symbol rfl).seq ((Accepts.required (Accepts.number hdigits h.isNumber
        (endsNumber_of_front (by decide) (by decide)))).seq Accepts.seqNil)
    simpa using hall.optionalSome

theorem accepts_target {path : List String} {rest : List Char}
    (hwords : ∀ name ∈ path, IsWord name) (hrest : EndsPath rest) :
    Accepts Part.body (.choice [symbol "*", modifiablePath]) (targetText path ++ rest) rest
      (targetLexemes path) := by
  cases path with
  | nil => exact Accepts.choiceHead (Accepts.symbol rfl)
  | cons first names =>
    have hdrop := dropBlanks_solid (Filter.isPath_names hwords).solid rest
    have hstar : front ((Query.pathText (first :: names)).toList ++ rest) ≠ some '*' := by
      rw [toList_pathText, List.append_assoc]
      obtain ⟨c, hc, hstart⟩ := (hwords first (List.mem_cons_self ..)).front
        ((names.flatMap fun name => '.' :: name.toList) ++ rest)
      rw [hc]
      rintro ⟨⟩
      exact absurd hstart (by decide)
    exact Accepts.choiceTail (Rejects.literalOf '*' rfl hstar)
      (Accepts.choiceHead (Accepts.modifiableNames hwords hdrop hrest))

/-- The text of a call is an operand. -/
theorem IsCallText.isRanked {c : MetricCall} (hwords : ∀ name ∈ c.path, IsWord name)
    (h : IsCallText c text) : ∃ l, SaysCall c l ∧ IsRanked k text l := by
  obtain ⟨parameter, hparameter, rfl⟩ := h
  obtain ⟨l, hl, haccepts⟩ := hparameter.accepts
  refine ⟨_, ⟨l, hl, rfl⟩, IsRanked.of_factor fun cs rest hcs _ => ?_⟩
  obtain ⟨hend, hbehind⟩ := haccepts rest
  have hcs' : Text.dropBlanks cs = c.function.keyword.toList ++
      '(' :: (targetText c.path ++ (parameter ++ ')' :: rest)) := by
    rw [hcs]
    simp
  have hopen : front cs ≠ some '(' := by
    rw [front, hcs']
    cases c.function <;> rintro ⟨⟩
  have hdifference : Rejects Part.body (.keyword "DATEDIFF") cs := by
    refine Rejects.keyword ?_
    rw [hcs']
    cases c.function <;> rfl
  have hcall : Accepts Part.body metricCall cs rest _ :=
    (Accepts.metricFunction c.function hcs').seq ((Accepts.symbol rfl).seq
      ((Accepts.required (accepts_target hwords hend)).seq
        (hbehind.seq ((Accepts.required (Accepts.symbol rfl)).seq Accepts.seqNil))))
  exact Accepts.choiceTail (Rejects.seqHead (Rejects.literalOf '(' rfl hopen))
    (Accepts.choiceTail (Rejects.seqHead hdifference) (Accepts.choiceHead (by simpa using hcall)))

end LinkQuery.Metric
