import LinkQuery.Proofs.Connectives
import LinkQuery.Proofs.PathTexts
/-!
# Texts of filters

Which texts the terms of a filter accept, what may follow them, and how texts are joined to
alternatives and to whole filters. A text also says whether it can be taken for a path in the
parentheses of a quantifier, which decides what a quantified condition is.

Main statements:
- `IsText`: the texts of the levels of a filter.
- `IsText.not`, `IsText.group`, `IsText.joined`: the combinations.
- `IsPrimary.namedPath`, `IsPrimary.quantifiedPath`: the terms that begin with a path.
-/
namespace LinkQuery.Rule

open Language
open Filter (Level)

variable {cs mid rest : List Char} {a b l : List Lexeme}

/-- Nothing is both accepted and rejected. -/
theorem Accepts.not_rejects {ν : Type} {body : ν → Rule ν} {rule : Rule ν}
    (h : Accepts body rule cs rest l) : ¬ Rejects body rule cs := by
  rintro ⟨enough', hreject⟩
  obtain ⟨enough, h⟩ := h
  have hstart := State.start_before cs (max enough enough')
  obtain ⟨read, tokens, -, hrun, -⟩ := h _ (Nat.le_max_left ..) _ hstart
  rw [hreject _ (Nat.le_max_right ..) _ hstart] at hrun
  cases hrun

/-- The last rule of a sequence. -/
theorem Accepts.seqLast {ν : Type} {body : ν → Rule ν} {rule : Rule ν}
    (h : Accepts body rule cs rest l) : Accepts body (.sequence [rule]) cs rest l := by
  simpa using Accepts.seq h Accepts.seqNil

/-- What is accepted begins with a character that the rule may begin with. -/
theorem Accepts.mayBegin {ν : Type} {body : ν → Rule ν} {rule : Rule ν} (levels : Nat)
    (h : Accepts body rule cs rest l) :
    Rule.mayBegin (namesMayBegin body levels) rule (front cs) = true := by
  by_cases hbegin : Rule.mayBegin (namesMayBegin body levels) rule (front cs) = true
  · exact hbegin
  · exact absurd (rejects_of_front levels rfl (by simpa using hbegin)) h.not_rejects

/-! ## Tails -/

/-- The text, behind a blank, is a test in front of the end of a term. -/
structure IsTail (text : List Char) (l : List Lexeme) : Prop where
  behindBlank : ∃ more, text = ' ' :: more
  accepts : ∀ rest, EndsTerm rest → Accepts Part.body clauseTail (text ++ rest) rest l

namespace IsTail

variable {text : List Char}

theorem front_ne {c : Char} (h : IsTail text l) (hrest : EndsTerm rest)
    (hc : Rule.mayBegin (namesMayBegin Part.body 0) clauseTail (some c) = false) :
    front (text ++ rest) ≠ some c := by
  intro hfront
  have hbegin := (h.accepts rest hrest).mayBegin 0
  rw [hfront, hc] at hbegin
  cases hbegin

theorem endsSegment (h : IsTail text l) (hrest : EndsTerm rest) : EndsSegment (text ++ rest) := by
  obtain ⟨more, hmore⟩ := h.behindBlank
  refine ⟨?_, ?_⟩
  · rw [hmore]
    exact endsName_blank _
  · simp only [List.mem_cons, List.not_mem_nil, or_false, not_or]
    exact ⟨h.front_ne hrest rfl, h.front_ne hrest rfl, h.front_ne hrest rfl, h.front_ne hrest rfl⟩

theorem present : IsTail " IS NOT NULL".toList
    [(.keyword, "IS"), (.keyword, "NOT"), (.keyword, "NULL")] := by
  refine ⟨⟨_, rfl⟩, fun rest hrest => ?_⟩
  have hblank : EndsName (" NOT NULL".toList ++ rest) := endsName_blank _
  have hblank' : EndsName (" NULL".toList ++ rest) := endsName_blank _
  exact Accepts.choiceHead (Accepts.seq (Accepts.keyword rfl hblank)
    (Accepts.seq (Accepts.optionalSome (Accepts.keyword rfl hblank'))
      (Accepts.seq (Accepts.required (Accepts.keyword rfl hrest.endsNumber.name)) Accepts.seqNil)))

theorem missing : IsTail " IS NULL".toList [(.keyword, "IS"), (.keyword, "NULL")] := by
  refine ⟨⟨_, rfl⟩, fun rest hrest => ?_⟩
  have hblank : EndsName (" NULL".toList ++ rest) := endsName_blank _
  exact Accepts.choiceHead (Accepts.seq (Accepts.keyword rfl hblank)
    (Accepts.seq (Accepts.optionalNone (Rejects.keyword rfl))
      (Accepts.seq (Accepts.required (Accepts.keyword rfl hrest.endsNumber.name)) Accepts.seqNil)))

/-- A comparison with what is accepted as a value. -/
theorem compare {op : CompareOp} {value : List Char} (hsolid : ∃ c more, value = c :: more ∧
      Text.isBlank c = false)
    (h : ∀ cs rest, Text.dropBlanks cs = value ++ rest → EndsTerm rest →
      Accepts Part.body Language.value cs rest l) :
    IsTail (' ' :: (op.symbol.toList ++ ' ' :: value)) ((.symbol, op.symbol) :: l) := by
  refine ⟨⟨_, rfl⟩, fun rest hrest => ?_⟩
  obtain ⟨c, more, rfl, hc⟩ := hsolid
  have hop : Accepts Part.body compareOp (' ' :: (op.symbol.toList ++ ' ' :: (c :: more)) ++ rest)
      (' ' :: (c :: more) ++ rest) [(.symbol, op.symbol)] := by
    refine CompareOp.accepts op ?_ (by simp)
    cases op <;> rfl
  have hvalue : Accepts Part.body Language.value (' ' :: (c :: more) ++ rest) rest l :=
    h _ rest (by
      show Text.dropBlanks (c :: (more ++ rest)) = _
      exact Text.dropBlanks_cons hc) hrest
  have his : Rejects Part.body (.sequence [.keyword "IS", .optional (.keyword "NOT"),
      .required (.keyword "NULL") "NULL"])
      (' ' :: (op.symbol.toList ++ ' ' :: (c :: more)) ++ rest) :=
    Rejects.seqHead (Rejects.keyword (by cases op <;> rfl))
  exact Accepts.choiceTail his (Accepts.choiceHead
    (Accepts.seq hop (Accepts.seqLast (Accepts.required hvalue))))

end IsTail

/-- What may stand behind a path: nothing, or a test. -/
inductive IsTailOrNone : List Char → List Lexeme → Prop
  | nothing : IsTailOrNone [] []
  | test {text : List Char} {l : List Lexeme} (h : IsTail text l) : IsTailOrNone text l

namespace IsTailOrNone

variable {text : List Char}

theorem accepts (h : IsTailOrNone text l) (hrest : EndsTerm rest) :
    Accepts Part.body (.optional clauseTail) (text ++ rest) rest l := by
  cases h with
  | nothing => exact Accepts.optionalNone (hrest.rejects (by decide))
  | test h => exact Accepts.optionalSome (h.accepts rest hrest)

theorem endsSegment (h : IsTailOrNone text l) (hrest : EndsTerm rest) :
    EndsSegment (text ++ rest) := by
  cases h with
  | nothing => exact hrest.endsSegment
  | test h => exact h.endsSegment hrest

theorem noStep (h : IsTailOrNone text l) (hrest : EndsTerm rest) :
    front (text ++ rest) ≠ some '.' := by
  cases h with
  | nothing =>
    intro hfront
    have hmem := hrest.front_mem
    rw [List.nil_append] at hfront
    rw [hfront] at hmem
    revert hmem
    decide
  | test h => exact h.front_ne hrest rfl

end IsTailOrNone

/-! ## Steps -/

/-- A path ends here: neither its last segment nor a step goes on. -/
structure EndsPath (rest : List Char) : Prop where
  segment : EndsSegment rest
  step : front rest ≠ some '.'

theorem EndsTerm.endsPath (h : EndsTerm rest) : EndsPath rest :=
  ⟨h.endsSegment, IsTailOrNone.nothing.noStep h⟩

theorem IsTailOrNone.endsPath {text : List Char} (h : IsTailOrNone text l) (hrest : EndsTerm rest) :
    EndsPath (text ++ rest) :=
  ⟨h.endsSegment hrest, h.noStep hrest⟩

/-- A segment ends in front of a point. -/
theorem endsSegment_point : EndsSegment ('.' :: rest) := by
  refine ⟨endsName_cons (by decide) rest, ?_⟩
  have hfront : front ('.' :: rest) = some '.' := rfl
  rw [hfront]
  decide

/-- The text is the steps of a path in front of certain texts. -/
def IsSteps (ends : List Char → Prop) (text : List Char) (l : List Lexeme) : Prop :=
  ∀ rest, ends rest → Steps (text ++ rest) rest l ∧ EndsSegment (text ++ rest)

namespace IsSteps

variable {ends : List Char → Prop} {text : List Char} {name : String} {mark filter : List Char}

theorem nil : IsSteps EndsPath [] [] := fun _ hrest => ⟨.done hrest.step, hrest.segment⟩

/-- A later name with its mark. -/
theorem named (hname : IsWord name) (hmark : MarkText mark a) (h : IsSteps ends text b) :
    IsSteps ends ('.' :: (name.toList ++ (mark ++ text))) (((.word, name) :: a) ++ b) := by
  intro rest hrest
  obtain ⟨hsteps, hend⟩ := h rest hrest
  refine ⟨?_, endsSegment_point⟩
  rw [List.cons_append, List.append_assoc, List.append_assoc]
  exact .more (Accepts.nameStep (hname.dropBlanks _) hname hmark hend) hsteps

/-- A filter on the objects that are reached. -/
theorem filtered (hfilter : IsFilterText filter a) (h : IsSteps ends text b) :
    IsSteps ends ('.' :: ("WHERE(".toList ++ (filter ++ ')' :: text))) (blockLexemes a ++ b) := by
  intro rest hrest
  obtain ⟨hsteps, -⟩ := h rest hrest
  refine ⟨?_, endsSegment_point⟩
  rw [List.cons_append, List.append_assoc, List.append_assoc, List.cons_append]
  exact .more (Accepts.whereStep hfilter) hsteps

/-- A quantified condition as the last step. -/
theorem condition {q : Quantifier} (hq : q ≠ .count) (hfilter : IsFilterText filter a)
    (hcontained : Contained filter) :
    IsSteps EndsTerm ('.' :: (q.keyword.toList ++ '(' :: (filter ++ [')'])))
      ((.keyword, q.keyword) :: blockLexemes a) := by
  intro rest hrest
  refine ⟨?_, endsSegment_point⟩
  have hstep := Steps.more (Accepts.conditionStep hq hfilter hcontained hrest)
    (.done hrest.endsPath.step)
  simpa using hstep

end IsSteps

/-! ## Levels -/

/-- An alternative of a filter. -/
def alternative : PartRule :=
  .list unary (.choice [.keyword "AND", .action .impliedAnd])

/-- The rule of a level of a filter. -/
def levelRule : Level → PartRule
  | .unary => unary
  | .conjunction => alternative
  | .disjunction => Language.filter

/-- What the level goes on with does not follow. -/
def EndsLevel : Level → List Char → Prop
  | .unary, rest => EndsTerm rest
  | .conjunction, rest => EndsTerm rest ∧ front rest ≠ some 'A'
  | .disjunction, rest => EndsTerm rest ∧ front rest ≠ some 'A' ∧ front rest ≠ some 'O'

theorem EndsLevel.finish : EndsLevel .disjunction [] :=
  ⟨.finish, by decide, by decide⟩

theorem EndsLevel.close (rest : List Char) : EndsLevel .disjunction (')' :: rest) := by
  have hfront : front (')' :: rest) = some ')' := rfl
  refine ⟨.close rest, ?_, ?_⟩ <;> rw [hfront] <;> decide

/-- The text is a part of a filter of a level. -/
structure IsText (level : Level) (text : List Char) (l : List Lexeme) : Prop where
  solid : ∃ c more, text = c :: more ∧ Text.isBlank c = false
  accepts : ∀ cs rest, Text.dropBlanks cs = text ++ rest → EndsLevel level rest →
    Accepts Part.body (levelRule level) cs rest l
  contained : Contained text

theorem dropBlanks_solid {text : List Char} (h : ∃ c more, text = c :: more ∧ Text.isBlank c = false)
    (rest : List Char) : Text.dropBlanks (text ++ rest) = text ++ rest := by
  obtain ⟨c, more, rfl, hc⟩ := h
  exact Text.dropBlanks_cons hc

theorem IsText.isFilterText {text : List Char} (h : IsText .disjunction text l) :
    IsFilterText text l :=
  fun rest => h.accepts _ _ (dropBlanks_solid h.solid _) (EndsLevel.close rest)

/-- Texts, each behind a gap. -/
def spread (gap : List Char) (items : List (List Char × List Lexeme)) : List Char :=
  items.flatMap fun item => gap ++ item.1

/-- What texts say, each behind a mark. -/
def spreadLexemes (mark : Lexeme) (items : List (List Char × List Lexeme)) : List Lexeme :=
  items.flatMap fun item => mark :: item.2

/-- Items of a list, each behind a gap. -/
theorem repeats_spread {item separator : PartRule} {gap : List Char} {mark : Lexeme}
    {ends : List Char → Prop} (hgap : ∀ more, Accepts Part.body separator (gap ++ more)
      (' ' :: more) [mark]) (hends : ∀ more, ends (gap ++ more))
    {items : List (List Char × List Lexeme)}
    (hitems : ∀ x ∈ items, (∃ c more, x.1 = c :: more ∧ Text.isBlank c = false) ∧
      ∀ cs rest, Text.dropBlanks cs = x.1 ++ rest → ends rest → Accepts Part.body item cs rest x.2)
    (hrest : ends rest) (hnone : Rejects Part.body (.sequence [separator, item]) rest) :
    Repeats (listStep Part.body item separator) (spread gap items ++ rest) rest
      (spreadLexemes mark items) := by
  induction items with
  | nil => exact Repeats.listNone hnone
  | cons x items ih =>
    simp only [List.mem_cons, forall_eq_or_imp] at hitems
    obtain ⟨⟨hsolid, hitem⟩, hmore⟩ := hitems
    have hbehind : ends (spread gap items ++ rest) := by
      cases items with
      | nil => exact hrest
      | cons y items =>
        rw [show spread gap (y :: items) ++ rest = gap ++ (y.1 ++ (spread gap items ++ rest)) by
          simp [spread]]
        exact hends _
    have hdrop : Text.dropBlanks (' ' :: (x.1 ++ (spread gap items ++ rest))) =
        x.1 ++ (spread gap items ++ rest) := dropBlanks_solid hsolid _
    have hone := Accepts.seq (hgap _) (Accepts.seqLast (hitem _ _ hdrop hbehind))
    have htext : spread gap (x :: items) ++ rest = gap ++ (x.1 ++ (spread gap items ++ rest)) := by
      simp [spread]
    rw [htext]
    refine Repeats.listMore hone ?_ (ih hmore)
    obtain ⟨c, more, hx, -⟩ := hsolid
    simp only [hx, List.length_append, List.length_cons]
    omega

/-! ## Alternatives -/

theorem reserved_or (rest : List Char) : Rejects Part.body .word (" OR ".toList ++ rest) := by
  have hscan : State.scanName (Text.dropBlanks (" OR ".toList ++ rest)) = "OR".toList := rfl
  exact Rejects.word hscan (by decide +kernel)

/-- No term goes on behind an alternative. -/
theorem rejects_unary (h : EndsLevel .conjunction rest) : Rejects Part.body unary rest := by
  cases h.1 with
  | finish => exact rejects_of_front 2 rfl (by decide)
  | close rest => exact rejects_of_front (c := some ')') 2 rfl (by decide)
  | and rest => exact absurd rfl h.2
  | or rest =>
    -- Only a path could begin with a letter, but the word is reserved.
    have hsegment : Rejects Part.body (.nonterminal .segment) (" OR ".toList ++ rest) :=
      Rejects.nonterminal (Rejects.choiceCons (rejects_of_front (c := some 'O') 2 rfl (by decide))
        (Rejects.choiceCons (Rejects.seqHead (reserved_or rest)) Rejects.choiceNil))
    have hother : ∀ rule ∈ [.sequence [Rule.symbol "(", .required (.nonterminal .filter)
        "a filter expression", .required (Rule.symbol ")") "')'"], Rule.symbol "*",
        Language.pathComparison, countTerm "DCOUNT", countTerm "COUNT"],
        Rejects Part.body rule (" OR ".toList ++ rest) := by
      intro rule hrule
      simp only [List.mem_cons, List.not_mem_nil, or_false] at hrule
      rcases hrule with rfl | rfl | rfl | rfl | rfl <;>
        exact rejects_of_front (c := some 'O') 2 rfl (by decide)
    simp only [List.forall_mem_cons] at hother
    obtain ⟨hgroup, hstar, hcomparison, hdistinct, hcount, -⟩ := hother
    refine Rejects.choiceCons (rejects_of_front (c := some 'O') 2 rfl (by decide))
      (Rejects.choiceCons ?_ Rejects.choiceNil)
    exact Rejects.choiceCons hgroup (Rejects.choiceCons hstar (Rejects.choiceCons hcomparison
      (Rejects.choiceCons hdistinct (Rejects.choiceCons hcount (Rejects.choiceCons
        (Rejects.seqHead (Rejects.seqTail Accepts.action (Rejects.seqHead hsegment)))
        Rejects.choiceNil)))))

theorem rejects_and (h : EndsLevel .conjunction rest) : Rejects Part.body
    (.sequence [.choice [.keyword "AND", .action .impliedAnd], unary]) rest := by
  have hand : Rejects Part.body (.keyword "AND") rest := by
    cases h.1 with
    | finish => exact rejects_of_front 0 rfl (by decide)
    | close rest => exact rejects_of_front (c := some ')') 0 rfl (by decide)
    | and rest => exact absurd rfl h.2
    | or rest => exact rejects_of_front (c := some 'O') 0 rfl (by decide)
  exact Rejects.seqTail (Accepts.choiceTail hand (Accepts.choiceHead Accepts.action))
    (Rejects.seqHead (rejects_unary h))

theorem rejects_or (h : EndsLevel .disjunction rest) : Rejects Part.body
    (.sequence [.choice [.keyword "OR", Rule.symbol ","], alternative]) rest := by
  refine Rejects.seqHead ?_
  cases h.1 with
  | finish => exact rejects_of_front 0 rfl (by decide)
  | close rest => exact rejects_of_front (c := some ')') 0 rfl (by decide)
  | and rest => exact absurd rfl h.2.1
  | or rest => exact absurd rfl h.2.2

/-- A text in front of anything that ends a term is contained if the first part of it is. -/
theorem Contained.append {front back : List Char} (h : Contained front)
    (hback : ∀ mid, EndsTerm (back ++ mid) ∧ Rule.front (back ++ mid) ≠ some ')') :
    Contained (front ++ back) := by
  intro mid _
  rw [List.append_assoc]
  rcases h _ (hback mid).1 with hreject | ⟨rest, l, heq, -⟩
  · exact Or.inl hreject
  · exact absurd (by rw [heq]; rfl) (hback mid).2

theorem accepts_gap {word : String} {separator : PartRule} (hword : word = "AND" ∨ word = "OR")
    (h : ∀ cs rest, Accepts Part.body (.keyword word) cs rest [(.keyword, word)] →
      Accepts Part.body separator cs rest [(.keyword, word)]) (more : List Char) :
    Accepts Part.body separator ((" " ++ word ++ " ").toList ++ more) (' ' :: more)
      [(.keyword, word)] := by
  refine h _ _ (Accepts.keyword ?_ (endsName_blank _))
  rcases hword with rfl | rfl <;> rfl

namespace IsText

variable {text : List Char} {items : List (List Char × List Lexeme)}

/-- Terms with `AND` between them. -/
theorem and (h : IsText .unary text l) (hitems : ∀ x ∈ items, IsText .unary x.1 x.2) :
    IsText .conjunction (text ++ spread " AND ".toList items)
      (l ++ spreadLexemes (.keyword, "AND") items) := by
  obtain ⟨c, more, hfirst, hblank⟩ := h.solid
  refine ⟨⟨c, more ++ spread " AND ".toList items, by rw [hfirst]; rfl, hblank⟩,
    fun cs rest hcs hrest => ?_, ?_⟩
  · rw [List.append_assoc] at hcs
    have hends : EndsTerm (spread " AND ".toList items ++ rest) := by
      cases items with
      | nil => exact hrest.1
      | cons x items =>
        rw [show spread " AND ".toList (x :: items) ++ rest =
          " AND ".toList ++ (x.1 ++ (spread " AND ".toList items ++ rest)) by simp [spread]]
        exact .and _
    exact Accepts.list (h.accepts cs _ hcs hends) (repeats_spread
      (accepts_gap (Or.inl rfl) fun _ _ => Accepts.choiceHead) EndsTerm.and
      (fun x hx => ⟨(hitems x hx).solid, (hitems x hx).accepts⟩) hrest.1 (rejects_and hrest))
  · cases items with
    | nil => simpa [spread] using h.contained
    | cons x items =>
      refine h.contained.append fun mid => ?_
      rw [show spread " AND ".toList (x :: items) ++ mid =
        " AND ".toList ++ (x.1 ++ (spread " AND ".toList items ++ mid)) by simp [spread]]
      exact ⟨.and _, by rw [show front (" AND ".toList ++ _) = some 'A' from rfl]; decide⟩

theorem endsLevel_or (more : List Char) : EndsLevel .conjunction (" OR ".toList ++ more) :=
  ⟨.or more, by rw [show front (" OR ".toList ++ more) = some 'O' from rfl]; decide⟩

/-- Alternatives with `OR` between them. -/
theorem or (h : IsText .conjunction text l) (hitems : ∀ x ∈ items, IsText .conjunction x.1 x.2) :
    IsText .disjunction (text ++ spread " OR ".toList items)
      (l ++ spreadLexemes (.keyword, "OR") items) := by
  obtain ⟨c, more, hfirst, hblank⟩ := h.solid
  refine ⟨⟨c, more ++ spread " OR ".toList items, by rw [hfirst]; rfl, hblank⟩,
    fun cs rest hcs hrest => ?_, ?_⟩
  · rw [List.append_assoc] at hcs
    have hlast : EndsLevel .conjunction rest := ⟨hrest.1, hrest.2.1⟩
    have hends : EndsLevel .conjunction (spread " OR ".toList items ++ rest) := by
      cases items with
      | nil => exact hlast
      | cons x items =>
        rw [show spread " OR ".toList (x :: items) ++ rest =
          " OR ".toList ++ (x.1 ++ (spread " OR ".toList items ++ rest)) by simp [spread]]
        exact endsLevel_or _
    exact Accepts.list (h.accepts cs _ hcs hends) (repeats_spread
      (accepts_gap (Or.inr rfl) fun _ _ => Accepts.choiceHead) endsLevel_or
      (fun x hx => ⟨(hitems x hx).solid, (hitems x hx).accepts⟩) hlast (rejects_or hrest))
  · cases items with
    | nil => simpa [spread] using h.contained
    | cons x items =>
      refine h.contained.append fun mid => ?_
      rw [show spread " OR ".toList (x :: items) ++ mid =
        " OR ".toList ++ (x.1 ++ (spread " OR ".toList items ++ mid)) by simp [spread]]
      exact ⟨.or _, by rw [show front (" OR ".toList ++ _) = some 'O' from rfl]; decide⟩

/-- A term as an alternative. -/
theorem alternative (h : IsText .unary text l) : IsText .conjunction text l := by
  simpa [spread, spreadLexemes] using @and l text [] h (by simp)

/-- An alternative as a filter. -/
theorem filter (h : IsText .conjunction text l) : IsText .disjunction text l := by
  simpa [spread, spreadLexemes] using @or l text [] h (by simp)

end IsText

/-! ## Terms -/

/-- The text is a term without negations. -/
structure IsPrimary (text : List Char) (l : List Lexeme) : Prop where
  solid : ∃ c more, text = c :: more ∧ Text.isBlank c = false
  accepts : ∀ cs rest, Text.dropBlanks cs = text ++ rest → EndsTerm rest →
    Rejects Part.body (.keyword "NOT") cs ∧ Accepts Part.body primary cs rest l
  contained : Contained text

/-- No segment of a path begins with this character. -/
theorem rejects_inside {c : Char} (hfront : front cs = some c)
    (hc : mayBegin (namesMayBegin Part.body 2) (.nonterminal .segment) (some c) = false) :
    Rejects Part.body insideQuantifier cs :=
  Rejects.seqHead (rejects_of_front 2 hfront hc)

namespace IsPrimary

variable {text : List Char}

theorem isText (h : IsPrimary text l) : IsText .unary text l := by
  refine ⟨h.solid, fun cs rest hcs hrest => ?_, h.contained⟩
  obtain ⟨hnot, haccept⟩ := h.accepts cs rest hcs hrest
  exact Accepts.choiceTail (Rejects.seqHead hnot) (Accepts.choiceHead haccept)

/-- A negated term. -/
theorem not (h : IsPrimary text l) :
    IsText .unary ("NOT ".toList ++ text) ((.keyword, "NOT") :: l) := by
  refine ⟨⟨'N', _, rfl, by decide⟩, fun cs rest hcs hrest => ?_, fun mid _ => Or.inl ?_⟩
  · have hdrop : Text.dropBlanks (' ' :: (text ++ rest)) = text ++ rest :=
      dropBlanks_solid h.solid rest
    obtain ⟨hnot, haccept⟩ := h.accepts _ rest hdrop hrest
    exact Accepts.choiceHead (Accepts.seq (Accepts.keyword hcs (endsName_blank _))
      (Accepts.seq (Accepts.manyNone hnot) (Accepts.seqLast (Accepts.required haccept))))
  · have hscan : State.scanName (Text.dropBlanks ("NOT ".toList ++ text ++ mid)) =
        "NOT".toList := rfl
    have hword : Rejects Part.body .word ("NOT ".toList ++ text ++ mid) :=
      Rejects.word hscan (by decide +kernel)
    exact Rejects.seqHead (Rejects.nonterminal (Rejects.choiceCons
      (Rejects.seqHead (Rejects.keywords rfl))
      (Rejects.choiceCons (Rejects.seqHead hword) Rejects.choiceNil)))

theorem star : IsPrimary ['*'] [(.symbol, "*")] := by
  refine ⟨⟨'*', [], rfl, by decide⟩, fun cs rest hcs _ => ⟨Rejects.keyword (by rw [hcs]; rfl), ?_⟩,
    fun mid _ => Or.inl (rejects_inside rfl (by decide))⟩
  have hopen : Rejects Part.body (Rule.symbol "(") cs := Rejects.literal (by rw [hcs]; rfl)
  exact Accepts.choiceTail (Rejects.seqHead hopen) (Accepts.choiceHead (Accepts.symbol hcs))

/-- A filter in parentheses. -/
theorem group (h : IsText .disjunction text l) :
    IsPrimary ('(' :: (text ++ [')'])) ((.symbol, "(") :: (l ++ [(.symbol, ")")])) := by
  refine ⟨⟨'(', _, rfl, by decide⟩, fun cs rest hcs _ => ?_,
    fun mid _ => Or.inl (rejects_inside rfl (by decide))⟩
  rw [List.cons_append, List.append_assoc, List.singleton_append] at hcs
  refine ⟨Rejects.keyword (by rw [hcs]; rfl), Accepts.choiceHead ?_⟩
  exact Accepts.seq (Accepts.symbol hcs)
    (Accepts.seq (Accepts.required (Accepts.nonterminal (h.isFilterText rest)))
      (Accepts.seqLast (Accepts.required (Accepts.symbol rfl))))

end IsPrimary

/-- A path with what follows it, where no other term begins. -/
theorem accepts_pathTerm (hgroup : front cs ≠ some '(') (hstar : front cs ≠ some '*')
    (hcomparison : Rejects Part.body Language.pathComparison cs)
    (hdistinct : Rejects Part.body (countTerm "DCOUNT") cs)
    (hcount : Rejects Part.body (countTerm "COUNT") cs)
    (hpath : Accepts Part.body Language.path cs mid a)
    (htail : Accepts Part.body (.optional clauseTail) mid rest b) :
    Accepts Part.body primary cs rest (a ++ b) :=
  Accepts.choiceTail (Rejects.seqHead (Rejects.literalOf '(' rfl hgroup))
    (Accepts.choiceTail (Rejects.literalOf '*' rfl hstar)
      (Accepts.choiceTail hcomparison (Accepts.choiceTail hdistinct (Accepts.choiceTail hcount
        (Accepts.choiceHead (Accepts.seq hpath (Accepts.seqLast htail)))))))

theorem IsWord.front_ne {name : String} {c : Char} (h : IsWord name)
    (hcs : Text.dropBlanks cs = name.toList ++ rest) (hc : Text.isNameStart c = false) :
    Rule.front cs ≠ some c := by
  obtain ⟨d, hd, hstart⟩ := h.front rest
  have hfront : Rule.front cs = some d := by
    rw [Rule.front, hcs, ← hd, Rule.front, h.dropBlanks]
  rw [hfront]
  rintro ⟨⟩
  rw [hc] at hstart
  cases hstart

section Paths

variable {name : String} {mark steps tail : List Char} {m s t : List Lexeme}

/-- A path that begins with a name. -/
theorem IsPrimary.namedPath (hname : IsWord name) (hmark : MarkText mark m)
    {ends : List Char → Prop} (hsteps : IsSteps ends steps s) (htail : IsTailOrNone tail t)
    (hends : ∀ rest, EndsTerm rest → ends (tail ++ rest)) :
    IsPrimary (name.toList ++ (mark ++ (steps ++ tail)))
      (pathLexemes (((.word, name) :: m) ++ s) ++ t) := by
  refine ⟨?_, fun cs rest hcs hrest => ?_, fun mid hmid => ?_⟩
  · obtain ⟨c, more, hc, hstart, -⟩ := hname.starts
    exact ⟨c, more ++ (mark ++ (steps ++ tail)), by rw [hc]; rfl,
      Text.isBlank_of_isNameStart hstart⟩
  · obtain ⟨hpath, hend⟩ := hsteps _ (hends rest hrest)
    rw [List.append_assoc, List.append_assoc, List.append_assoc] at hcs
    have hname' := hmark.endsName hend
    have hcall := (hmark.rejectsCall hend).2
    refine ⟨Rejects.reserved hcs hname hname' (capital_of rfl) (by decide), ?_⟩
    exact accepts_pathTerm (hname.front_ne hcs (by decide)) (hname.front_ne hcs (by decide))
      (Rejects.keywordsOnName hcs hname hname' (capital_of_all rfl) hcall)
      (Rejects.keywordOnName hcs hname hname' (capital_of rfl) hcall)
      (Rejects.keywordOnName hcs hname hname' (capital_of rfl) hcall)
      (Accepts.path (Accepts.nameSegment hcs hname hmark hend) hpath) (htail.accepts hrest)
  · obtain ⟨hpath, hend⟩ := hsteps _ (hends mid hmid)
    have hsegment : Accepts Part.body (.nonterminal .segment)
        (name.toList ++ (mark ++ (steps ++ tail)) ++ mid) (steps ++ (tail ++ mid))
        ((.word, name) :: m) := by
      refine Accepts.nameSegment ?_ hname hmark hend
      rw [List.append_assoc, List.append_assoc, List.append_assoc, hname.dropBlanks]
    cases htail with
    | nothing => exact inside_of_steps hsegment hpath hmid
    | test htail => exact Or.inl (inside_of_tail hsegment hpath (htail.front_ne hmid rfl))

/-- A path that begins with a quantifier around a path of its own. -/
theorem IsPrimary.quantifiedPath {q : Quantifier} {inside : List Char} {i : List Lexeme}
    (hq : q ≠ .count) (hname : IsWord name) (hmark : MarkText mark m)
    (hinside : IsSteps EndsPath inside i) (hsteps : IsSteps EndsPath steps s)
    (htail : IsTail tail t) :
    IsPrimary (q.keyword.toList ++ '(' :: (name.toList ++ (mark ++ (inside ++ ')' ::
        (steps ++ tail)))))
      (pathLexemes ((.keyword, q.keyword) :: (.marker .quantStart, "") ::
        (((.word, name) :: m) ++ (i ++ [(.marker .quantEnd, "")])) ++ s) ++ t) := by
  have hsegment (rest : List Char) (hrest : EndsTerm rest) (cs : List Char)
      (hcs : Text.dropBlanks cs = q.keyword.toList ++ '(' :: (name.toList ++ (mark ++ (inside ++
        ')' :: (steps ++ (tail ++ rest)))))) :
      Accepts Part.body (.nonterminal .segment) cs (steps ++ (tail ++ rest))
        ((.keyword, q.keyword) :: (.marker .quantStart, "") ::
          (((.word, name) :: m) ++ (i ++ [(.marker .quantEnd, "")]))) := by
    obtain ⟨hpath, hend⟩ := hinside (')' :: (steps ++ (tail ++ rest))) (EndsTerm.close _).endsPath
    exact Accepts.nonterminal (Accepts.choiceHead (Accepts.quantifiedPath hq hcs
      (Accepts.nameSegment (hname.dropBlanks _) hname hmark hend) hpath))
  have hpath (rest : List Char) (hrest : EndsTerm rest) := hsteps _ ((IsTailOrNone.test htail).endsPath hrest)
  refine ⟨?_, fun cs rest hcs hrest => ?_, fun mid hmid => Or.inl ?_⟩
  · cases q <;> exact ⟨_, _, rfl, by decide⟩
  · have hcs' : Text.dropBlanks cs = q.keyword.toList ++ '(' :: (name.toList ++ (mark ++ (inside ++
        ')' :: (steps ++ (tail ++ rest))))) := by
      rw [hcs]
      simp
    have hfront : front cs ≠ some '(' ∧ front cs ≠ some '*' := by
      rw [front, hcs']
      cases q <;> exact ⟨by rintro ⟨⟩, by rintro ⟨⟩⟩
    refine ⟨Rejects.keyword (by rw [hcs']; cases q <;> rfl), ?_⟩
    exact accepts_pathTerm hfront.1 hfront.2
      (Rejects.seqHead (Rejects.keywords (by rw [hcs']; cases q <;> rfl)))
      (Rejects.seqHead (Rejects.keyword (by rw [hcs']; cases q <;> rfl)))
      (Rejects.seqHead (Rejects.keyword (by rw [hcs']; cases q <;> first | rfl | exact absurd rfl hq)))
      (Accepts.path (hsegment rest hrest cs hcs') (hpath rest hrest).1)
      ((IsTailOrNone.test htail).accepts hrest)
  · refine inside_of_tail (hsegment mid hmid _ ?_) (hpath mid hmid).1 (htail.front_ne hmid rfl)
    have hdrop : ∀ more, Text.dropBlanks (q.keyword.toList ++ more) = q.keyword.toList ++ more := by
      intro more
      cases q <;> exact Text.dropBlanks_cons (by decide)
    simp [hdrop]

end Paths

end LinkQuery.Rule
