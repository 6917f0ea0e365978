import LinkQuery.Language.Kind
import LinkQuery.Proofs.ValueTexts
/-!
# Texts of paths

Which texts the segments and the steps of a path accept. What follows a segment decides whether it
goes on, and a quantified condition is told from a quantified path by what stands in its
parentheses.

Main statements:
- `Accepts.namedSegment`, `Accepts.quantifiedPath`: the texts of segments.
- `Accepts.nameStep`, `Accepts.whereStep`, `Accepts.conditionStep`: the texts of later steps.
- `Accepts.path`: the text of a whole path.
-/
namespace LinkQuery.Rule

open Language

variable {cs mid rest : List Char} {a b l : List Lexeme}

theorem Rejects.literalOf {ν : Type} {body : ν → Rule ν} {text : String} {logged : Bool}
    (first : Char) (htext : text.toList.head? = some first) (h : front cs ≠ some first) :
    Rejects body (.literal text logged) cs :=
  rejects_of_front 0 rfl (by simpa [mayBegin, htext] using h)

/-- A star is no name. -/
theorem Rejects.starOnName {ν : Type} {body : ν → Rule ν} {name : String}
    (h : Text.dropBlanks cs = name.toList ++ rest) (hname : IsWord name) :
    Rejects body (symbol "*") cs := by
  obtain ⟨c, hfront, hstart⟩ := hname.front rest
  have hsame : front cs = front (name.toList ++ rest) := by
    rw [front, front, h, hname.dropBlanks]
  refine Rejects.literalOf '*' rfl fun hstar => ?_
  rw [hsame, hfront] at hstar
  cases hstar
  cases hstart

/-- What is accepted is the front of the text. -/
theorem Accepts.split {ν : Type} {body : ν → Rule ν} {rule : Rule ν}
    (h : Accepts body rule cs rest l) : ∃ read, cs = read ++ rest := by
  obtain ⟨enough, h⟩ := h
  obtain ⟨read, _, hcs, -⟩ := h enough (Nat.le_refl _) _ (State.start_before cs enough)
  exact ⟨read, hcs⟩

/-! ## What follows a segment -/

/-- A segment ends here: neither its name nor a mark, a filter or a call goes on. -/
structure EndsSegment (rest : List Char) : Prop where
  name : EndsName rest
  first : front rest ∉ [some '^', some '(', some 'W', some 'w']

/-- A term ends here: at the end, in front of a closing parenthesis or of a connective. -/
inductive EndsTerm : List Char → Prop
  | finish : EndsTerm []
  | close (rest : List Char) : EndsTerm (')' :: rest)
  | and (rest : List Char) : EndsTerm (" AND ".toList ++ rest)
  | or (rest : List Char) : EndsTerm (" OR ".toList ++ rest)

theorem EndsTerm.front_mem (h : EndsTerm rest) :
    front rest ∈ [none, some ')', some 'A', some 'O'] := by
  cases h with
  | finish => exact List.mem_of_elem_eq_true rfl
  | close rest => exact List.mem_of_elem_eq_true rfl
  | and rest => exact List.mem_of_elem_eq_true rfl
  | or rest => exact List.mem_of_elem_eq_true rfl

/-- A rule that begins with nothing that can end a term. -/
theorem EndsTerm.rejects {rule : PartRule} (h : EndsTerm rest)
    (hrule : [none, some ')', some 'A', some 'O'].all
      (fun c => !mayBegin (namesMayBegin Part.body 2) rule c) = true) :
    Rejects Part.body rule rest := by
  have hone := List.all_eq_true.mp hrule _ h.front_mem
  exact rejects_of_front 2 rfl (by simpa using hone)

theorem EndsTerm.endsNumber (h : EndsTerm rest) : EndsNumber rest := by
  cases h with
  | finish => exact ⟨by rintro _ ⟨⟩, by simp⟩
  | close rest => exact endsNumber_of_front (by decide) (by decide)
  | and rest => exact endsNumber_of_front (by decide) (by decide)
  | or rest => exact endsNumber_of_front (by decide) (by decide)

theorem EndsTerm.endsSegment (h : EndsTerm rest) : EndsSegment rest := by
  refine ⟨h.endsNumber.name, ?_⟩
  have hmem := h.front_mem
  revert hmem
  generalize front rest = c
  intro hmem
  simp only [List.mem_cons, List.not_mem_nil, or_false] at hmem
  rcases hmem with rfl | rfl | rfl | rfl <;> decide

/-! ## Names and their marks -/

/-- The mark of a link that is followed repeatedly, with or without a limit. -/
inductive MarkText : List Char → List Lexeme → Prop
  | none : MarkText [] []
  | unlimited : MarkText ['^'] [(.marker .transitive, "")]
  | limited {digits : List Char} (h : IsNumber digits) :
    MarkText ('^' :: '(' :: (digits ++ [')']))
      [(.marker .transitive, ""), (.number, String.ofList digits)]

theorem EndsSegment.rejectsMark (h : EndsSegment rest) : Rejects Part.body transitiveMark rest := by
  refine Rejects.seqHead (Rejects.literalOf '^' rfl fun hmark => ?_)
  exact h.first (by simp [hmark])

theorem EndsSegment.rejectsCall (h : EndsSegment rest) :
    Rejects Part.body (Rule.hidden "(") rest ∧ Rejects Part.body (Rule.symbol "(") rest := by
  have hcall : front rest ≠ some '(' := fun hcall => h.first (by simp [hcall])
  exact ⟨Rejects.literalOf '(' rfl hcall, Rejects.literalOf '(' rfl hcall⟩

theorem EndsSegment.rejectsFilter (h : EndsSegment rest) : Rejects Part.body whereBlock rest := by
  refine rejects_of_front 0 rfl ?_
  have hfront := h.first
  revert hfront
  show _ → (front rest).any (State.sameChar true · 'W') = false
  cases front rest with
  | none => exact fun _ => rfl
  | some c =>
    intro hfront
    simp only [List.mem_cons, Option.some.injEq, List.not_mem_nil, or_false, not_or] at hfront
    have hupper : 'W'.isUpper = true := by decide
    rw [Option.any_some, sameChar_upper hupper, beq_eq_false_iff_ne]
    intro heq
    have hnat := congrArg Char.toNat heq
    rw [Text.toNat_toUpper, show 'W'.toNat = 87 from rfl] at hnat
    split at hnat
    · exact hfront.2.2.2 (Char.toNat_inj.mp (by rw [show 'w'.toNat = 119 from rfl]; omega))
    · exact hfront.2.2.1 (Char.toNat_inj.mp hnat)

theorem MarkText.endsName {mark : List Char} (h : MarkText mark l) (hrest : EndsSegment rest) :
    EndsName (mark ++ rest) := by
  cases h with
  | none => exact hrest.name
  | unlimited | limited h => exact endsName_cons (by decide) _

theorem MarkText.rejectsCall {mark : List Char} (h : MarkText mark l) (hrest : EndsSegment rest) :
    Rejects Part.body (Rule.hidden "(") (mark ++ rest) ∧
      Rejects Part.body (Rule.symbol "(") (mark ++ rest) := by
  cases h with
  | none => exact hrest.rejectsCall
  | unlimited => exact ⟨Rejects.literal rfl, Rejects.literal rfl⟩
  | limited h => exact ⟨Rejects.literal rfl, Rejects.literal rfl⟩

theorem MarkText.accepts {mark : List Char} (h : MarkText mark l) (hrest : EndsSegment rest) :
    Accepts Part.body (.optional transitiveMark) (mark ++ rest) rest l := by
  cases h with
  | none => exact Accepts.optionalNone hrest.rejectsMark
  | unlimited =>
    exact Accepts.optionalSome (Accepts.seq (Accepts.hidden rfl) (Accepts.seq Accepts.action
      (Accepts.seq (Accepts.optionalNone (Rejects.seqHead hrest.rejectsCall.1)) Accepts.seqNil)))
  | @limited digits h =>
    have hdigits : Text.dropBlanks (digits ++ [')'] ++ rest) = digits ++ ')' :: rest := by
      rw [List.append_assoc]
      exact h.isValue.solid _
    exact Accepts.optionalSome (Accepts.seq (Accepts.hidden rfl) (Accepts.seq Accepts.action
      (Accepts.seq (Accepts.optionalSome (Accepts.seq (Accepts.hidden rfl)
        (Accepts.seq (Accepts.required (Accepts.number hdigits h
          (endsNumber_of_front (by decide) (by decide))))
          (Accepts.seq (Accepts.required (Accepts.hidden rfl)) Accepts.seqNil)))) Accepts.seqNil)))

theorem capital_of {word : String} (h : word.toList.all Char.isUpper = true) : Capital word :=
  List.all_eq_true.mp h

theorem capital_of_all {words : List String}
    (h : words.all (fun word => word.toList.all Char.isUpper) = true) :
    ∀ word ∈ words, Capital word := fun word hword =>
  capital_of (List.all_eq_true.mp h word hword)

section Names

variable {name : String} {mark : List Char}
  (hcs : Text.dropBlanks cs = name.toList ++ (mark ++ rest)) (hname : IsWord name)
  (hmark : MarkText mark l) (hrest : EndsSegment rest)
include hcs hname hmark hrest

/-- A name with its mark. -/
theorem Accepts.namedSegment : Accepts Part.body Language.namedSegment cs rest
    ((.word, name) :: l) := by
  have hall : Accepts Part.body Language.namedSegment _ rest _ :=
    Accepts.seq (Accepts.word hcs hname (hmark.endsName hrest))
      (Accepts.seq (hmark.accepts hrest)
        (Accepts.seq (Accepts.manyNone hrest.rejectsFilter) Accepts.seqNil))
  simpa using hall

/-- Neither a quantified path nor a quantified condition begins with a name alone. -/
theorem Rejects.quantifiedOnName : Rejects Part.body Language.quantifiedPath cs ∧
    Rejects Part.body conditionBlock cs :=
  ⟨Rejects.keywordsOnName hcs hname (hmark.endsName hrest) (capital_of_all rfl)
      (hmark.rejectsCall hrest).1,
    Rejects.keywordsOnName hcs hname (hmark.endsName hrest) (capital_of_all rfl)
      (hmark.rejectsCall hrest).1⟩

/-- A name as the first segment of a path. -/
theorem Accepts.nameSegment : Accepts Part.body (.nonterminal .segment) cs rest
    ((.word, name) :: l) :=
  Accepts.nonterminal (Accepts.choiceTail (Rejects.quantifiedOnName hcs hname hmark hrest).1
    (Accepts.choiceHead (Accepts.namedSegment hcs hname hmark hrest)))

/-- A name as a later step of a path. -/
theorem Accepts.nameStep : Accepts Part.body (.nonterminal .step) cs rest ((.word, name) :: l) := by
  obtain ⟨hpath, hcondition⟩ := Rejects.quantifiedOnName hcs hname hmark hrest
  have hwhere : Rejects Part.body whereBlock cs :=
    Rejects.seqHead (Rejects.silent
      (Rejects.reserved hcs hname (hmark.endsName hrest) (capital_of rfl) (by decide)))
  exact Accepts.nonterminal (Accepts.choiceTail hwhere (Accepts.choiceTail (Rejects.seqHead hpath)
    (Accepts.choiceTail hcondition
      (Accepts.choiceHead (Accepts.namedSegment hcs hname hmark hrest)))))

end Names

/-! ## Steps -/

/-- The text is a filter in front of a closing parenthesis. -/
def IsFilterText (filter : List Char) (l : List Lexeme) : Prop :=
  ∀ rest, Accepts Part.body Language.filter (filter ++ ')' :: rest) (')' :: rest) l

/-- What a filter in a block says. -/
def blockLexemes (l : List Lexeme) : List Lexeme :=
  (.marker .whereStart, "") :: (l ++ [(.marker .whereEnd, "")])

/-- The filter of a link as a step. -/
theorem Accepts.whereStep {filter : List Char} (h : IsFilterText filter l) :
    Accepts Part.body (.nonterminal .step) ("WHERE(".toList ++ (filter ++ ')' :: rest)) rest
      (blockLexemes l) := by
  have hkeyword : Accepts Part.body (.keyword "WHERE") ("WHERE(".toList ++ (filter ++ ')' :: rest))
      ('(' :: (filter ++ ')' :: rest)) [(.keyword, "WHERE")] :=
    Accepts.keyword rfl (endsName_open _)
  exact Accepts.nonterminal (Accepts.choiceHead (Accepts.seq (Accepts.silent hkeyword)
    (Accepts.seq (Accepts.required (Accepts.hidden rfl)) (Accepts.seq Accepts.action
      (Accepts.seq (Accepts.required (Accepts.nonterminal (h rest))) (Accepts.seq Accepts.action
        (Accepts.seq (Accepts.required (Accepts.hidden rfl)) Accepts.seqNil)))))))

/-! ## Quantifiers -/

/-- A quantifier in front of its parenthesis. -/
theorem Accepts.quantifier {q : Quantifier} (hq : q ≠ .count)
    (hcs : Text.dropBlanks cs = q.keyword.toList ++ '(' :: rest) :
    Accepts Part.body (.keywords quantifierWords) cs ('(' :: rest) [(.keyword, q.keyword)] := by
  cases q with
  | any | all | none => exact Accepts.keywords hcs (endsName_open _) (by decide) rfl
  | count => exact absurd rfl hq

/-- The steps of a path from one text to another. -/
inductive Steps : List Char → List Char → List Lexeme → Prop
  | done {rest : List Char} (h : front rest ≠ some '.') : Steps rest rest []
  | more {cs mid rest : List Char} {a b : List Lexeme}
    (h : Accepts Part.body (.nonterminal .step) cs mid a) (hrest : Steps mid rest b) :
    Steps ('.' :: cs) rest (a ++ b)

/-- The steps of a path, each behind a point and matched by `item`. -/
theorem Steps.many {item : PartRule} (hitem : ∀ {cs rest : List Char} {l : List Lexeme},
      Accepts Part.body (.nonterminal .step) cs rest l → Accepts Part.body item cs rest l)
    (h : Steps cs rest l) : Accepts Part.body (.many (.sequence [.hidden ".", item])) cs rest l := by
  refine Accepts.many ?_
  induction h with
  | done h => exact Repeats.none (Rejects.seqHead (Rejects.literalOf '.' rfl h))
  | @more cs mid rest a b h _ ih =>
    have hone : Accepts Part.body (.sequence [.hidden ".", item]) ('.' :: cs) mid a := by
      simpa using Accepts.seq (Accepts.hidden rfl) (Accepts.seq (hitem h) Accepts.seqNil)
    obtain ⟨read, rfl⟩ := h.split
    exact Repeats.more hone (by simp only [List.length_cons, List.length_append]; omega) ih

/-- A quantifier around a path of its own. -/
theorem Accepts.quantifiedPath {q : Quantifier} {inside : List Char} (hq : q ≠ .count)
    (hcs : Text.dropBlanks cs = q.keyword.toList ++ '(' :: inside)
    (h : Accepts Part.body (.nonterminal .segment) inside mid a)
    (hsteps : Steps mid (')' :: rest) b) :
    Accepts Part.body Language.quantifiedPath cs rest
      ((.keyword, q.keyword) :: (.marker .quantStart, "") ::
        (a ++ (b ++ [(.marker .quantEnd, "")]))) := by
  have hall : Accepts Part.body Language.quantifiedPath _ rest _ :=
    Accepts.seq (Accepts.quantifier hq hcs) (Accepts.seq (Accepts.hidden rfl) (Accepts.seq
      Accepts.action (Accepts.seq h (Accepts.seq (hsteps.many id)
        (Accepts.seq (Accepts.hidden rfl) (Accepts.seq Accepts.action Accepts.seqNil))))))
  simpa using hall

/-- What stands in the parentheses of a quantified path, and their end. -/
def insideQuantifier : PartRule :=
  .sequence [.nonterminal .segment, .many (.sequence [hidden ".", .nonterminal .step]), hidden ")",
    .action .quantEnd]

/-- In front of the end of a term, the text is no path, or one that ends there. -/
def Contained (text : List Char) : Prop :=
  ∀ mid, EndsTerm mid → Rejects Part.body insideQuantifier (text ++ mid) ∨
    ∃ rest l, mid = ')' :: rest ∧ Accepts Part.body insideQuantifier (text ++ mid) rest l

/-- A path up to the end of a term ends there. -/
theorem inside_of_steps (h : Accepts Part.body (.nonterminal .segment) cs mid a)
    (hsteps : Steps mid rest b) (hrest : EndsTerm rest) :
    Rejects Part.body insideQuantifier cs ∨
      ∃ more l, rest = ')' :: more ∧ Accepts Part.body insideQuantifier cs more l := by
  by_cases hclose : front rest = some ')'
  · obtain ⟨more, rfl⟩ : ∃ more, rest = ')' :: more := by
      cases hrest with
      | close more => exact ⟨more, rfl⟩
      | finish | and _ | or _ => cases hclose
    exact Or.inr ⟨more, _, rfl, Accepts.seq h (Accepts.seq (hsteps.many id)
      (Accepts.seq (Accepts.hidden rfl) (Accepts.seq Accepts.action Accepts.seqNil)))⟩
  · exact Or.inl (Rejects.seqTail h (Rejects.seqTail (hsteps.many id)
      (Rejects.seqHead (Rejects.literalOf ')' rfl hclose))))

/-- A path in front of anything but a closing parenthesis does not end there. -/
theorem inside_of_tail (h : Accepts Part.body (.nonterminal .segment) cs mid a)
    (hsteps : Steps mid rest b) (hrest : front rest ≠ some ')') :
    Rejects Part.body insideQuantifier cs :=
  Rejects.seqTail h (Rejects.seqTail (hsteps.many id)
    (Rejects.seqHead (Rejects.literalOf ')' rfl hrest)))

/-- A quantified condition as the last step of a path. -/
theorem Accepts.conditionStep {q : Quantifier} {filter : List Char} (hq : q ≠ .count)
    (h : IsFilterText filter l) (hcontained : Contained filter) (hrest : EndsTerm rest) :
    Accepts Part.body (.nonterminal .step) (q.keyword.toList ++ '(' :: (filter ++ ')' :: rest)) rest
      ((.keyword, q.keyword) :: blockLexemes l) := by
  have hdrop : Text.dropBlanks (q.keyword.toList ++ '(' :: (filter ++ ')' :: rest)) =
      q.keyword.toList ++ '(' :: (filter ++ ')' :: rest) := by
    cases q <;> exact Text.dropBlanks_cons (by decide)
  have hwhere : Rejects Part.body whereBlock (q.keyword.toList ++ '(' :: (filter ++ ')' :: rest)) := by
    refine Rejects.seqHead (Rejects.silent (Rejects.keyword ?_))
    cases q <;> rfl
  -- The text in the parentheses may be a path, but nothing that goes on from it follows.
  have hpath : Rejects Part.body (.sequence [Language.quantifiedPath, ahead quantifiedPathEnd])
      (q.keyword.toList ++ '(' :: (filter ++ ')' :: rest)) := by
    rcases hcontained (')' :: rest) (.close rest) with hinside | ⟨_, inside, ⟨⟩, hinside⟩
    · exact Rejects.seqHead (Rejects.seqTail (Accepts.quantifier hq hdrop)
        (Rejects.seqTail (Accepts.hidden rfl) (Rejects.seqTail Accepts.action hinside)))
    · exact Rejects.seqTail (Accepts.seq (Accepts.quantifier hq hdrop)
        (Accepts.seq (Accepts.hidden rfl) (Accepts.seq Accepts.action hinside)))
        (Rejects.seqHead (Rejects.ahead (hrest.rejects (by decide))))
  have hcondition : Accepts Part.body conditionBlock
      (q.keyword.toList ++ '(' :: (filter ++ ')' :: rest)) rest _ :=
    Accepts.seq (Accepts.quantifier hq hdrop) (Accepts.seq (Accepts.hidden rfl)
      (Accepts.seq Accepts.action (Accepts.seq (Accepts.nonterminal (h rest))
        (Accepts.seq Accepts.action
          (Accepts.seq (Accepts.required (Accepts.hidden rfl)) Accepts.seqNil)))))
  simpa [blockLexemes] using Accepts.nonterminal
    (Accepts.choiceTail hwhere (Accepts.choiceTail hpath (Accepts.choiceHead hcondition)))

/-! ## Paths -/

/-- What a path says. -/
def pathLexemes (l : List Lexeme) : List Lexeme :=
  (.marker .pathStart, "") :: (l ++ [(.marker .pathEnd, "")])

/-- A path up to where its steps end. -/
theorem Accepts.path (h : Accepts Part.body (.nonterminal .segment) cs mid a)
    (hsteps : Steps mid rest b) : Accepts Part.body Language.path cs rest (pathLexemes (a ++ b)) := by
  have hall : Accepts Part.body Language.path cs rest _ :=
    Accepts.seq Accepts.action (Accepts.seq h (Accepts.seq (hsteps.many Accepts.required)
      (Accepts.seq Accepts.action Accepts.seqNil)))
  simpa [pathLexemes] using hall

end LinkQuery.Rule
