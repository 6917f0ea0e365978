import LinkQuery.Proofs.FilterTexts
/-!
# Texts of calls

The texts of the terms that begin with a keyword in front of a parenthesis: counts along a path and
comparisons of two paths. Such a text is never taken for a path in the parentheses of a quantifier,
since the name that its keyword could be ends in front of a parenthesis.

Main statements:
- `IsPrimary.count`: a count of links, of values or of distinct values.
- `IsPrimary.comparison`: a comparison of two paths.
-/
namespace LinkQuery.Rule

open Language

variable {cs mid rest : List Char} {a b l m s : List Lexeme} {word name : String}
  {mark steps text : List Char}

/-! ## Paths in parentheses -/

/-- The text is a path in front of anything that ends one. -/
structure IsPath (text : List Char) (l : List Lexeme) : Prop where
  solid : ∃ c more, text = c :: more ∧ Text.isBlank c = false
  accepts : ∀ cs rest, Text.dropBlanks cs = text ++ rest → EndsPath rest →
    Accepts Part.body Language.path cs rest (pathLexemes l)

theorem IsPath.dropBlanks (h : IsPath text l) (rest : List Char) :
    Text.dropBlanks (text ++ rest) = text ++ rest :=
  dropBlanks_solid h.solid rest

/-- A name with its mark and further steps. -/
theorem IsPath.named (hname : IsWord name) (hmark : MarkText mark m)
    (hsteps : IsSteps EndsPath steps s) :
    IsPath (name.toList ++ (mark ++ steps)) ((.word, name) :: m ++ s) := by
  constructor
  · obtain ⟨c, more, hc, hstart, -⟩ := hname.starts
    exact ⟨c, more ++ (mark ++ steps), by rw [hc]; rfl, Text.isBlank_of_isNameStart hstart⟩
  · intro cs rest hcs hrest
    obtain ⟨hpath, hend⟩ := hsteps rest hrest
    rw [List.append_assoc, List.append_assoc] at hcs
    exact Accepts.path (Accepts.nameSegment hcs hname hmark hend) hpath

theorem endsPath_comma (rest : List Char) : EndsPath (',' :: rest) := by
  have hfront : front (',' :: rest) = some ',' := rfl
  refine ⟨⟨endsName_cons (by decide) rest, ?_⟩, ?_⟩
  · rw [hfront]
    decide
  · rw [hfront]
    decide

/-! ## Keywords of calls -/

/-- The keywords of calls, which stand in front of a parenthesis. -/
def callWords : List String :=
  "COUNT" :: "DCOUNT" :: pathOperatorWords

/-- In front of a parenthesis the keyword of a call could be the name of a segment. -/
theorem segment_of_callWord (hword : word ∈ callWords) (more : List Char) :
    Accepts Part.body (.nonterminal .segment) (word.toList ++ '(' :: more) ('(' :: more)
      [(.word, word)] := by
  have hopen : front ('(' :: more) = some '(' := rfl
  have hname : IsWord word ∧ quantifierWords.all (fun quantifier =>
      !State.startsWith true (Text.dropBlanks (word.toList ++ '(' :: more)) quantifier.toList) =
        true := by
    simp only [callWords, pathOperatorWords, List.mem_cons, List.not_mem_nil, or_false] at hword
    rcases hword with rfl | rfl | rfl | rfl | rfl | rfl | rfl <;>
      exact ⟨⟨by decide, by decide, by decide +kernel⟩, rfl⟩
  obtain ⟨hname, hquantifier⟩ := hname
  have hend : EndsName ('(' :: more) := endsName_open more
  have hmark : Rejects Part.body transitiveMark ('(' :: more) :=
    Rejects.seqHead (Rejects.literalOf '^' rfl (by rw [hopen]; decide))
  have hfilter : Rejects Part.body whereBlock ('(' :: more) :=
    rejects_of_front 0 rfl (by rw [hopen]; decide)
  have hall : Accepts Part.body Language.namedSegment _ _ _ :=
    Accepts.seq (Accepts.word (hname.dropBlanks _) hname hend)
      (Accepts.seq (Accepts.optionalNone hmark)
        (Accepts.seq (Accepts.manyNone hfilter) Accepts.seqNil))
  exact Accepts.nonterminal (Accepts.choiceTail (Rejects.seqHead (Rejects.keywords hquantifier))
    (Accepts.choiceHead hall))

/-- A call is no path in the parentheses of a quantifier. -/
theorem contained_call (hword : word ∈ callWords) (more : List Char) :
    Contained (word.toList ++ '(' :: more) := by
  intro mid _
  rw [List.append_assoc, List.cons_append]
  have hopen : front ('(' :: (more ++ mid)) = some '(' := rfl
  exact Or.inl (inside_of_tail (segment_of_callWord hword _) (.done (by rw [hopen]; decide))
    (by rw [hopen]; decide))

/-- The keyword of a call begins neither a negation nor a term of another kind. -/
theorem callWord_begins (hword : word ∈ callWords)
    (hcs : Text.dropBlanks cs = word.toList ++ '(' :: text) :
    Rejects Part.body (.keyword "NOT") cs ∧ front cs ≠ some '(' ∧ front cs ≠ some '*' := by
  simp only [callWords, pathOperatorWords, List.mem_cons, List.not_mem_nil, or_false] at hword
  rcases hword with rfl | rfl | rfl | rfl | rfl | rfl | rfl <;>
    refine ⟨Rejects.keyword (by rw [hcs]; rfl), ?_, ?_⟩ <;> rw [front, hcs] <;> rintro ⟨⟩

/-! ## Counts -/

/-- The text of an operator and what a count is compared with, behind a blank. -/
structure IsCountTest (text : List Char) (l : List Lexeme) : Prop where
  accepts : ∀ rest, EndsTerm rest →
    Accepts Part.body (.sequence [.required compareOp "a comparison operator",
      .required (.choice [range, .number]) "a count or a range"]) (text ++ rest) rest l

/-- An operator and what is accepted as a count. -/
theorem IsCountTest.compare {op : CompareOp} {value : List Char}
    (hsolid : ∃ c more, value = c :: more ∧ Text.isBlank c = false)
    (h : ∀ cs rest, Text.dropBlanks cs = value ++ rest → EndsTerm rest →
      Accepts Part.body countValue cs rest l) :
    IsCountTest (' ' :: (op.symbol.toList ++ ' ' :: value)) ((.symbol, op.symbol) :: l) := by
  refine ⟨fun rest hrest => ?_⟩
  have hop : Accepts Part.body compareOp (' ' :: (op.symbol.toList ++ ' ' :: value) ++ rest)
      (' ' :: value ++ rest) [(.symbol, op.symbol)] := by
    refine CompareOp.accepts op ?_ (by simp)
    cases op <;> rfl
  exact Accepts.seq (Accepts.required hop) (Accepts.seqLast (Accepts.required
    (h _ rest (dropBlanks_solid hsolid rest) hrest)))

/-- A count along a path, by its keyword. -/
theorem IsPrimary.count {test : List Char} {t : List Lexeme} (hword : word = "COUNT" ∨ word = "DCOUNT")
    (hpath : IsPath text l) (htest : IsCountTest test t) :
    IsPrimary (word.toList ++ '(' :: (text ++ ')' :: test))
      ((.keyword, word) :: (.symbol, "(") :: (pathLexemes l ++ (.symbol, ")") :: t)) := by
  have hcall : word ∈ callWords := by
    rcases hword with rfl | rfl <;> simp [callWords]
  refine ⟨?_, fun cs rest hcs hrest => ?_, contained_call hcall _⟩
  · rcases hword with rfl | rfl <;> exact ⟨_, _, rfl, by decide⟩
  · have hcs' : Text.dropBlanks cs = word.toList ++ '(' :: (text ++ (')' :: (test ++ rest))) := by
      rw [hcs]
      simp
    obtain ⟨hnot, hgroup, hstar⟩ := callWord_begins hcall hcs'
    refine ⟨hnot, ?_⟩
    have hcount : Accepts Part.body (countTerm word) cs rest _ :=
      Accepts.seq (Accepts.keyword hcs' (endsName_open _)) (Accepts.seq (Accepts.symbol rfl)
        (Accepts.seq (Accepts.required (hpath.accepts _ _ (hpath.dropBlanks _)
            (EndsTerm.close _).endsPath))
          (Accepts.seq (Accepts.required (Accepts.symbol rfl)) (htest.accepts rest hrest))))
    have hcomparison : Rejects Part.body Language.pathComparison cs :=
      Rejects.seqHead (Rejects.keywords (by rw [hcs']; rcases hword with rfl | rfl <;> rfl))
    refine Accepts.choiceTail (Rejects.seqHead (Rejects.literalOf '(' rfl hgroup))
      (Accepts.choiceTail (Rejects.literalOf '*' rfl hstar) (Accepts.choiceTail hcomparison ?_))
    rcases hword with rfl | rfl
    · exact Accepts.choiceTail (Rejects.seqHead (Rejects.keyword (by rw [hcs']; rfl)))
        (Accepts.choiceHead (by simpa using hcount))
    · exact Accepts.choiceHead (by simpa using hcount)

/-! ## Comparisons of paths -/

/-- The keyword of an operator between paths. -/
theorem Accepts.pathOperator (op : PathOp)
    (hcs : Text.dropBlanks cs = op.keyword.toList ++ '(' :: text) :
    Accepts Part.body (.keywords pathOperatorWords) cs ('(' :: text) [(.keyword, op.keyword)] := by
  refine Accepts.keywords hcs (endsName_open _) ?_ ?_
  · cases op <;> decide
  · cases op <;> rfl

/-- A comparison of two paths. -/
theorem IsPrimary.comparison {op : PathOp} {left right : List Char} (hleft : IsPath left a)
    (hright : IsPath right b) :
    IsPrimary (op.keyword.toList ++ '(' :: (left ++ ',' :: ' ' :: (right ++ [')'])))
      ((.keyword, op.keyword) :: (.symbol, "(") ::
        (pathLexemes a ++ (.symbol, ",") :: (pathLexemes b ++ [(.symbol, ")")]))) := by
  have hcall : op.keyword ∈ callWords := by
    cases op <;> decide
  refine ⟨?_, fun cs rest hcs hrest => ?_, contained_call hcall _⟩
  · cases op <;> exact ⟨_, _, rfl, by decide⟩
  · have hcs' : Text.dropBlanks cs =
        op.keyword.toList ++ '(' :: (left ++ ',' :: (' ' :: (right ++ ')' :: rest))) := by
      rw [hcs]
      simp
    obtain ⟨hnot, hgroup, hstar⟩ := callWord_begins hcall hcs'
    have hall : Accepts Part.body Language.pathComparison cs rest _ :=
      Accepts.seq (Accepts.pathOperator op hcs') (Accepts.seq (Accepts.symbol rfl)
        (Accepts.seq (Accepts.required (hleft.accepts _ _ (hleft.dropBlanks _) (endsPath_comma _)))
          (Accepts.seq (Accepts.required (Accepts.symbol rfl))
            (Accepts.seq (Accepts.required (hright.accepts _ _ (hright.dropBlanks _)
                (EndsTerm.close _).endsPath))
              (Accepts.seq (Accepts.required (Accepts.symbol rfl)) Accepts.seqNil)))))
    refine ⟨hnot, Accepts.choiceTail (Rejects.seqHead (Rejects.literalOf '(' rfl hgroup))
      (Accepts.choiceTail (Rejects.literalOf '*' rfl hstar) (Accepts.choiceHead ?_))⟩
    simpa using hall

end LinkQuery.Rule
