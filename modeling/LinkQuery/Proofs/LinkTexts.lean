import LinkQuery.Proofs.EnclosedFilters
/-!
# Links with a filter

A link with one filter is a field set and a grouping. The whole text is accepted with the log of the
filter in its block, or the match halts where the block does.

Main statements:
- `Rule.Accepts.linkField`, `Rule.Halts.linkField`: the link as a field set.
- `Rule.Accepts.linkGrouping`, `Rule.Halts.linkGrouping`: the link as a grouping.
-/
namespace LinkQuery.Rule

open Language

/-- At its end, a text is rejected by every rule that has to begin with a character. -/
theorem rejects_end {rule : PartRule} (h : mayBegin (namesMayBegin Part.body 2) rule none = false) :
    Rejects Part.body rule [] :=
  rejects_of_front 2 rfl h

theorem endsName_of_front {c : Char} {more : List Char} (h : Text.isNameChar c = false) :
    EndsName (c :: more) := by
  rintro _ ⟨⟩
  exact h

variable {link : String} {block mid : List Char} {l : List Lexeme} (hlink : IsWord link)
include hlink

/-! ## Field sets -/

theorem Accepts.linkField (h : Accepts Part.body Language.whereBlock block [] l) :
    Accepts Part.body ExpressionKind.fieldSet.rule (link.toList ++ '.' :: block) []
      ((.word, link) :: l) := by
  have hblock : Accepts Part.body (.sequence [Rule.hidden ".", Language.whereBlock]) ('.' :: block)
      [] l := by
    simpa using Accepts.seq (Accepts.hidden rfl) (Accepts.seq h Accepts.seqNil)
  have hblocks : Accepts Part.body (.many (.sequence [Rule.hidden ".", Language.whereBlock]))
      ('.' :: block) [] (l ++ []) :=
    Accepts.many (Repeats.more hblock (by simp) (Repeats.none (rejects_end (by decide))))
  have hstar : Rejects Part.body (Rule.symbol "*") (link.toList ++ '.' :: block) :=
    Rejects.starOnName (hlink.dropBlanks _) hlink
  have hitem : Accepts Part.body (.nonterminal .fieldItem) (link.toList ++ '.' :: block) [] _ :=
    Accepts.nonterminal (Accepts.choiceTail hstar (Accepts.choiceHead
      (Accepts.seq (Accepts.word (hlink.dropBlanks _) hlink (endsName_of_front (by decide)))
        (Accepts.seq (Accepts.optionalNone (Rejects.seqHead (Rejects.literal rfl)))
          (Accepts.seq hblocks
            (Accepts.seq (Accepts.optionalNone (rejects_end (by decide))) Accepts.seqNil))))))
  have hall : Accepts Part.body ExpressionKind.fieldSet.rule (link.toList ++ '.' :: block) [] _ :=
    Accepts.nonterminal (Accepts.list hitem (Repeats.listNone (rejects_end (by decide))))
  simpa using hall

theorem Halts.linkField (h : Halts Part.body Language.whereBlock block) :
    Halts Part.body ExpressionKind.fieldSet.rule (link.toList ++ '.' :: block) :=
  Halts.nonterminal (Halts.list (Halts.nonterminal
    (Halts.choiceTail (Rejects.starOnName (hlink.dropBlanks _) hlink) (Halts.choiceHead
      (Halts.seqTail (Accepts.word (hlink.dropBlanks _) hlink (endsName_of_front (by decide)))
        (Halts.seqTail (Accepts.optionalNone (Rejects.seqHead (Rejects.literal rfl)))
          (Halts.seqHead (Halts.many
            (Halts.seqTail (Accepts.hidden rfl) (Halts.seqHead h))))))))))

/-! ## Groupings -/

section Groupings

variable (hmid : EndsName mid) (hfront : front mid = some 'W')
include hmid hfront

/-- No call begins with a name that a filter follows. -/
theorem rejects_callOnName : Rejects Part.body Language.selection (link.toList ++ mid) ∧
    Rejects Part.body Language.truncation (link.toList ++ mid) ∧
    Rejects Part.body Language.terms (link.toList ++ mid) ∧
    Rejects Part.body Language.quantifiedPath (link.toList ++ mid) := by
  have hdrop := hlink.dropBlanks mid
  have hopen : ∀ logged, Rejects Part.body (.literal "(" logged) mid := fun logged =>
    Rejects.literalOf '(' rfl (by simp [hfront])
  exact ⟨Rejects.keywordsOnName hdrop hlink hmid (capital_of_all rfl) (hopen true),
    Rejects.keywordOnName hdrop hlink hmid (capital_of rfl) (hopen true),
    Rejects.keywordOnName hdrop hlink hmid (capital_of rfl) (hopen true),
    Rejects.keywordsOnName hdrop hlink hmid (capital_of_all rfl) (hopen false)⟩

theorem Accepts.linkPath (h : Accepts Part.body Language.whereBlock mid [] l) :
    Accepts Part.body Language.modifiablePath (link.toList ++ mid) []
      (pathLexemes ((.word, link) :: l)) := by
  have hmark : Rejects Part.body transitiveMark mid :=
    Rejects.seqHead (Rejects.literalOf '^' rfl (by simp [hfront]))
  have hblocks : Accepts Part.body (.many Language.whereBlock) mid [] (l ++ []) := by
    refine Accepts.many (Repeats.more h ?_ (Repeats.none (rejects_end (by decide))))
    cases mid with
    | nil => cases hfront
    | cons c mid => simp
  have hsegment : Accepts Part.body (.nonterminal .segment) (link.toList ++ mid) [] _ :=
    Accepts.nonterminal (Accepts.choiceTail (rejects_callOnName hlink hmid hfront).2.2.2
      (Accepts.choiceHead (Accepts.seq (Accepts.word (hlink.dropBlanks mid) hlink hmid)
        (Accepts.seq (Accepts.optionalNone hmark) (Accepts.seq hblocks Accepts.seqNil)))))
  have hmodifier : Rejects Part.body (.sequence [Rule.hidden ".", .keywords modifierWords,
      Rule.hidden "("]) [] := rejects_end (by decide)
  have hall : Accepts Part.body Language.modifiablePath (link.toList ++ mid) [] _ :=
    Accepts.seq Accepts.action (Accepts.seq hsegment (Accepts.seq
      (Accepts.manyNone (Rejects.seqTail (Accepts.without hmodifier) (rejects_end (by decide))))
      (Accepts.seq Accepts.action Accepts.seqNil)))
  simpa [pathLexemes] using hall

theorem Halts.linkPath (h : Halts Part.body Language.whereBlock mid) :
    Halts Part.body Language.modifiablePath (link.toList ++ mid) := by
  have hmark : Rejects Part.body transitiveMark mid :=
    Rejects.seqHead (Rejects.literalOf '^' rfl (by simp [hfront]))
  exact Halts.seqTail Accepts.action (Halts.seqHead (Halts.nonterminal
    (Halts.choiceTail (rejects_callOnName hlink hmid hfront).2.2.2 (Halts.choiceHead
      (Halts.seqTail (Accepts.word (hlink.dropBlanks mid) hlink hmid)
        (Halts.seqTail (Accepts.optionalNone hmark) (Halts.seqHead h.many)))))))

theorem rejects_groupOnName {rules : List PartRule} :
    Rejects Part.body (.sequence (.keyword "GROUP" :: symbol "(" :: rules)) (link.toList ++ mid) :=
  Rejects.keywordOnName (hlink.dropBlanks mid) hlink hmid (capital_of rfl)
    (Rejects.literalOf '(' rfl (by simp [hfront]))

theorem Accepts.linkGrouping (h : Accepts Part.body Language.whereBlock mid [] l) :
    Accepts Part.body ExpressionKind.aggregationGroup.rule (link.toList ++ mid) []
      (pathLexemes ((.word, link) :: l)) := by
  obtain ⟨hselection, htruncation, hterms, -⟩ := rejects_callOnName hlink hmid hfront
  have hitem : Accepts Part.body (.nonterminal .groupItem) (link.toList ++ mid) [] _ :=
    Accepts.nonterminal (Accepts.choiceTail hselection (Accepts.choiceTail htruncation
      (Accepts.choiceTail hterms (Accepts.choiceHead (Accepts.seq
        (Accepts.linkPath hlink hmid hfront h)
        (Accepts.seq (Accepts.manyNone (rejects_end (by decide))) Accepts.seqNil))))))
  have hall : Accepts Part.body ExpressionKind.aggregationGroup.rule (link.toList ++ mid) [] _ :=
    Accepts.list (Accepts.choiceTail (rejects_groupOnName hlink hmid hfront)
      (Accepts.choiceHead hitem)) (Repeats.listNone (rejects_end (by decide)))
  simpa using hall

theorem Halts.linkGrouping (h : Halts Part.body Language.whereBlock mid) :
    Halts Part.body ExpressionKind.aggregationGroup.rule (link.toList ++ mid) := by
  obtain ⟨hselection, htruncation, hterms, -⟩ := rejects_callOnName hlink hmid hfront
  exact Halts.list (Halts.choiceTail (rejects_groupOnName hlink hmid hfront)
    (Halts.choiceHead (Halts.nonterminal (Halts.choiceTail hselection
      (Halts.choiceTail htruncation (Halts.choiceTail hterms
        (Halts.choiceHead (Halts.seqHead (Halts.linkPath hlink hmid hfront h)))))))))

end Groupings

end LinkQuery.Rule
