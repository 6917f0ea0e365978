import LinkQuery.Proofs.CallTexts
import LinkQuery.Proofs.QuantifierForms
import LinkQuery.Proofs.Rereading
import LinkQuery.Query.Printer
import Mathlib.Data.List.Induction
/-!
# Texts that say trees

A text that the grammar accepts as a part of a filter, together with the tree that its lexemes say.
Texts are joined as trees are, and the texts of single tests, links and counts say their nodes.

Main statements:
- `Prints.not`, `Prints.group`, `Prints.and`, `Prints.or`: the combinations.
- `Prints.named`, `Prints.quantified`, `Prints.counted`: terms that begin with a path.
- `Prints.link`, `Prints.repeated`, `Prints.linkCount`: the texts of links.
-/
namespace LinkQuery

open Rule

/-- A name alone says the path to it. -/
theorem Path.Spelled.word (name : String) : Spelled [(.word, name)] ⟨.named name 0, []⟩ :=
  ⟨Goes.word name⟩

namespace Filter

/-- The text is a part of a filter of a level, and it says the tree. -/
def Prints (scope : Scope) (table : String) (level : Level) (text : List Char) (q : Query) : Prop :=
  ∃ l, IsText level text l ∧ Says scope table level l (.ok q)

variable {scope : Scope} {table : String} {level : Level} {text : List Char} {q first : Query}

/-! ## Joined trees -/

/-- Parts of a filter that are joined from left to right say what all of them combine to. -/
theorem Says.joined {combine : List Query → Query} {inner outer : Level} {word : String}
    {ok : Query → Prop} {lexemes : List Char × Query → List Lexeme}
    (hstep : ∀ {a b : List Lexeme} {v w : Query}, Says scope table outer a (.ok v) →
      Says scope table inner b (.ok w) →
      Says scope table outer (a ++ (.keyword, word) :: b) (.ok (combine [v, w])))
    (hconcat : ∀ {parts : List Query} (last : Query), (∀ part ∈ parts, ok part) →
      combine [combine parts, last] = combine (parts ++ [last]))
    (hsingle : combine [first] = first) (hfirst : ok first) {l : List Lexeme}
    (h : Says scope table outer l (.ok first)) {items : List (List Char × Query)}
    (hitems : ∀ x ∈ items, Says scope table inner (lexemes x) (.ok x.2) ∧ ok x.2) :
    Says scope table outer
      (l ++ spreadLexemes (.keyword, word) (items.map fun x => (x.1, lexemes x)))
      (.ok (combine (first :: items.map (·.2)))) := by
  induction items using List.reverseRecOn with
  | nil => simpa [spreadLexemes, hsingle] using h
  | append_singleton items last ih =>
    simp only [List.forall_mem_append, List.forall_mem_singleton] at hitems
    have hparts : ∀ part ∈ first :: items.map (·.2), ok part := by
      rw [List.forall_mem_cons]
      exact ⟨hfirst, List.forall_mem_map.mpr fun x hx => (hitems.1 x hx).2⟩
    have hall := hstep (ih hitems.1) hitems.2.1
    rw [hconcat _ hparts] at hall
    simpa [spreadLexemes] using hall

theorem spread_map (gap : List Char) (lexemes : List Char × Query → List Lexeme)
    (items : List (List Char × Query)) :
    spread gap (items.map fun x => (x.1, lexemes x)) = items.flatMap fun x => gap ++ x.1 := by
  rw [spread, List.flatMap_map]

namespace Prints

theorem alternative (h : Prints scope table .unary text q) : Prints scope table .conjunction text q :=
  h.imp fun _ hl => ⟨hl.1.alternative, hl.2.conjunction⟩

theorem filter (h : Prints scope table .conjunction text q) :
    Prints scope table .disjunction text q :=
  h.imp fun _ hl => ⟨hl.1.filter, hl.2.disjunction⟩

/-- What a text says is well formed, since it is what is built from a log of the grammar. -/
theorem wellFormed (h : Prints scope table .disjunction text q) :
    q.WellFormed scope.schema (fun _ => True) table := by
  obtain ⟨l, htext, hsays⟩ := h
  exact (buildIn_yields scope.clock.shows_any htext.isFilterText.filterLog).of_ok hsays.build

/-- A filter in parentheses. -/
theorem group (h : Prints scope table .disjunction text q) :
    Prints scope table .unary ('(' :: (text ++ [')'])) q := by
  obtain ⟨l, htext, hsays⟩ := h
  exact ⟨_, (IsPrimary.group htext).isText, hsays.group⟩

/-- A negated filter in parentheses. -/
theorem not (h : Prints scope table .disjunction text q) :
    Prints scope table .unary ("NOT ".toList ++ '(' :: (text ++ [')'])) (Query.not q) := by
  obtain ⟨l, htext, hsays⟩ := h
  exact ⟨_, (IsPrimary.group htext).not, hsays.group.not⟩

theorem everything : Prints scope table .unary ['*'] .everything :=
  ⟨_, IsPrimary.star.isText, Says.star⟩

theorem nothing : Prints scope table .unary "NOT *".toList .nothing :=
  ⟨_, IsPrimary.star.not, Says.star.not⟩

/-- Terms with `AND` between them. -/
theorem and {items : List (List Char × Query)} (h : Prints scope table .unary text first)
    (hitems : ∀ x ∈ items, Prints scope table .unary x.1 x.2) :
    Prints scope table .conjunction (text ++ items.flatMap fun x => " AND ".toList ++ x.1)
      (Query.and (first :: items.map (·.2))) := by
  obtain ⟨l, htext, hsays⟩ := id h
  choose! lexemes hlexemes using hitems
  have hwell : ∀ x ∈ items, x.2.WellFormed scope.schema (fun _ => True) table := fun x hx =>
    Prints.wellFormed (Prints.filter (Prints.alternative ⟨_, hlexemes x hx⟩))
  have hfirst := h.alternative.filter.wellFormed
  have htexts : ∀ x ∈ items.map fun x => (x.1, lexemes x),
      IsText .unary x.1 x.2 :=
    List.forall_mem_map.mpr fun x hx => (hlexemes x hx).1
  have htext := htext.and htexts
  rw [spread_map] at htext
  exact ⟨_, htext, Says.joined (fun hv hw => hv.and hw) (fun last hparts => Query.and_concat hparts last)
      (Query.and_singleton hfirst) hfirst hsays.conjunction
      fun x hx => ⟨(hlexemes x hx).2, hwell x hx⟩⟩

/-- Alternatives with `OR` between them. -/
theorem or {items : List (List Char × Query)} (h : Prints scope table .conjunction text first)
    (hitems : ∀ x ∈ items, Prints scope table .conjunction x.1 x.2) :
    Prints scope table .disjunction (text ++ items.flatMap fun x => " OR ".toList ++ x.1)
      (Query.or (first :: items.map (·.2))) := by
  obtain ⟨l, htext, hsays⟩ := id h
  choose! lexemes hlexemes using hitems
  have hwell : ∀ x ∈ items, x.2.WellFormed scope.schema (fun _ => True) table := fun x hx =>
    Prints.wellFormed (Prints.filter ⟨_, hlexemes x hx⟩)
  have hfirst := h.filter.wellFormed
  have htexts : ∀ x ∈ items.map fun x => (x.1, lexemes x),
      IsText .conjunction x.1 x.2 :=
    List.forall_mem_map.mpr fun x hx => (hlexemes x hx).1
  have htext := htext.or htexts
  rw [spread_map] at htext
  exact ⟨_, htext, Says.joined (fun hv hw => hv.or hw) (fun last hparts => Query.or_concat hparts last)
      (Query.or_singleton hfirst) hfirst hsays.disjunction
      fun x hx => ⟨(hlexemes x hx).2, hwell x hx⟩⟩

end Prints

/-! ## Paths -/

namespace Prints

section Paths

variable {name word : String} {mark steps tail path : List Char} {m s t l a b : List Lexeme}
  {es : List Element} {found : Tail} {count : CountTest} {p left right : Path} {op : PathOp}
  {quantifier : Quantifier}

/-- A path that begins with a name, and what stands behind it. -/
theorem named (hname : IsWord name) (hmark : MarkText mark m) {ends : List Char → Prop}
    (hsteps : IsSteps ends steps s) (htail : IsTailOrNone tail t)
    (hends : ∀ rest, EndsTerm rest → ends (tail ++ rest))
    (hpath : p.Spelled ((.word, name) :: m ++ s)) (hspoken : Spoken scope.clock t es (.ok found))
    (hterm : termQuery scope (buildIn scope) table p found = .ok q) :
    Prints scope table .unary (name.toList ++ (mark ++ (steps ++ tail))) q := by
  refine ⟨_, (IsPrimary.namedPath hname hmark hsteps htail hends).isText, ?_⟩
  rw [← hterm]
  exact Says.pathTerm hpath hspoken.balanced hspoken.adds hspoken.reads

/-- A name and the test behind it. -/
theorem tested (hname : IsWord name) (htail : IsTail tail t)
    (hspoken : Spoken scope.clock t es (.ok found))
    (hterm : termQuery scope (buildIn scope) table ⟨.named name 0, []⟩ found = .ok q) :
    Prints scope table .unary (name.toList ++ tail) q :=
  named hname .none IsSteps.nil (.test htail)
    (fun _ hrest => (IsTailOrNone.test htail).endsPath hrest) (Path.Spelled.word name) hspoken hterm

/-- A quantifier around a name, and what stands behind it. -/
theorem quantified (hq : quantifier ≠ .count) (hname : IsWord name) (htail : IsTail tail t)
    (hspoken : Spoken scope.clock t es (.ok found))
    (hterm : termQuery scope (buildIn scope) table
      ⟨(Segment.named name 0).quantifiedBy quantifier, []⟩ found = .ok q) :
    Prints scope table .unary (quantifier.keyword.toList ++ '(' :: (name.toList ++ ')' :: tail)) q := by
  have htext := IsPrimary.quantifiedPath hq hname .none IsSteps.nil IsSteps.nil htail
  have hpath : Path.Spelled _ ⟨(Segment.named name 0).quantifiedBy quantifier, []⟩ :=
    ⟨Path.Goes.quantified (q := quantifier) (Path.Goes.word name)⟩
  have hsays := @Says.pathTerm scope table _ _ _ _ _ hpath hspoken.balanced hspoken.adds hspoken.reads
  rw [show (.ok found >>= fun found => termQuery scope (buildIn scope) table _ found) = .ok q from
    hterm] at hsays
  exact ⟨_, by simpa using htext.isText, by simpa using hsays⟩

/-- A count along a path. -/
theorem counted (hpath : IsPath path l) (hspelled : p.Spelled l) (htest : IsCountTest tail t)
    (hspoken : CountSpoken scope.clock t es count)
    (hterm : termQuery scope (buildIn scope) table p (.count count) = .ok q) :
    Prints scope table .unary ("COUNT".toList ++ '(' :: (path ++ ')' :: tail)) q := by
  refine ⟨_, (IsPrimary.count (.inl rfl) hpath htest).isText, ?_⟩
  rw [← hterm]
  exact Says.countTerm hspelled hspoken.balanced hspoken.adds hspoken.reads

/-- A count of distinct values at the end of a path. -/
theorem distinct (hpath : IsPath path l) (hspelled : p.Spelled l) (htest : IsCountTest tail t)
    (hspoken : CountSpoken scope.clock t es count)
    (hterm : distinctCount scope.schema table p count = .ok q) :
    Prints scope table .unary ("DCOUNT".toList ++ '(' :: (path ++ ')' :: tail)) q := by
  refine ⟨_, (IsPrimary.count (.inr rfl) hpath htest).isText, ?_⟩
  rw [← hterm]
  exact Says.distinctTerm hspelled hspoken.balanced hspoken.adds hspoken.reads

/-- A comparison of two paths. -/
theorem compared (hleft : IsPath path a) (hright : IsPath tail b) (hp : left.Spelled a)
    (hp' : right.Spelled b) (hterm : pathComparison scope.schema table op left right = .ok q) :
    Prints scope table .unary
      (op.keyword.toList ++ '(' :: (path ++ ',' :: ' ' :: (tail ++ [')']))) q := by
  refine ⟨_, (IsPrimary.comparison hleft hright).isText, ?_⟩
  rw [← hterm]
  exact Says.comparisonTerm hp hp'

end Paths

end Prints

/-! ## Texts of tests -/

section Tests

variable {value : Literal} {op : CompareOp} {c : Nat}

theorem begins_of_solid {text : List Char}
    (h : ∀ rest, Text.dropBlanks (text ++ rest) = text ++ rest) :
    ∃ c more, text = c :: more ∧ Text.isBlank c = false := by
  cases text with
  | nil => exact absurd (h [' ']) (by decide)
  | cons c more =>
    refine ⟨c, more, rfl, ?_⟩
    have hhead := h []
    rw [List.append_nil] at hhead
    by_contra hblank
    have hlength := congrArg List.length hhead
    rw [Text.dropBlanks, List.dropWhile_cons_of_pos (by simpa using hblank)] at hlength
    have hle := (List.dropWhile_suffix Text.isBlank (l := more)).length_le
    rw [List.length_cons] at hlength
    omega

theorem interval_solid {α : Type} (r : Interval α) (shown : α → String) :
    ∃ c more, (r.text shown).toList = c :: more ∧ Text.isBlank c = false := by
  rw [Interval.text]
  cases r.minInclusive with
  | true => exact ⟨'[', _, by simp; rfl, by decide⟩
  | false => exact ⟨'\x7b', _, by simp; rfl, by decide⟩

/-- A comparison with a literal is written as a test. -/
theorem isTail_literal (op : CompareOp) (value : Literal) :
    IsTail (' ' :: (op.symbol.toList ++ ' ' :: value.shown.toList))
      [(.symbol, op.symbol), value.lexeme] :=
  IsTail.compare (begins_of_solid value.isValue.solid) fun cs rest hcs hrest =>
    value.isValue.value cs rest hcs hrest.endsNumber

/-- A comparison with an interval is written as a test. -/
theorem isTail_interval (r : Interval Literal) :
    IsTail (' ' :: '=' :: ' ' :: (r.text Literal.shown).toList)
      ((.symbol, "=") :: r.lexemes Literal.lexeme) :=
  @IsTail.compare _ .eq _ (interval_solid r _) fun _ _ hcs _ =>
    Interval.accepts_value ⟨fun b _ => b.isValue, fun b _ => b.isValue⟩ hcs

/-- A count is written as a test of a count. -/
theorem isCountTest_exactly (count : Nat) :
    IsCountTest (' ' :: '=' :: ' ' :: (toString count).toList)
      [(.symbol, "="), CountSpoken.countLexeme count] :=
  @IsCountTest.compare _ .eq _ (begins_of_solid (count_isValue count).solid) fun _ _ hcs hrest =>
    accepts_count hcs hrest.endsNumber

/-- An interval of counts is written as a test of a count. -/
theorem isCountTest_within (r : Interval Nat) :
    IsCountTest (' ' :: '=' :: ' ' :: r.countText.toList)
      ((.symbol, "=") :: r.lexemes CountSpoken.countLexeme) :=
  @IsCountTest.compare _ .eq _ (interval_solid r _) fun _ _ hcs _ =>
    Accepts.choiceHead (Interval.accepts_range
      ⟨fun b _ => count_isValue b, fun b _ => count_isValue b⟩ hcs)

end Tests

/-! ## Fields with values -/

section Fields

variable {nested : Nested} {segment : Segment} {tail : Tail} {type : Option ScalarType}
  {several : Bool} {field : String} {op : CompareOp} {value : Literal} {range : Interval Literal}

theorem termQuery_single (htail : tail ≠ .missing) :
    termQuery scope nested table ⟨segment, []⟩ tail =
      segmentQuery scope nested table segment none tail := by
  rw [termQuery, if_neg (by simp [htail])]
  rfl

/-- A field with values that ends its path. -/
theorem segmentQuery_value (h : scope.schema.valueType? table segment.name = some (type, several))
    (honce : segment.transitive = false) :
    segmentQuery scope nested table segment none tail = leafQuery type several segment tail := by
  have hsegment : ∀ role, scope.schema.role table segment.name = .ok role →
      scope.schema.resolveSegment table segment false = .ok role :=
    fun _ => Schema.resolveSegment_once honce
  unfold segmentQuery
  rw [Option.isSome_none]
  unfold Schema.valueType? at h
  cases hkind : scope.schema.fieldKind table segment.name with
  | scalar t =>
    obtain ⟨rfl, rfl⟩ : some t = type ∧ false = several := by simpa [hkind] using h
    rw [hsegment (.scalar t) (by rw [Schema.role, hkind])]
    rfl
  | multiValued t =>
    obtain ⟨rfl, rfl⟩ : some t = type ∧ true = several := by simpa [hkind] using h
    rw [hsegment (.multiValued t) (by rw [Schema.role, hkind])]
    rfl
  | system =>
    obtain ⟨rfl, rfl⟩ : none = type ∧ false = several := by simpa [hkind] using h
    rw [hsegment .system (by rw [Schema.role, hkind])]
    rfl
  | link | crossLink | group | unknown => simp [hkind] at h

/-- The test of a field by a literal that is read again. -/
theorem leafTest_literal (hfits : value.Fits Time.Timestamp.IsProper type)
    (hyear : value.InFourDigits) :
    leafTest type field (.compare op (.raw value.written)) = .ok (.comparison field op value) := by
  rw [leafTest, Literal.literalOf_written hfits hyear]
  rfl

/-- The test of a field by an interval that is read again. -/
theorem leafTest_interval (hfits : range.Bounds (Literal.Fits Time.Timestamp.IsProper type))
    (hyear : range.Bounds Literal.InFourDigits) :
    leafTest type field (.compare .eq (.interval (range.map Literal.written))) =
      .ok (.interval field range) := by
  have hbounds : range.Bounds fun bound => literalOf type field bound.written = .ok bound :=
    ⟨fun b hb => Literal.literalOf_written (hfits.1 b hb) (hyear.1 b hb),
      fun b hb => Literal.literalOf_written (hfits.2 b hb) (hyear.2 b hb)⟩
  rw [leafTest, Interval.mapM_map hbounds]
  rfl

theorem leafQuery_free (hfree : segment.isRestricted = false) :
    leafQuery type several segment tail = leafTest type segment.name tail >>= fun test =>
      if (tail.isComparison && (several || segment.quantifier.isSome)) = true then
        quantifiedTest segment.name segment.quantifier test
      else .ok test := by
  unfold leafQuery
  rw [hfree]
  rfl

/-- A field that is compared, by its name alone. -/
theorem termQuery_test {test : Query} (h : scope.schema.valueType? table field = some (type, false))
    (htail : tail.isComparison = true) (htest : leafTest type field tail = .ok test) :
    termQuery scope nested table ⟨.named field 0, []⟩ tail = .ok test := by
  have hne : tail ≠ .missing := by
    rintro rfl
    cases htail
  have hvalue : scope.schema.valueType? table (Segment.named field 0).name = some (type, false) := h
  have hnamed : leafTest type (Segment.named field 0).name tail = .ok test := htest
  rw [termQuery_single hne, segmentQuery_value hvalue rfl, leafQuery_free rfl, hnamed]
  simp [Segment.named, Bind.bind, Except.bind]

/-- A field that is compared inside a quantifier. -/
theorem termQuery_quantified {test : Query} {quantifier : Quantifier} (hq : quantifier ≠ .count)
    (h : scope.schema.valueType? table field = some (type, several))
    (htail : tail.isComparison = true) (htest : leafTest type field tail = .ok test) :
    termQuery scope nested table ⟨(Segment.named field 0).quantifiedBy quantifier, []⟩ tail =
      .ok (.multiValue quantifier test) := by
  have hne : tail ≠ .missing := by
    rintro rfl
    cases htail
  have hquantified : quantifiedTest field (some quantifier) test = .ok (.multiValue quantifier test) := by
    cases quantifier <;> first | rfl | exact absurd rfl hq
  have hvalue : scope.schema.valueType? table
      ((Segment.named field 0).quantifiedBy quantifier).name = some (type, several) := h
  have hnamed : leafTest type ((Segment.named field 0).quantifiedBy quantifier).name tail =
      .ok test := htest
  rw [termQuery_single hne, segmentQuery_value hvalue rfl, leafQuery_free rfl, hnamed]
  simpa [Segment.named, Segment.quantifiedBy, htail, Bind.bind, Except.bind] using hquantified

/-- A count of the values of a field. -/
theorem termQuery_valueCount {count : CountTest}
    (h : scope.schema.valueType? table field = some (type, several)) :
    termQuery scope nested table ⟨.named field 0, []⟩ (.count count) =
      leafTest type field (.count count) := by
  have hne : Tail.count count ≠ .missing := Tail.noConfusion
  have hvalue : scope.schema.valueType? table (Segment.named field 0).name = some (type, several) := h
  rw [termQuery_single hne, segmentQuery_value hvalue rfl, leafQuery_free rfl]
  show (leafTest type field (.count count) >>= pure) = _
  cases leafTest type field (.count count) <;> rfl

namespace Prints

open Time (Timestamp)

section Tests

variable {quantifier : Quantifier} (hname : IsWord field)
include hname

/-- A comparison of the only value of a field. -/
theorem comparison (h : scope.schema.valueType? table field = some (type, false))
    (hfits : value.Fits Timestamp.IsProper type) (hyear : value.InFourDigits) :
    Prints scope table .unary (Query.comparison field op value).text.toList
      (.comparison field op value) := by
  have hall := tested hname (isTail_literal op value) (Spoken.literal op value)
    (termQuery_test h rfl (leafTest_literal hfits hyear))
  simpa [Query.text] using hall

/-- An interval of the only value of a field. -/
theorem interval (h : scope.schema.valueType? table field = some (type, false))
    (hfits : range.Bounds (Literal.Fits Timestamp.IsProper type))
    (hyear : range.Bounds Literal.InFourDigits) :
    Prints scope table .unary (Query.interval field range).text.toList (.interval field range) := by
  have hall := tested hname (isTail_interval range) (Spoken.interval range)
    (termQuery_test h rfl (leafTest_interval hfits hyear))
  simpa [Query.text] using hall

/-- A quantified comparison of the values of a field. -/
theorem quantifiedComparison (hq : quantifier ≠ .count)
    (h : scope.schema.valueType? table field = some (type, several))
    (hfits : value.Fits Timestamp.IsProper type) (hyear : value.InFourDigits) :
    Prints scope table .unary (Query.multiValue quantifier (.comparison field op value)).text.toList
      (.multiValue quantifier (.comparison field op value)) := by
  have hall := quantified hq hname (isTail_literal op value) (Spoken.literal op value)
    (termQuery_quantified hq h rfl (leafTest_literal hfits hyear))
  simpa [Query.text] using hall

/-- A quantified interval of the values of a field. -/
theorem quantifiedInterval (hq : quantifier ≠ .count)
    (h : scope.schema.valueType? table field = some (type, several))
    (hfits : range.Bounds (Literal.Fits Timestamp.IsProper type))
    (hyear : range.Bounds Literal.InFourDigits) :
    Prints scope table .unary (Query.multiValue quantifier (.interval field range)).text.toList
      (.multiValue quantifier (.interval field range)) := by
  have hall := quantified hq hname (isTail_interval range) (Spoken.interval range)
    (termQuery_quantified hq h rfl (leafTest_interval hfits hyear))
  simpa [Query.text] using hall

/-- A count of the values of a field. -/
theorem fieldCount {count : Nat} (h : (scope.schema.valueType? table field).isSome = true)
    (hcount : count < Text.bitBound 64) :
    Prints scope table .unary (Query.fieldCount field .eq count).text.toList
      (.fieldCount field .eq count) := by
  obtain ⟨⟨type, several⟩, hvalue⟩ := Option.isSome_iff_exists.mp h
  have hall := counted (IsPath.named hname .none IsSteps.nil) (Path.Spelled.word field)
    (isCountTest_exactly count) (CountSpoken.exactly hcount) (termQuery_valueCount hvalue)
  simpa [Query.text, CompareOp.symbol] using hall

/-- An interval of counts of the values of a field. -/
theorem fieldCountRange {range : Interval Nat}
    (h : (scope.schema.valueType? table field).isSome = true)
    (hrange : range.Bounds (· < Text.bitBound 64)) :
    Prints scope table .unary (Query.fieldCountRange field range).text.toList
      (.fieldCountRange field range) := by
  obtain ⟨⟨type, several⟩, hvalue⟩ := Option.isSome_iff_exists.mp h
  have hall := counted (IsPath.named hname .none IsSteps.nil) (Path.Spelled.word field)
    (isCountTest_within range) (CountSpoken.within hrange) (termQuery_valueCount hvalue)
  simpa [Query.text] using hall

end Tests

end Prints

end Fields

/-! ## Links -/

/-- The filter is missing, or its text says a tree. -/
inductive PrintsIfAny (scope : Scope) (table : String) : Option Query → Option Query → Prop
  | missing : PrintsIfAny scope table none none
  | present {q raw : Query} (h : Prints scope table .disjunction q.text.toList raw) :
    PrintsIfAny scope table (some q) (some raw)

/-- The text of the filter of a link says the blocks behind the name of the link. -/
structure PrintsWhere (scope : Scope) (table : String) (filter raw : Option Query)
    (l : List Lexeme) (blocks : List (List Token)) : Prop where
  steps : ∀ {ends : List Char → Prop} {text : List Char} {a : List Lexeme}, IsSteps ends text a →
    IsSteps ends ((Query.whereText filter).toList ++ text) (l ++ a)
  goes : ∀ last before, Path.Goes l (last :: before)
    ({ last with filters := last.filters ++ blocks } :: before)
  builds : allFilters (buildIn scope) table blocks = .ok raw

theorem PrintsIfAny.where {filter raw : Option Query} (h : PrintsIfAny scope table filter raw) :
    ∃ l blocks, PrintsWhere scope table filter raw l blocks := by
  cases h with
  | missing =>
    refine ⟨[], [], fun h => by simpa [Query.whereText] using h, fun last before => ?_, rfl⟩
    simpa using Path.Goes.nil
  | @present q raw h =>
    have hwell := h.wellFormed
    obtain ⟨l, htext, hsays⟩ := h
    refine ⟨blockLexemes l, [Lexeme.placed l], fun hsteps => ?_, fun last before => ?_, ?_⟩
    · simpa [Query.whereText] using IsSteps.filtered htext.isFilterText hsteps
    · simpa [Segment.filteredBy] using Path.Goes.block hsays.balanced
    · have hbuild : allFilters (buildIn scope) table [Lexeme.placed l] =
          .ok (Query.andAll [some raw]) := by
        rw [allFilters, List.mapM_cons, hsays.build]
        rfl
      rw [hbuild, show Query.andAll [some raw] = some (Query.and [raw]) from rfl,
        Query.and_singleton hwell]

section Links

variable {name target : String} {segment : Segment} {tail : Tail} {filter raw : Option Query}
  {inner rawInner : Query} {quantifier : Quantifier}

/-- A link that ends its path, followed once. -/
theorem termQuery_link (hlead : scope.schema.LeadsTo table segment.name target)
    (honce : segment.transitive = false) (htail : tail ≠ .missing) :
    termQuery scope (buildIn scope) table ⟨segment, []⟩ tail =
      linkQuery (buildIn scope) segment target none tail := by
  rw [termQuery_single htail, segmentQuery_link hlead.1 honce, hlead.2]

/-- A link that ends its path without a condition. -/
theorem termQuery_linkEnd (hlead : scope.schema.LeadsTo table segment.name target)
    (honce : segment.transitive = false) (hcondition : segment.condition = none)
    (htail : tail ≠ .missing)
    (hfilter : allFilters (buildIn scope) target segment.filters = .ok raw) :
    termQuery scope (buildIn scope) table ⟨segment, []⟩ tail =
      linkEnd (traversalQuantifier segment.quantifier) segment.name raw tail := by
  rw [termQuery_link hlead honce htail]
  unfold linkQuery
  rw [hfilter, hcondition]
  rfl

/-- A link that ends its path with a condition. -/
theorem termQuery_linkBehind {condition : Condition}
    (hlead : scope.schema.LeadsTo table segment.name target) (honce : segment.transitive = false)
    (hcondition : segment.condition = some condition)
    (hfilter : allFilters (buildIn scope) target segment.filters = .ok raw)
    (hinner : buildIn scope target condition.tokens = .ok inner) :
    termQuery scope (buildIn scope) table ⟨segment, []⟩ .bare =
      .ok (.link condition.quantifier segment.name raw (some inner)) := by
  have hne : Tail.bare ≠ .missing := nofun
  rw [termQuery_link hlead honce hne]
  unfold linkQuery
  rw [hfilter, hcondition]
  show (buildIn scope target condition.tokens >>= _) = _
  rw [hinner]
  rfl

namespace PrintsWhere

variable {l : List Lexeme} {blocks : List (List Token)} (h : PrintsWhere scope target filter raw l blocks)
include h

theorem isSteps : IsSteps EndsPath (Query.whereText filter).toList l := by
  simpa using h.steps IsSteps.nil

theorem spelled (name : String) :
    Path.Spelled ((.word, name) :: l) ⟨{ Segment.named name 0 with filters := blocks }, []⟩ :=
  ⟨(Path.Goes.word name).append (h.goes _ _)⟩

/-- The tree of the link with its filter. -/
theorem termQuery (hlead : scope.schema.LeadsTo table name target) (htail : tail ≠ .missing) :
    termQuery scope (buildIn scope) table ⟨{ Segment.named name 0 with filters := blocks }, []⟩ tail =
      linkEnd .any name raw tail :=
  @termQuery_linkEnd scope table target { Segment.named name 0 with filters := blocks } tail raw
    hlead rfl rfl htail h.builds

end PrintsWhere

namespace Prints

variable (hname : IsWord name) (hlead : scope.schema.LeadsTo table name target)
include hname hlead

/-- The existence of objects behind a link. -/
theorem linkPresent (hfilter : PrintsIfAny scope target filter raw) :
    Prints scope table .unary (Query.link quantifier name filter none).text.toList
      (.link .any name raw none) := by
  obtain ⟨l, blocks, hwhere⟩ := hfilter.where
  have hne : Tail.present ≠ .missing := nofun
  have hall := named hname .none hwhere.isSteps (.test .present)
    (fun _ hrest => (IsTailOrNone.test .present).endsPath hrest) (hwhere.spelled name)
    Spoken.present (hwhere.termQuery hlead hne)
  simpa [Query.text, Query.conditionText] using hall

/-- A quantified condition on the objects behind a link. -/
theorem linkBehind (hq : quantifier ≠ .count) (hfilter : PrintsIfAny scope target filter raw)
    (hinner : Prints scope target .disjunction inner.text.toList rawInner) :
    Prints scope table .unary (Query.link quantifier name filter (some inner)).text.toList
      (.link quantifier name raw (some rawInner)) := by
  obtain ⟨l, blocks, hwhere⟩ := hfilter.where
  obtain ⟨c, htext, hsays⟩ := hinner
  obtain ⟨segment, hsegment⟩ : ∃ segment, segment = { Segment.named name 0 with
      filters := blocks, condition := some ⟨quantifier, Lexeme.placed c⟩ } := ⟨_, rfl⟩
  have hpath : Path.Spelled ((.word, name) :: [] ++ (l ++ (.keyword, quantifier.keyword) ::
      blockLexemes c)) ⟨segment, []⟩ := by
    rw [hsegment]
    exact ⟨(hwhere.spelled name).goes.append (Path.Goes.condition hsays.balanced rfl)⟩
  have hterm : Filter.termQuery scope (buildIn scope) table ⟨segment, []⟩ .bare =
      .ok (.link quantifier name raw (some rawInner)) := by
    have hbehind := @termQuery_linkBehind scope table target segment raw rawInner
      ⟨quantifier, Lexeme.placed c⟩
    rw [hsegment] at hbehind ⊢
    exact hbehind hlead rfl rfl hwhere.builds hsays.build
  have hsteps := hwhere.steps (IsSteps.condition hq htext.isFilterText htext.contained)
  have hall := named hname .none hsteps .nothing (fun _ hrest => hrest) hpath Spoken.nothing hterm
  simpa [Query.text, Query.conditionText] using hall

/-- The identity of an object behind a link. -/
theorem linkId {id : String} (hq : quantifier ≠ .count) :
    Prints scope table .unary (Query.linkId quantifier name id).text.toList
      (.linkId quantifier name id) := by
  have hne : Tail.compare .eq (.raw (.text id)) ≠ .missing := Tail.noConfusion
  have hquantified : Prints scope table .unary
      (quantifier.keyword.toList ++ '(' :: (name.toList ++ ')' :: ' ' :: '=' :: ' ' ::
        (Text.quote id).toList)) (.linkId quantifier name id) := by
    refine quantified hq hname (isTail_literal .eq (.text id)) (Spoken.literal .eq (.text id)) ?_
    have hend := @termQuery_linkEnd scope table target ((Segment.named name 0).quantifiedBy quantifier)
      _ none hlead rfl rfl hne rfl
    refine hend.trans ?_
    cases quantifier <;> first | rfl | exact absurd rfl hq
  cases quantifier with
  | any =>
    have hend : termQuery scope (buildIn scope) table ⟨.named name 0, []⟩
        (.compare .eq (.raw (.text id))) = .ok (.linkId .any name id) :=
      @termQuery_linkEnd scope table target (.named name 0) _ none hlead rfl rfl hne rfl
    have hall := tested hname (isTail_literal .eq (.text id)) (Spoken.literal .eq (.text id)) hend
    simpa [Query.text, CompareOp.symbol, Literal.shown] using hall
  | all | none => simpa [Query.text] using hquantified
  | count => exact absurd rfl hq

/-- A count of the objects behind a link. -/
theorem linkCount {count : Nat} (hfilter : PrintsIfAny scope target filter raw)
    (hcount : count < Text.bitBound 64) :
    Prints scope table .unary (Query.linkCount name filter .eq count).text.toList
      (.linkCount name raw .eq count) := by
  obtain ⟨l, blocks, hwhere⟩ := hfilter.where
  have hne : Tail.count (.exactly count) ≠ .missing := Tail.noConfusion
  have hall := counted (IsPath.named hname .none hwhere.isSteps) (hwhere.spelled name)
    (isCountTest_exactly count) (CountSpoken.exactly hcount) (hwhere.termQuery hlead hne)
  simpa [Query.text, CompareOp.symbol] using hall

/-- An interval of counts of the objects behind a link. -/
theorem linkCountRange {range : Interval Nat} (hfilter : PrintsIfAny scope target filter raw)
    (hrange : range.Bounds (· < Text.bitBound 64)) :
    Prints scope table .unary (Query.linkCountRange name filter range).text.toList
      (.linkCountRange name raw range) := by
  obtain ⟨l, blocks, hwhere⟩ := hfilter.where
  have hne : Tail.count (.within range) ≠ .missing := Tail.noConfusion
  have hall := counted (IsPath.named hname .none hwhere.isSteps) (hwhere.spelled name)
    (isCountTest_within range) (CountSpoken.within hrange) (hwhere.termQuery hlead hne)
  simpa [Query.text] using hall

end Prints

end Links

/-! ## Links followed repeatedly -/

section Repeated

variable {name : String} {segment : Segment} {tail : Tail} {depth : Option Nat}
  {inner rawInner : Query}

/-- A link back to its own table that ends its path, followed repeatedly. -/
theorem termQuery_repeated (hlead : scope.schema.LeadsTo table segment.name table)
    (hrepeated : segment.transitive = true) (htail : tail ≠ .missing) :
    termQuery scope (buildIn scope) table ⟨segment, []⟩ tail =
      repeatedLinkQuery (buildIn scope) segment table none tail := by
  have hrequired : scope.schema.requiredTarget table segment.name = .ok table := by
    rw [Schema.requiredTarget, hlead.2]
  have hchecked : ∀ role : FieldRole, role.linkTarget? = some table →
      Schema.checkRepeated table segment.name role = .ok () := by
    intro role hrole
    rw [Schema.checkRepeated, hrole]
    exact if_pos rfl
  have hsegment : ∀ role : FieldRole, scope.schema.role table segment.name = .ok role →
      role.linkTarget? = some table →
      scope.schema.resolveSegment table segment false = .ok role := by
    intro role hrole htarget
    rw [Schema.resolveSegment, hrole, hrepeated]
    show (Schema.checkRepeated table segment.name role >>= _) = _
    rw [hchecked role htarget]
    rfl
  have hany : anyLinkQuery (buildIn scope) segment table none tail =
      repeatedLinkQuery (buildIn scope) segment table none tail := by
    rw [anyLinkQuery, if_pos hrepeated]
  rw [termQuery_single htail, ← hany]
  unfold segmentQuery
  have hlink := hlead.1
  cases hkind : scope.schema.fieldKind table segment.name <;> rw [hkind] at hlink <;>
    try cases hlink
  · rw [Option.isSome_none, hsegment (.link table) (by rw [Schema.role, hkind, hrequired]; rfl) rfl]
    rfl
  · rw [Option.isSome_none,
      hsegment (.crossLink table) (by rw [Schema.role, hkind, hrequired]; rfl) rfl]
    rfl

/-- The mark of a link that is followed repeatedly. -/
def markText (depth : Option Nat) : List Char :=
  '^' :: match depth with
    | none => []
    | some limit => '(' :: ((toString limit).toList ++ [')'])

/-- The mark of a link is read as its limit. -/
theorem exists_mark (name : String) (hdepth : ∀ limit ∈ depth, limit < Text.bitBound 32) :
    ∃ m, MarkText (markText depth) m ∧
      Path.Goes ((.word, name) :: m) [] [(Segment.named name 0).repeated depth] := by
  cases depth with
  | none => exact ⟨_, .unlimited, (Path.Goes.word name).append Path.Goes.unlimited⟩
  | some limit =>
    have hlimit : Text.unsigned? 32 (String.ofList (toString limit).toList) = some limit := by
      rw [String.ofList_toList, Text.unsigned?_toString (hdepth limit rfl)]
    exact ⟨_, .limited (toString_isNumber limit),
      (Path.Goes.word name).append (Path.Goes.limited hlimit)⟩

theorem text_repeated (inner : Option Query) :
    (Query.transitiveLink name depth inner).text.toList =
      name.toList ++ (markText depth ++ (Query.conditionText .any inner).toList) := by
  cases depth <;> simp [Query.text, markText]

namespace Prints

variable (hname : IsWord name) (hlead : scope.schema.LeadsTo table name table)
  (hdepth : ∀ limit ∈ depth, limit < Text.bitBound 32)
include hname hlead hdepth

/-- The existence of objects at one or more steps along a link. -/
theorem repeatedPresent : Prints scope table .unary (Query.transitiveLink name depth none).text.toList
    (.transitiveLink name depth none) := by
  obtain ⟨m, hmark, hgoes⟩ := exists_mark name hdepth
  have hne : Tail.present ≠ .missing := nofun
  have hpath : Path.Spelled ((.word, name) :: m ++ []) ⟨(Segment.named name 0).repeated depth, []⟩ := by
    rw [List.append_nil]
    exact ⟨hgoes⟩
  have hterm : termQuery scope (buildIn scope) table ⟨(Segment.named name 0).repeated depth, []⟩
      .present = .ok (.transitiveLink name depth none) := by
    have hrepeated := @termQuery_repeated scope table ((Segment.named name 0).repeated depth)
      .present hlead rfl hne
    rw [hrepeated]
    cases depth <;> rfl
  have hall := named hname hmark IsSteps.nil (.test .present)
    (fun _ hrest => (IsTailOrNone.test .present).endsPath hrest) hpath Spoken.present hterm
  rw [text_repeated]
  simpa [Query.conditionText] using hall

/-- A condition on some object at one or more steps along a link. -/
theorem repeatedBehind (hinner : Prints scope table .disjunction inner.text.toList rawInner) :
    Prints scope table .unary (Query.transitiveLink name depth (some inner)).text.toList
      (.transitiveLink name depth (some rawInner)) := by
  obtain ⟨m, hmark, hgoes⟩ := exists_mark name hdepth
  have hwell := hinner.wellFormed
  obtain ⟨c, htext, hsays⟩ := hinner
  obtain ⟨segment, hsegment⟩ : ∃ segment, segment = { (Segment.named name 0).repeated depth with
      condition := some ⟨.any, Lexeme.placed c⟩ } := ⟨_, rfl⟩
  have hpath : Path.Spelled ((.word, name) :: m ++ (.keyword, Quantifier.any.keyword) ::
      blockLexemes c) ⟨segment, []⟩ := by
    rw [hsegment]
    exact ⟨hgoes.append (Path.Goes.condition hsays.balanced rfl)⟩
  have hne : Tail.bare ≠ .missing := nofun
  have hterm : termQuery scope (buildIn scope) table ⟨segment, []⟩ .bare =
      .ok (.transitiveLink name depth (some rawInner)) := by
    have hrepeated := @termQuery_repeated scope table segment .bare
    rw [hsegment] at hrepeated ⊢
    rw [hrepeated hlead rfl hne]
    have hcondition : buildIn scope table (Lexeme.placed c) = .ok rawInner := hsays.build
    show (buildIn scope table (Lexeme.placed c) >>= _) >>= _ = _
    rw [hcondition]
    show Except.ok (Query.transitiveLink name (depth.or none) (some (Query.and [rawInner]))) = _
    rw [Query.and_singleton hwell, Option.or_none]
  have hall := named hname hmark
    (IsSteps.condition (q := .any) nofun htext.isFilterText htext.contained) .nothing
    (fun _ hrest => hrest) hpath Spoken.nothing hterm
  rw [text_repeated]
  simpa [Query.conditionText] using hall

end Prints

end Repeated

/-! ## Paths of names -/

/-- The path of names that stand alone. -/
def namePath (first : String) (rest : List String) : Path :=
  ⟨.named first 0, rest.map (.named · 0)⟩

theorem toList_intercalate (separator first : String) (rest : List String) :
    (separator.intercalate (first :: rest)).toList =
      first.toList ++ rest.flatMap fun text => separator.toList ++ text.toList := by
  induction rest generalizing first with
  | nil => simp
  | cons next rest ih =>
    rw [String.intercalate_cons_of_ne_nil (by simp), String.toList_append, String.toList_append, ih]
    simp

section Names

variable {first : String} {rest names others : List String} {roles : List FieldRole}

theorem isSteps_names (h : ∀ name ∈ names, IsWord name) :
    IsSteps EndsPath (names.flatMap fun name => '.' :: name.toList)
      (names.map fun name => (.word, name)) := by
  induction names with
  | nil => exact IsSteps.nil
  | cons name names ih =>
    rw [List.forall_mem_cons] at h
    simpa using IsSteps.named h.1 .none (ih h.2)

/-- Names with points between them are a path. -/
theorem isPath_names (h : ∀ name ∈ first :: rest, IsWord name) :
    IsPath (Query.pathText (first :: rest)).toList ((first :: rest).map fun name => (.word, name)) := by
  rw [List.forall_mem_cons] at h
  have hall := IsPath.named h.1 .none (isSteps_names h.2)
  rw [Query.pathText, toList_intercalate]
  simpa using hall

theorem spelled_names (first : String) (rest : List String) :
    Path.Spelled ((first :: rest).map fun name => (.word, name)) (namePath first rest) := by
  have hall : ∀ (names : List String) (before : List Segment),
      Path.Goes (names.map fun name => (.word, name)) before
        ((names.map (Segment.named · 0)).reverse ++ before) := by
    intro names
    induction names with
    | nil => exact fun before => Path.Goes.nil
    | cons name names ih =>
      intro before
      simpa using (Path.Goes.word name).append (ih (.named name 0 :: before))
  exact ⟨by simpa [namePath, Path.segments] using hall (first :: rest) []⟩

/-- Names with roles one after another are resolved to these roles. -/
theorem resolve_names {schema : Schema} (h : schema.Along table (first :: rest) roles) :
    ∃ resolved, schema.resolve table (namePath first rest) = .ok resolved ∧
      resolved.names = first :: rest ∧ resolved.segments.map (·.role) = roles := by
  generalize hnames : first :: rest = names at h
  induction h generalizing first rest with
  | @last table name role hrole =>
    obtain ⟨rfl, rfl⟩ := List.cons_eq_cons.mp hnames
    refine ⟨⟨[], ⟨.named first 0, table, role⟩⟩, ?_, rfl, rfl⟩
    have hsegment : schema.resolveSegment table (.named first 0) false = .ok role :=
      Schema.resolveSegment_once rfl hrole
    show schema.resolveFrom table (.named first 0) [] = _
    rw [Schema.resolveFrom, hsegment]
    rfl
  | @step table name target role names roles hrole htarget hrest ih =>
    obtain ⟨rfl, rfl⟩ := List.cons_eq_cons.mp hnames
    cases rest with
    | nil => cases hrest
    | cons next rest =>
      obtain ⟨resolved, hresolved, hfound, hroles⟩ := ih rfl
      refine ⟨⟨⟨.named first 0, table, role⟩ :: resolved.through, resolved.leaf⟩, ?_, ?_, ?_⟩
      · have hsegment : schema.resolveSegment table (.named first 0) true = .ok role := by
          have hnamed : schema.role table (Segment.named first 0).name = .ok role := hrole
          rw [Schema.resolveSegment, hnamed]
          show (if (true && role.target?.isNone) = true then _ else _) = _
          rw [htarget]
          rfl
        show schema.resolveFrom table (.named first 0) (.named next 0 :: rest.map (.named · 0)) = _
        rw [Schema.resolveFrom, hsegment]
        show (schema.resolveFrom (role.target?.getD table) (.named next 0) (rest.map (.named · 0)) >>=
          _) = _
        rw [htarget]
        have hbehind : schema.resolveFrom target (.named next 0) (rest.map (.named · 0)) =
          .ok resolved := hresolved
        show (schema.resolveFrom target (.named next 0) (rest.map (.named · 0)) >>= _) = _
        rw [hbehind]
        rfl
      · rw [← hfound]
        rfl
      · rw [← hroles]
        rfl

theorem namePath_isRestricted : (namePath first rest).isRestricted = false := by
  simp [namePath, Path.isRestricted, Path.segments, Segment.isRestricted, Segment.named]

/-- The names along a path of names that stand alone. -/
theorem comparedPath_names {op : PathOp} {schema : Schema}
    (h : schema.Along table (first :: rest) roles) :
    comparedPath schema table op (namePath first rest) = .ok (first :: rest) := by
  obtain ⟨resolved, hresolved, hnames, -⟩ := resolve_names h
  exact comparedPath_eq_ok_iff.mpr ⟨namePath_isRestricted, resolved, hresolved, hnames.symm⟩

theorem exists_first {schema : Schema} (h : schema.Along table names roles) :
    ∃ first rest, names = first :: rest := by
  cases h with
  | last => exact ⟨_, [], rfl⟩
  | step => exact ⟨_, _, rfl⟩

namespace Prints

/-- An interval of counts of the values at the end of a path. -/
theorem pathCountRange {range : Interval Nat} (hnames : ∀ name ∈ names, IsWord name)
    (halong : scope.schema.Along table names roles) (hlink : roles.any (·.kind.isLink) = true)
    (hrange : range.Bounds (· < Text.bitBound 64)) :
    Prints scope table .unary (Query.pathCountRange names range).text.toList
      (.pathCountRange names range) := by
  obtain ⟨first, rest, rfl⟩ := exists_first halong
  obtain ⟨resolved, hresolved, hfound, rfl⟩ := resolve_names halong
  have hterm : distinctCount scope.schema table (namePath first rest) (.within range) =
      .ok (.pathCountRange (first :: rest) range) := by
    have hany : resolved.segments.any (·.role.kind.isLink) = true := by
      rwa [List.any_map] at hlink
    refine distinctCount_eq_ok_iff.mpr ⟨namePath_isRestricted, resolved, hresolved, hany, ?_⟩
    rw [hfound]
    rfl
  have hall := distinct (isPath_names hnames) (spelled_names first rest) (isCountTest_within range)
    (CountSpoken.within hrange) hterm
  simpa [Query.text] using hall

/-- A comparison of the values at the ends of two paths. -/
theorem pathComparison {op : PathOp} {roles' : List FieldRole}
    (hnames : ∀ name ∈ names, IsWord name) (hothers : ∀ name ∈ others, IsWord name)
    (halong : scope.schema.Along table names roles)
    (halong' : scope.schema.Along table others roles') :
    Prints scope table .unary (Query.pathComparison op names others).text.toList
      (.pathComparison op names others) := by
  obtain ⟨first, rest, rfl⟩ := exists_first halong
  obtain ⟨first', rest', rfl⟩ := exists_first halong'
  have hterm : Filter.pathComparison scope.schema table op (namePath first rest)
      (namePath first' rest') = .ok (.pathComparison op (first :: rest) (first' :: rest')) := by
    unfold Filter.pathComparison
    rw [comparedPath_names halong, comparedPath_names halong']
    rfl
  have hall := compared (isPath_names hnames) (isPath_names hothers) (spelled_names first rest)
    (spelled_names first' rest') hterm
  simpa [Query.text] using hall

end Prints

end Names

end Filter

end LinkQuery
