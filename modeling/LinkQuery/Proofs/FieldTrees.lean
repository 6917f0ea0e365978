import LinkQuery.Proofs.ArithmeticTexts
import LinkQuery.Proofs.FieldSetLogs
import LinkQuery.Proofs.Halting
/-!
# Field sets as trees

A field set is a list of trees: a star, or a field with a limit and the fields below it. It is
written as a list behind commas, with the fields below another one in parentheses, or behind a point
if there is a single one. Both notations leave the same tokens in the log, and the log is read back
as the trees.

Main statements:
- `FieldTree.collect_trees`: the log of some trees is read as their nodes.
- `Rule.WritesTrees.accepts`: a text of some trees is accepted with their log, in any mixture of the
  two notations.
- `FieldTree.field_sets_keep_nesting`: some trees have a text, and every text of them is read as
  these trees.
-/
namespace LinkQuery

open Language (Part PartRule)
open Rule (IsWord)

/-! ## Trees and their nodes -/

/-- A word that is not reserved. -/
structure FieldWord where
  text : String
  isWord : IsWord text

/-- A star, or a field with its limit and the fields below it. -/
inductive FieldTree where
  | star
  | field (name : FieldWord) (limit : Option UInt64) (children : List FieldTree)

namespace FieldTree

mutual

/-- The node of a tree at the front of a text, without filters. -/
def node : FieldTree → FieldNode
  | .star => .named "*" 0
  | .field name limit children => .node name.text 0 (limit.map UInt64.toNat) [] (nodes children)

/-- The nodes of trees. -/
def nodes : List FieldTree → List FieldNode
  | [] => []
  | tree :: trees => tree.node :: nodes trees

end

mutual

/-- What the log of a tree says, however the fields below it are written. -/
def lexemes : FieldTree → List Lexeme
  | .star => [(.symbol, "*")]
  | .field name limit children =>
    (.word, name.text) :: ((limit.toList.map fun n => (.number, toString n.toNat)) ++
      belowLexemes children)

/-- What the log of the fields below another one says. -/
def belowLexemes : List FieldTree → List Lexeme
  | [] => []
  | tree :: trees =>
    (.marker .childrenStart, "") :: (tree.lexemes ++ (moreLexemes trees ++
      [(.marker .childrenEnd, "")]))

/-- What the log of trees behind commas says. -/
def moreLexemes : List FieldTree → List Lexeme
  | [] => []
  | tree :: trees => (.symbol, ",") :: (tree.lexemes ++ moreLexemes trees)

end

end FieldTree

namespace FieldNode

mutual

/-- The node without its place in the text. -/
def unplaced : FieldNode → FieldNode
  | .node name _ limit filters children => .node name 0 limit filters (unplacedAll children)

/-- The nodes without their places. -/
def unplacedAll : List FieldNode → List FieldNode
  | [] => []
  | first :: rest => first.unplaced :: unplacedAll rest

end

theorem withChildren_nil (n : FieldNode) : n.withChildren [] = n := by
  cases n
  rw [withChildren, List.append_nil]

end FieldNode

/-! ## Reading the log of trees -/

theorem Token.exists_place {t : Token} {kind : TokenKind} {value : String}
    (h : t.lexeme = (kind, value)) : ∃ p, t = ⟨kind, value, p⟩ := by
  cases h
  exact ⟨t.position, rfl⟩

/-- The first token of a log says the first lexeme. -/
theorem Token.exists_first {tokens : List Token} {kind : TokenKind} {value : String}
    {l : List Lexeme} (h : tokens.map Token.lexeme = (kind, value) :: l) :
    ∃ p more, tokens = ⟨kind, value, p⟩ :: more ∧ more.map Token.lexeme = l := by
  obtain ⟨t, more, rfl, ht, hmore⟩ := List.map_eq_cons_iff.mp h
  obtain ⟨p, rfl⟩ := Token.exists_place ht
  exact ⟨p, more, rfl, hmore⟩

namespace FieldTree

open FieldNode (Frame collect)

/-- The token of a limit is read as the limit of the last node. -/
theorem collect_limit {limit : Option UInt64} {tokens : List Token}
    (h : tokens.map Token.lexeme = limit.toList.map fun n => (.number, toString n.toNat))
    (frames : List Frame) (name : String) (p : Nat) (before : List FieldNode) (rest : List Token) :
    collect frames (.named name p :: before) (tokens ++ rest) =
      collect frames (.node name p (limit.map UInt64.toNat) [] [] :: before) rest := by
  cases limit with
  | none =>
    rw [List.map_eq_nil_iff.mp h]
    rfl
  | some n =>
    obtain ⟨q, more, rfl, hmore⟩ := Token.exists_first h
    rw [List.map_eq_nil_iff.mp hmore, List.singleton_append,
      FieldNode.collect_limit frames before _ rest q (Text.unsigned?_toString n.toNat_lt)]
    rfl

mutual

/-- The tokens of a tree are read as its node. -/
theorem collect_tree : ∀ (tree : FieldTree) {tokens : List Token},
    tokens.map Token.lexeme = tree.lexemes → ∃ node, node.unplaced = tree.node ∧
      ∀ (frames : List Frame) (read : List FieldNode) (rest : List Token),
        collect frames read (tokens ++ rest) = collect frames (node :: read) rest
  | .star, tokens, h => by
    rw [lexemes] at h
    obtain ⟨p, more, rfl, hmore⟩ := Token.exists_first h
    obtain rfl := List.map_eq_nil_iff.mp hmore
    exact ⟨.named "*" p, rfl, fun frames read rest => FieldNode.collect_star frames read rest p⟩
  | .field name limit children, tokens, h => by
    rw [lexemes] at h
    obtain ⟨p, more, rfl, hmore⟩ := Token.exists_first h
    obtain ⟨limits, below, rfl, hlimit, hbelow⟩ := List.map_eq_append_iff.mp hmore
    obtain ⟨children', hchildren, hread⟩ := collect_below children hbelow
    refine ⟨.node name.text p (limit.map UInt64.toNat) [] children', ?_, fun frames read rest => ?_⟩
    · rw [FieldNode.unplaced, node, hchildren]
    · rw [List.cons_append, FieldNode.collect_word, List.append_assoc, collect_limit hlimit, hread]
      rfl

/-- The tokens of the fields below another one become its children. -/
theorem collect_below : ∀ (trees : List FieldTree) {tokens : List Token},
    tokens.map Token.lexeme = belowLexemes trees → ∃ below,
      FieldNode.unplacedAll below = nodes trees ∧
      ∀ (frames : List Frame) (last : FieldNode) (before : List FieldNode) (rest : List Token),
        collect frames (last :: before) (tokens ++ rest) =
          collect frames (last.withChildren below :: before) rest
  | [], tokens, h => by
    rw [belowLexemes] at h
    obtain rfl := List.map_eq_nil_iff.mp h
    refine ⟨[], rfl, fun frames last before rest => ?_⟩
    rw [FieldNode.withChildren_nil, List.nil_append]
  | tree :: trees, tokens, h => by
    rw [belowLexemes] at h
    obtain ⟨p, inside, rfl, hinside⟩ := Token.exists_first h
    obtain ⟨one, inside, rfl, hone, hinside⟩ := List.map_eq_append_iff.mp hinside
    obtain ⟨more, close, rfl, hmore, hclose⟩ := List.map_eq_append_iff.mp hinside
    obtain ⟨q, none, rfl, hnone⟩ := Token.exists_first hclose
    obtain rfl := List.map_eq_nil_iff.mp hnone
    obtain ⟨first, hfirst, hreadFirst⟩ := collect_tree tree hone
    obtain ⟨others, hothers, hreadMore⟩ := collect_more trees hmore
    refine ⟨first :: others, ?_, fun frames last before rest => ?_⟩
    · rw [FieldNode.unplacedAll, nodes, hfirst, hothers]
    · have hchildren : (others.reverse ++ [first]).reverse = first :: others := by simp
      rw [List.cons_append, FieldNode.collect_childrenStart, List.append_assoc, hreadFirst,
        List.append_assoc, hreadMore, List.singleton_append, FieldNode.collect_childrenEnd,
        hchildren]

/-- The tokens of trees behind commas are read as their nodes. -/
theorem collect_more : ∀ (trees : List FieldTree) {tokens : List Token},
    tokens.map Token.lexeme = moreLexemes trees → ∃ more,
      FieldNode.unplacedAll more = nodes trees ∧
      ∀ (frames : List Frame) (read : List FieldNode) (rest : List Token),
        collect frames read (tokens ++ rest) = collect frames (more.reverse ++ read) rest
  | [], tokens, h => by
    rw [moreLexemes] at h
    obtain rfl := List.map_eq_nil_iff.mp h
    exact ⟨[], rfl, fun frames read rest => rfl⟩
  | tree :: trees, tokens, h => by
    rw [moreLexemes] at h
    obtain ⟨p, behind, rfl, hbehind⟩ := Token.exists_first h
    obtain ⟨one, more, rfl, hone, hmore⟩ := List.map_eq_append_iff.mp hbehind
    obtain ⟨first, hfirst, hreadFirst⟩ := collect_tree tree hone
    obtain ⟨others, hothers, hreadMore⟩ := collect_more trees hmore
    refine ⟨first :: others, ?_, fun frames read rest => ?_⟩
    · rw [FieldNode.unplacedAll, nodes, hfirst, hothers]
    · rw [List.cons_append, FieldNode.collect_comma, List.append_assoc, hreadFirst, hreadMore,
        List.reverse_cons, List.append_assoc, List.singleton_append]

end

/-- The log of some trees is read as their nodes. -/
theorem collect_trees (tree : FieldTree) (trees : List FieldTree) {tokens : List Token}
    (h : tokens.map Token.lexeme = tree.lexemes ++ moreLexemes trees) :
    ∃ read, FieldNode.ofTokens tokens = .ok read ∧
      FieldNode.unplacedAll read = nodes (tree :: trees) := by
  obtain ⟨one, more, rfl, hone, hmore⟩ := List.map_eq_append_iff.mp h
  obtain ⟨first, hfirst, hreadFirst⟩ := collect_tree tree hone
  obtain ⟨others, hothers, hreadMore⟩ := collect_more trees hmore
  refine ⟨first :: others, ?_, ?_⟩
  · have hread := hreadMore [] [first] []
    rw [List.append_nil] at hread
    rw [FieldNode.ofTokens, hreadFirst, hread, FieldNode.collect.eq_def]
    simp
  · rw [FieldNode.unplacedAll, nodes, hfirst, hothers]

end FieldTree

namespace Rule

/-! ## Texts of trees -/

/-- A limit in brackets, or none, stands in front of the rest. -/
inductive WritesLimit : Option UInt64 → List Char → List Char → Prop
  | nothing {rest : List Char} : WritesLimit none rest rest
  | limit {n : UInt64} {cs inside close rest : List Char}
    (hopen : Text.dropBlanks cs = '[' :: inside)
    (hnumber : Text.dropBlanks inside = (toString n.toNat).toList ++ close)
    (hclose : Text.dropBlanks close = ']' :: rest) : WritesLimit (some n) cs rest

mutual

/-- A text of the tree stands in front of the rest, each token behind white space or none. -/
inductive WritesTree : FieldTree → List Char → List Char → Prop
  | star {cs rest : List Char} (h : Text.dropBlanks cs = '*' :: rest) : WritesTree .star cs rest
  | field {name : FieldWord} {limit : Option UInt64} {children : List FieldTree}
    {cs behind below rest : List Char} (hname : Text.dropBlanks cs = name.text.toList ++ behind)
    (hlimit : WritesLimit limit behind below) (hbelow : WritesBelow children below rest) :
    WritesTree (.field name limit children) cs rest

/-- A text of the fields below another one: a list in parentheses, or one field behind a point. -/
inductive WritesBelow : List FieldTree → List Char → List Char → Prop
  | nothing {rest : List Char} : WritesBelow [] rest rest
  | enclosed {trees : List FieldTree} {cs inside close rest : List Char}
    (hopen : Text.dropBlanks cs = '(' :: inside) (h : WritesTrees trees inside close)
    (hclose : Text.dropBlanks close = ')' :: rest) : WritesBelow trees cs rest
  | dotted {tree : FieldTree} {cs inside rest : List Char}
    (hpoint : Text.dropBlanks cs = '.' :: inside) (h : WritesTree tree inside rest) :
    WritesBelow [tree] cs rest

/-- A text of some trees behind commas. -/
inductive WritesTrees : List FieldTree → List Char → List Char → Prop
  | last {tree : FieldTree} {cs rest : List Char} (h : WritesTree tree cs rest) :
    WritesTrees [tree] cs rest
  | more {tree : FieldTree} {trees : List FieldTree} {cs behind next rest : List Char}
    (h : WritesTree tree cs behind) (hcomma : Text.dropBlanks behind = ',' :: next)
    (hrest : WritesTrees trees next rest) : WritesTrees (tree :: trees) cs rest

end

/-! ### What follows a text -/

/-- The text ends, or goes on with one of these characters behind white space. -/
def GoesOn (chars : List Char) (cs : List Char) : Prop :=
  ∀ c, front cs = some c → c ∈ chars

section GoesOn

variable {chars cs rest : List Char} {c : Char}

theorem front_of_dropBlanks (h : Text.dropBlanks cs = c :: rest) : front cs = some c := by
  rw [front, h]
  rfl

theorem goesOn_of_dropBlanks (h : Text.dropBlanks cs = c :: rest) (hmem : c ∈ chars) :
    GoesOn chars cs := by
  intro d hd
  rw [front_of_dropBlanks h] at hd
  cases hd
  exact hmem

theorem goesOn_nil (chars : List Char) : GoesOn chars [] := nofun

theorem GoesOn.mono {more : List Char} (h : GoesOn chars cs) (hsub : chars ⊆ more) :
    GoesOn more cs :=
  fun c hc => hsub (h c hc)

theorem GoesOn.front_ne (h : GoesOn chars cs) (hc : c ∉ chars) : front cs ≠ some c :=
  fun hfront => hc (h c hfront)

theorem GoesOn.endsName (h : GoesOn chars cs)
    (hchars : chars.any Text.isNameChar = false) : EndsName cs := by
  intro c hc
  obtain ⟨more, rfl⟩ : ∃ more, cs = c :: more := List.head?_eq_some_iff.mp hc
  rw [← Bool.not_eq_true]
  intro hname
  have hsolid : Text.isBlank c = false := Text.isBlank_of_isNameChar hname
  have hmem : c ∈ chars := h c (front_of_dropBlanks (Text.dropBlanks_cons hsolid))
  rw [List.any_eq_true.mpr ⟨c, hmem, hname⟩] at hchars
  cases hchars

end GoesOn

/-- What stands behind a tree. -/
def behindTree : List Char := [',', ')']

/-- What stands behind a field and its limit. -/
def behindLimit : List Char := ['(', '.', ',', ')']

/-- What stands behind the name of a field. -/
def behindName : List Char := ['[', '(', '.', ',', ')']

theorem endsNumber_of_dropBlanks {cs rest : List Char} {c : Char}
    (h : Text.dropBlanks cs = c :: rest) (hname : Text.isNameChar c = false) (hpoint : c ≠ '.') :
    EndsNumber cs := by
  cases cs with
  | nil => cases h
  | cons d more =>
    cases hblank : Text.isBlank d with
    | true => exact endsNumber_blank hblank
    | false =>
      rw [Text.dropBlanks_cons hblank] at h
      cases h
      exact endsNumber_of_front hname hpoint

/-! ## Texts of trees are accepted -/

/-- The limit of a field. -/
def limitRule : PartRule :=
  .sequence [hidden "[", .required .number "a limit", .required (hidden "]") "']'"]

/-- A filter of a field. -/
def filterRule : PartRule := .sequence [hidden ".", Language.whereBlock]

/-- The fields below another one in parentheses. -/
def enclosedRule : PartRule :=
  .sequence [hidden "(", .action .childrenStart,
    .required (.nonterminal .fieldList) "a field list", .required (hidden ")") "')'",
    .action .childrenEnd]

/-- The field below another one behind a point. -/
def dottedRule : PartRule :=
  .sequence [hidden ".", .action .childrenStart, .required (.nonterminal .fieldItem) "a field",
    .action .childrenEnd]

section Texts

variable {tree : FieldTree} {trees : List FieldTree} {limit : Option UInt64}
  {cs behind rest : List Char}

theorem WritesBelow.goesOn (h : WritesBelow trees cs rest) (hrest : GoesOn behindTree rest) :
    GoesOn behindLimit cs := by
  cases h with
  | nothing => exact hrest.mono (by decide)
  | enclosed hopen _ _ => exact goesOn_of_dropBlanks hopen (by decide)
  | dotted hpoint _ => exact goesOn_of_dropBlanks hpoint (by decide)

theorem WritesLimit.goesOn (h : WritesLimit limit cs rest) (hrest : GoesOn behindLimit rest) :
    GoesOn behindName cs := by
  cases h with
  | nothing => exact hrest.mono (by decide)
  | limit hopen _ _ => exact goesOn_of_dropBlanks hopen (by decide)

theorem WritesLimit.accepts (h : WritesLimit limit cs rest) (hrest : GoesOn behindLimit rest) :
    Accepts Part.body (.optional limitRule) cs rest
      (limit.toList.map fun n => (.number, toString n.toNat)) := by
  cases h with
  | nothing =>
    exact Accepts.optionalNone
      (Rejects.seqHead (Rejects.literalOf '[' rfl (hrest.front_ne (by decide))))
  | @limit n cs inside close rest hopen hnumber hclose =>
    have hends : EndsNumber close := endsNumber_of_dropBlanks hclose (by decide) (by decide)
    have hdigits : Accepts Part.body .number inside close
        [(.number, String.ofList (toString n.toNat).toList)] :=
      Accepts.number hnumber (toString_isNumber n.toNat) hends
    rw [String.ofList_toList] at hdigits
    exact Accepts.optionalSome (Accepts.seq (Accepts.hidden hopen)
      (Accepts.seq (Accepts.required hdigits)
        (Accepts.seq (Accepts.required (Accepts.hidden hclose)) Accepts.seqNil)))

/-- No filter begins like a tree. -/
theorem WritesTree.rejectsWhere (h : WritesTree tree cs rest) (hrest : GoesOn behindTree rest) :
    Rejects Part.body Language.whereBlock cs := by
  cases h with
  | star h => exact rejects_of_front 0 (front_of_dropBlanks h) (by decide)
  | @field name limit children cs behind below rest hname hlimit hbelow =>
    have hends : EndsName behind :=
      (hlimit.goesOn (hbelow.goesOn hrest)).endsName (by decide)
    exact Rejects.seqHead (Rejects.silent
      (Rejects.reserved hname name.isWord hends (capital_of rfl) (by decide)))

theorem WritesBelow.rejectsFilter (h : WritesBelow trees cs rest) (hrest : GoesOn behindTree rest) :
    Rejects Part.body filterRule cs := by
  cases h with
  | nothing => exact Rejects.seqHead (Rejects.literalOf '.' rfl (hrest.front_ne (by decide)))
  | enclosed hopen _ _ =>
    refine Rejects.seqHead (Rejects.literalOf '.' rfl ?_)
    rw [front_of_dropBlanks hopen]
    decide
  | dotted hpoint h =>
    -- A point may begin a filter as well, so the field behind it has to tell them apart.
    exact Rejects.seqTail (Accepts.hidden hpoint) (Rejects.seqHead (h.rejectsWhere hrest))

/-- The text of some trees is accepted one by one. -/
inductive AcceptsTrees : List FieldTree → List Char → List Char → Prop
  | intro {first : FieldTree} {others : List FieldTree} {cs mid rest : List Char}
    (hfirst : Accepts Part.body (.nonterminal .fieldItem) cs mid first.lexemes)
    (hothers : Repeats (listStep Part.body (.nonterminal .fieldItem) (symbol ",")) mid rest
      (FieldTree.moreLexemes others)) : AcceptsTrees (first :: others) cs rest

/-- One more tree stands in front of the others. -/
theorem AcceptsTrees.more {next : List Char}
    (hone : Accepts Part.body (.nonterminal .fieldItem) cs behind tree.lexemes)
    (hcomma : Text.dropBlanks behind = ',' :: next) (h : AcceptsTrees trees next rest) :
    AcceptsTrees (tree :: trees) cs rest := by
  cases h with
  | @intro first others _ mid _ hfirst hothers =>
    have hitem : Accepts Part.body (.sequence [symbol ",", .nonterminal .fieldItem]) behind mid
        ((.symbol, ",") :: (first.lexemes ++ [])) :=
      Accepts.seq (Accepts.symbol hcomma) (Accepts.seq hfirst Accepts.seqNil)
    have hless : mid.length < behind.length := by
      obtain ⟨read, rfl⟩ := hfirst.split
      have hdropped : (Text.dropBlanks behind).length ≤ behind.length :=
        (List.dropWhile_suffix _).length_le
      rw [hcomma, List.length_cons, List.length_append] at hdropped
      omega
    have hmore := Repeats.listMore hitem hless hothers
    rw [List.append_nil, List.cons_append] at hmore
    exact .intro hone hmore

theorem AcceptsTrees.fieldList (h : AcceptsTrees (tree :: trees) cs rest) :
    Accepts Part.body (.nonterminal .fieldList) cs rest
      (tree.lexemes ++ FieldTree.moreLexemes trees) := by
  cases h with
  | intro hfirst hothers => exact Accepts.nonterminal (Accepts.list hfirst hothers)

end Texts

mutual

/-- A text of a tree is accepted with its log. -/
theorem WritesTree.accepts : ∀ {tree : FieldTree} {cs rest : List Char}, WritesTree tree cs rest →
    GoesOn behindTree rest → Accepts Part.body (.nonterminal .fieldItem) cs rest tree.lexemes
  | _, _, _, .star h, _ => by
    rw [FieldTree.lexemes]
    exact Accepts.nonterminal (Accepts.choiceHead (Accepts.symbol h))
  | _, _, _, @WritesTree.field name limit children cs behind below rest hname hlimit hbelow,
      hrest => by
    -- From the end of the text backwards: what follows a part shows that the part ends there.
    have hlimitEnd : GoesOn behindLimit below := hbelow.goesOn hrest
    have hnameEnd : EndsName behind := (hlimit.goesOn hlimitEnd).endsName (by decide)
    have hfilters := Accepts.manyNone (hbelow.rejectsFilter hrest)
    have hall := Accepts.seq (Accepts.word hname name.isWord hnameEnd)
      (Accepts.seq (hlimit.accepts hlimitEnd)
        (Accepts.seq hfilters (Accepts.seq (hbelow.accepts hrest) Accepts.seqNil)))
    rw [List.append_nil, List.nil_append, List.singleton_append] at hall
    rw [FieldTree.lexemes]
    exact Accepts.nonterminal (Accepts.choiceTail (Rejects.starOnName hname name.isWord)
      (Accepts.choiceHead hall))

/-- A text of the fields below another one is accepted between markers, in either notation. -/
theorem WritesBelow.accepts : ∀ {trees : List FieldTree} {cs rest : List Char},
    WritesBelow trees cs rest → GoesOn behindTree rest →
    Accepts Part.body (.optional (.choice [enclosedRule, dottedRule])) cs rest
      (FieldTree.belowLexemes trees)
  | _, _, _, .nothing, hrest => by
    have henclosed : Rejects Part.body enclosedRule _ :=
      Rejects.seqHead (Rejects.literalOf '(' rfl (hrest.front_ne (by decide)))
    have hdotted : Rejects Part.body dottedRule _ :=
      Rejects.seqHead (Rejects.literalOf '.' rfl (hrest.front_ne (by decide)))
    rw [FieldTree.belowLexemes]
    exact Accepts.optionalNone
      (Rejects.choiceCons henclosed (Rejects.choiceCons hdotted Rejects.choiceNil))
  | _, _, _, @WritesBelow.enclosed trees cs inside close rest hopen h hclose, _ => by
    have hinside := h.accepts (goesOn_of_dropBlanks hclose (List.mem_singleton.mpr rfl))
    obtain ⟨first, others, rfl⟩ : ∃ first others, trees = first :: others := by
      cases hinside with
      | intro => exact ⟨_, _, rfl⟩
    have hall : Accepts Part.body enclosedRule cs rest _ :=
      Accepts.seq (Accepts.hidden hopen) (Accepts.seq Accepts.action
        (Accepts.seq (Accepts.required hinside.fieldList)
          (Accepts.seq (Accepts.required (Accepts.hidden hclose))
            (Accepts.seq Accepts.action Accepts.seqNil))))
    rw [FieldTree.belowLexemes]
    exact Accepts.optionalSome (Accepts.choiceHead (by simpa using hall))
  | _, _, _, @WritesBelow.dotted tree cs inside rest hpoint h, hrest => by
    have henclosed : Rejects Part.body enclosedRule cs := by
      refine Rejects.seqHead (Rejects.literalOf '(' rfl ?_)
      rw [front_of_dropBlanks hpoint]
      decide
    have hall : Accepts Part.body dottedRule cs rest _ :=
      Accepts.seq (Accepts.hidden hpoint) (Accepts.seq Accepts.action
        (Accepts.seq (Accepts.required (h.accepts hrest))
          (Accepts.seq Accepts.action Accepts.seqNil)))
    simp only [FieldTree.belowLexemes, FieldTree.moreLexemes]
    exact Accepts.optionalSome (Accepts.choiceTail henclosed
      (Accepts.choiceHead (by simpa using hall)))

/-- A text of some trees is accepted one by one up to a closing parenthesis or the end. -/
theorem WritesTrees.accepts : ∀ {trees : List FieldTree} {cs rest : List Char},
    WritesTrees trees cs rest → GoesOn [')'] rest → AcceptsTrees trees cs rest
  | _, _, _, @WritesTrees.last tree cs rest h, hrest => by
    have hone := h.accepts (hrest.mono (by decide))
    have hnone : Rejects Part.body (.sequence [symbol ",", .nonterminal .fieldItem]) rest :=
      Rejects.seqHead (Rejects.literalOf ',' rfl (hrest.front_ne (by decide)))
    exact .intro hone (Repeats.listNone hnone)
  | _, _, _, .more h hcomma hmore, hrest =>
    AcceptsTrees.more (h.accepts (goesOn_of_dropBlanks hcomma (by decide))) hcomma
      (hmore.accepts hrest)

end

/-! ## Every tree has a text -/

theorem WritesLimit.exists_front (limit : Option UInt64) (rest : List Char) :
    ∃ cs, WritesLimit limit cs rest := by
  cases limit with
  | none => exact ⟨rest, .nothing⟩
  | some n =>
    refine ⟨'[' :: ((toString n.toNat).toList ++ ']' :: rest), ?_⟩
    exact .limit (Text.dropBlanks_cons (by decide)) ((count_isValue n.toNat).solid _)
      (Text.dropBlanks_cons (by decide))

mutual

/-- A tree has a text in front of anything. -/
theorem WritesTree.exists_front : ∀ (tree : FieldTree) (rest : List Char),
    ∃ cs, WritesTree tree cs rest
  | .star, rest => ⟨'*' :: rest, .star (Text.dropBlanks_cons (by decide))⟩
  | .field name limit children, rest => by
    obtain ⟨below, hbelow⟩ := WritesBelow.exists_front children rest
    obtain ⟨behind, hlimit⟩ := WritesLimit.exists_front limit below
    exact ⟨name.text.toList ++ behind, .field (name.isWord.dropBlanks behind) hlimit hbelow⟩

theorem WritesBelow.exists_front : ∀ (trees : List FieldTree) (rest : List Char),
    ∃ cs, WritesBelow trees cs rest
  | [], rest => ⟨rest, .nothing⟩
  | tree :: trees, rest => by
    obtain ⟨inside, hinside⟩ :=
      WritesTrees.exists_front (tree :: trees) (List.cons_ne_nil tree trees) (')' :: rest)
    refine ⟨'(' :: inside, .enclosed (Text.dropBlanks_cons (by decide)) hinside ?_⟩
    exact Text.dropBlanks_cons (by decide)

/-- Some trees have a text in front of anything, unless there are none. -/
theorem WritesTrees.exists_front : ∀ (trees : List FieldTree), trees ≠ [] →
    ∀ rest : List Char, ∃ cs, WritesTrees trees cs rest
  | [], hne, _ => absurd rfl hne
  | [tree], _, rest => by
    obtain ⟨cs, hcs⟩ := WritesTree.exists_front tree rest
    exact ⟨cs, .last hcs⟩
  | tree :: next :: trees, _, rest => by
    obtain ⟨more, hmore⟩ :=
      WritesTrees.exists_front (next :: trees) (List.cons_ne_nil next trees) rest
    obtain ⟨cs, hcs⟩ := WritesTree.exists_front tree (',' :: more)
    exact ⟨cs, .more hcs (Text.dropBlanks_cons (by decide)) hmore⟩

end

theorem WritesTree.solid {tree : FieldTree} {cs rest : List Char} (h : WritesTree tree cs rest) :
    Text.dropBlanks cs ≠ [] := by
  cases h with
  | star h =>
    rw [h]
    exact List.cons_ne_nil _ _
  | @field name limit children cs behind below rest hname hlimit hbelow =>
    rw [hname]
    exact List.append_ne_nil_of_left_ne_nil name.isWord.nonempty behind

/-- A text with some trees at its front is not blank. -/
theorem WritesTrees.not_blank {trees : List FieldTree} {text : String} {rest : List Char}
    (h : WritesTrees trees text.toList rest) : Text.isBlankText text = false := by
  have hsolid : Text.dropBlanks text.toList ≠ [] := by
    cases h with
    | last h => exact h.solid
    | more h _ _ => exact h.solid
  rw [Text.isBlankText, ← Bool.not_eq_true, List.all_eq_true]
  intro hall
  have hdropped := dropBlanks_gap hall []
  rw [List.append_nil] at hdropped
  exact hsolid hdropped

end Rule

/-! ## Trees are read from their texts -/

namespace FieldTree

open Rule (WritesTree WritesTrees)

/-- The text is read as the trees within the limits of the settings. -/
def ReadFrom (trees : List FieldTree) (settings : Settings) (text : String) : Prop :=
  ∃ tokens read, TokenLog.ofText settings .fieldSet text = .ok tokens ∧
    FieldNode.ofTokens tokens = .ok read ∧ FieldNode.unplacedAll read = nodes trees

/-- Some trees have a text, and each text of them, in any mixture of the two notations, is read as
these trees, unless a limit refuses it. -/
theorem field_sets_keep_nesting (first : FieldTree) (others : List FieldTree) :
    (∃ text : String, WritesTrees (first :: others) text.toList []) ∧
    ∀ text : String, WritesTrees (first :: others) text.toList [] →
      (∃ enough, ∀ settings : Settings, enough ≤ settings.maxLength →
        enough ≤ settings.maxNesting → ReadFrom (first :: others) settings text) ∧
      ∀ settings : Settings, Unlimited (TokenLog.ofText settings .fieldSet text) →
        ReadFrom (first :: others) settings text := by
  refine ⟨?_, fun text htext => ?_⟩
  · obtain ⟨cs, hcs⟩ := WritesTrees.exists_front (first :: others) (List.cons_ne_nil _ _) []
    exact ⟨String.ofList cs, by rwa [String.toList_ofList]⟩
  · have haccepts : Rule.Accepts Part.body ExpressionKind.fieldSet.rule text.toList [] _ :=
      (htext.accepts (Rule.goesOn_nil _)).fieldList
    have hread : ∀ settings : Settings, (∃ tokens,
        tokens.map Token.lexeme = first.lexemes ++ moreLexemes others ∧
          TokenLog.ofText settings .fieldSet text = .ok tokens) →
        ReadFrom (first :: others) settings text := by
      intro settings hlog
      obtain ⟨tokens, hlexemes, hlog⟩ := hlog
      obtain ⟨read, hread, hnodes⟩ := collect_trees first others hlexemes
      exact ⟨tokens, read, hlog, hread, hnodes⟩
    refine ⟨?_, fun settings hlimit => ?_⟩
    · obtain ⟨enough, henough⟩ := TokenLog.ofText_of_accepts htext.not_blank haccepts
      exact ⟨enough, fun settings hlength hnesting =>
        hread settings (henough settings hlength hnesting)⟩
    · exact hread settings (TokenLog.ofText_accepted htext.not_blank haccepts hlimit)

/-- The field of a name. -/
def nameField : FieldTree :=
  .field ⟨"Name", by decide, by decide +kernel, by decide +kernel⟩ none []

/-- The field of a boss. -/
def bossField : Option UInt64 → List FieldTree → FieldTree :=
  .field ⟨"Boss", by decide, by decide +kernel, by decide +kernel⟩

/-- Two bosses with their names and the bosses of their bosses, in both notations. -/
theorem field_sets_keep_nesting_bosses :
    ReadFrom [nameField, bossField (some 2) [nameField, bossField none [bossField none [.star]],
      .star]] (.standard ⟨0, 0, 0⟩) "Name, Boss[2](Name, Boss.Boss(*), *)" := by
  have htext : WritesTrees [nameField, bossField (some 2) [nameField,
      bossField none [bossField none [.star]], .star]]
      "Name, Boss[2](Name, Boss.Boss(*), *)".toList [] :=
    .more (.field rfl .nothing .nothing) rfl (.last (.field rfl (.limit rfl rfl rfl)
      (.enclosed rfl (.more (.field rfl .nothing .nothing) rfl
        (.more (.field rfl .nothing (.dotted rfl
          (.field rfl .nothing (.enclosed rfl (.last (.star rfl)) rfl)))) rfl
            (.last (.star rfl)))) rfl)))
  have hok : (TokenLog.ofText (.standard ⟨0, 0, 0⟩) .fieldSet
      "Name, Boss[2](Name, Boss.Boss(*), *)").isOk = true := by decide +kernel
  refine ((field_sets_keep_nesting _ _).2 _ htext).2 _ fun e hrefused => ?_
  rw [hrefused] at hok
  cases hok

end FieldTree

end LinkQuery
