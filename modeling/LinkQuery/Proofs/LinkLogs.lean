import LinkQuery.Proofs.LinkTexts
import LinkQuery.Proofs.Settled
/-!
# Logs of links with a filter

A link with a filter is an entry of a field set, and a grouping. Both texts have the log of the
filter in a block of their own log, and what is built from it is the tree of the filter, before it
is settled.

Main statements:
- `TokenLog.fieldText_lexemes`, `TokenLog.groupingText_lexemes`: the logs of a link with a filter.
- `FieldSet.build_link`, `Grouping.build_link`: what these logs build.
-/
namespace LinkQuery

open Language (Part)
open Rule (Accepts Halts IsWord blockLexemes pathLexemes)

/-- A link with a filter, as a field set. -/
def fieldText (link filter : String) : String :=
  link ++ ".WHERE(" ++ filter ++ ")"

/-- A link with a filter, as a grouping. -/
def groupingText (link filter : String) : String :=
  link ++ " WHERE(" ++ filter ++ ")"

/-! ## Logs -/

/-- A text that begins with a name is not blank. -/
theorem Rule.IsWord.not_blank {name text : String} {rest : List Char} (h : IsWord name)
    (htext : text.toList = name.toList ++ rest) : Text.isBlankText text = false := by
  obtain ⟨first, more, hname, hstart, -⟩ := h.starts
  rw [Text.isBlankText, htext, hname, List.cons_append, List.all_cons,
    Text.isBlank_of_isNameStart hstart, Bool.false_and]

namespace TokenLog

variable {settings : Settings} {kind : ExpressionKind} {link text whole : String}
  {cs : List Char} {wrap : List Lexeme → List Lexeme}

/-- The lexemes of an expression, unless it is refused. -/
def lexemes? (settings : Settings) (kind : ExpressionKind) (text : String) : Option (List Lexeme) :=
  (ofText settings kind text).toOption.map (·.map Token.lexeme)

theorem lexemes?_of_ok {tokens : List Token} (h : ofText settings kind text = .ok tokens) :
    lexemes? settings kind text = some (tokens.map Token.lexeme) := by
  rw [lexemes?, h]
  rfl

theorem lexemes?_of_error {why : QueryError} (h : ofText settings kind text = .error why) :
    lexemes? settings kind text = none := by
  rw [lexemes?, h]
  rfl

/-- Where the log of a filter stands in a block of a longer text, that text has a log if the filter
has one, unless a limit is in the way. -/
theorem lexemes?_around (hcs : Text.dropBlanks cs = "WHERE(".toList ++ (text.toList ++ [')']))
    (hblank : Text.isBlankText text = false) (hpaired : Rule.closes none 0 text.toList = true)
    (hfilter : Unlimited (ofText settings .filter text)) (hwhole : Text.isBlankText whole = false)
    (haccepts : ∀ l, Accepts Part.body Language.whereBlock cs [] (blockLexemes l) →
      Accepts Part.body kind.rule whole.toList [] (wrap l))
    (hhalts : Halts Part.body Language.whereBlock cs → Halts Part.body kind.rule whole.toList)
    (hlimit : Unlimited (ofText settings kind whole)) :
    lexemes? settings kind whole = (lexemes? settings .filter text).map wrap := by
  rcases block_of_filter hcs hblank hpaired hfilter with
    ⟨tokens, htokens, hblock⟩ | ⟨⟨e, he⟩, hhalt⟩
  · obtain ⟨others, hsame, hothers⟩ := ofText_accepted hwhole (haccepts _ hblock) hlimit
    rw [lexemes?_of_ok htokens, lexemes?_of_ok hothers, hsame]
    rfl
  · obtain ⟨e', he'⟩ := ofText_halted hwhole (hhalts hhalt) hlimit
    rw [lexemes?_of_error he, lexemes?_of_error he']
    rfl

section Links

variable (hlink : IsWord link) (hblank : Text.isBlankText text = false)
  (hpaired : Rule.closes none 0 text.toList = true)
  (hfilter : Unlimited (ofText settings .filter text))
include hlink hblank hpaired hfilter

theorem fieldText_lexemes (hlimit : Unlimited (ofText settings .fieldSet (fieldText link text))) :
    lexemes? settings .fieldSet (fieldText link text) =
      (lexemes? settings .filter text).map fun l => (.word, link) :: blockLexemes l := by
  have htext : (fieldText link text).toList =
      link.toList ++ '.' :: ("WHERE(".toList ++ (text.toList ++ [')'])) := by
    simp [fieldText]
  have hcs : Text.dropBlanks ("WHERE(".toList ++ (text.toList ++ [')'])) =
      "WHERE(".toList ++ (text.toList ++ [')']) := rfl
  refine lexemes?_around hcs hblank hpaired hfilter (hlink.not_blank htext) (fun l h => ?_)
    (fun h => ?_) hlimit
  · rw [htext]
    exact Accepts.linkField hlink h
  · rw [htext]
    exact Halts.linkField hlink h

theorem groupingText_lexemes
    (hlimit : Unlimited (ofText settings .aggregationGroup (groupingText link text))) :
    lexemes? settings .aggregationGroup (groupingText link text) =
      (lexemes? settings .filter text).map
        fun l => pathLexemes ((.word, link) :: blockLexemes l) := by
  have htext : (groupingText link text).toList =
      link.toList ++ ' ' :: ("WHERE(".toList ++ (text.toList ++ [')'])) := by
    simp [groupingText]
  have hcs : Text.dropBlanks (' ' :: ("WHERE(".toList ++ (text.toList ++ [')']))) =
      "WHERE(".toList ++ (text.toList ++ [')']) := rfl
  refine lexemes?_around hcs hblank hpaired hfilter (hlink.not_blank htext) (fun l h => ?_)
    (fun h => ?_) hlimit
  · rw [htext]
    exact Accepts.linkGrouping hlink (Rule.endsName_of_front (by decide)) rfl h
  · rw [htext]
    exact Halts.linkGrouping hlink (Rule.endsName_of_front (by decide)) rfl h

end Links

end TokenLog

/-! ## Tokens of lexemes -/

section Tokens

variable {tokens : List Token} {l : List Lexeme}

theorem tokens_of_cons {x : Lexeme} (h : tokens.map Token.lexeme = x :: l) :
    ∃ p rest, tokens = ⟨x.1, x.2, p⟩ :: rest ∧ rest.map Token.lexeme = l := by
  obtain ⟨t, rest, rfl, rfl, hrest⟩ := List.map_eq_cons_iff.mp h
  exact ⟨t.position, rest, rfl, hrest⟩

theorem tokens_of_enclosed {a b : Lexeme} (h : tokens.map Token.lexeme = a :: (l ++ [b])) :
    ∃ p inside q, tokens = ⟨a.1, a.2, p⟩ :: (inside ++ [⟨b.1, b.2, q⟩]) ∧
      inside.map Token.lexeme = l := by
  obtain ⟨p, rest, rfl, hrest⟩ := tokens_of_cons h
  obtain ⟨inside, last, rfl, hinside, hlast⟩ := List.map_eq_append_iff.mp hrest
  obtain ⟨q, behind, rfl, hbehind⟩ := tokens_of_cons hlast
  obtain rfl : behind = [] := by simpa using hbehind
  exact ⟨p, inside, q, rfl, hinside⟩

end Tokens

/-! ## Single filters -/

/-- A log of a filter is one wherever its tokens stand. -/
theorem Path.FilterLog.moved {a b : List Token} (ha : Path.FilterLog a)
    (h : a.map Token.lexeme = b.map Token.lexeme) : Path.FilterLog b := by
  obtain ⟨n, hn⟩ := ha
  exact ⟨n, Rule.generates_movable Part.body n .filter a b h hn⟩

theorem Query.WellFormed.and_singleton {schema : Schema} {good : Time.Timestamp → Prop}
    {table : String} {q : Query} (h : q.WellFormed schema good table) : Query.and [q] = q := by
  cases q with
  | allOf children =>
    have hsame : Query.conjuncts [.allOf children] = Query.conjuncts children := by
      rw [Query.conjuncts_eq h.2.1]
      simp [Query.conjuncts]
    have hand : Query.and [.allOf children] = Query.and children := by
      rw [Query.and, Query.and, hsame]
    exact hand.trans (Query.and_eq_allOf h.1 h.2.1)
  | _ => rfl

namespace Filter

variable {scope : Scope} {table : String}

/-- The tree of a single log. -/
theorem buildAll_singleton {block : List Token} (h : Path.FilterLog block) :
    buildAll scope table [block] = (buildIn scope table block).map some := by
  have hwell := @buildIn_yields scope table _ _ scope.clock.shows_any h
  unfold buildAll allFilters
  rw [List.mapM_cons, List.mapM_nil]
  cases hbuild : buildIn scope table block with
  | error why => rfl
  | ok q =>
    have hsingle := (hwell.of_ok hbuild).and_singleton
    show Except.ok (some (Query.and [q])) = _
    rw [hsingle]
    rfl

theorem buildIn_of_lexemes {a b : List Token} (h : a.map Token.lexeme = b.map Token.lexeme) :
    (buildIn scope table a).toOption = (buildIn scope table b).toOption := by
  rw [← buildIn_unplaced a, ← buildIn_unplaced b, unplaced_of_lexemes h, unplaced_of_lexemes rfl]

end Filter

/-! ## Field sets -/

namespace FieldSet

open LinkQuery.Filter (Scope buildIn buildAll_singleton)

/-- The field set of one link with a filter. -/
def ofLink (name : String) (kind : FieldKind) (filter : Option Query) : FieldSet :=
  ⟨[.field name kind none filter []]⟩

variable {scope : Scope} {table link target : String} {block : List Token}

/-- The log of a link with a filter, as a field set. -/
theorem build_link (p q r : Nat) (hlink : IsWord link)
    (hlead : scope.schema.LeadsTo table link target) (hblock : Path.FilterLog block) :
    build scope table (⟨.word, link, p⟩ :: ⟨.marker .whereStart, "", q⟩ ::
        (block ++ [⟨.marker .whereEnd, "", r⟩])) =
      (buildIn scope target block).map fun tree =>
        some (.ofLink link (scope.schema.fieldKind table link) (some tree)) := by
  obtain ⟨role, hrole, htarget, -, hkind⟩ := Schema.role_of_leadsTo hlead
  have hname : (link == "*") = false := by
    rw [beq_eq_false_iff_ne]
    rintro rfl
    have hwhole := hlink.whole
    revert hwhole
    decide
  have htake := Block.take?_balanced hblock.balanced r []
  have hnodes : FieldNode.ofTokens (⟨.word, link, p⟩ :: ⟨.marker .whereStart, "", q⟩ ::
      (block ++ [⟨.marker .whereEnd, "", r⟩])) = .ok [.node link p none [block] []] := by
    unfold FieldNode.ofTokens
    rw [FieldNode.collect_word, FieldNode.collect_block [] [] _ [] q htake,
      FieldNode.collect.eq_def]
    rfl
  have hcheck : checkField role link none [block] = .ok () := by
    have hislink : role.kind.isLink = true := hkind ▸ hlead.1
    simp [checkField, hislink]
  have hitem : item scope table (.node link p none [block] []) =
      (buildIn scope target block).map fun tree =>
        .field link (scope.schema.fieldKind table link) none (some tree) [] := by
    rw [item, hname, ← hkind]
    show (scope.schema.role table link >>= _) = _
    rw [hrole]
    show (checkField role link none [block] >>= _) = _
    rw [hcheck]
    show (linkFilter scope role [block] >>= _) = _
    rw [linkFilter, htarget]
    show (Filter.buildAll scope target [block] >>= _) = _
    rw [buildAll_singleton hblock]
    cases buildIn scope target block <;> rfl
  unfold build
  rw [hnodes]
  show ([FieldNode.node link p none [block] []].mapM (item scope table) >>= _) = _
  rw [List.mapM_cons, List.mapM_nil, hitem]
  cases buildIn scope target block <;> rfl

end FieldSet

/-! ## Groupings -/

namespace Grouping

open ElementReader LinkQuery.Filter

variable {scope : Scope} {base : Option Query} {table : String}

theorem item_path (p : Path) : item scope base table [.path p] =
    (ofPath scope base table p).map fun g => (g, []) := by
  have hselections : selections [.path p] = .ok ([], [.path p]) := loop_finished rfl
  have hmodifiers : ∀ g, modifiers scope.clock g [] = .ok (g, []) := fun g => loop_finished rfl
  show (selections [.path p] >>= _) = _
  rw [hselections]
  show ((lift (ofPath scope base table p) [] >>= fun found =>
    modifiers scope.clock found.1 found.2) >>= _) = _
  unfold lift
  cases ofPath scope base table p with
  | error why => rfl
  | ok g =>
    show (modifiers scope.clock g [] >>= _) = _
    rw [hmodifiers]
    rfl

theorem setOrLevel_path (p : Path) (s : Sets) :
    setOrLevel (item scope base table) s [.path p] =
      (ofPath scope base table p).map fun g => (s.addBare g, []) := by
  show (item scope base table [.path p] >>= _) = _
  rw [item_path]
  cases ofPath scope base table p <;> rfl

theorem build_path {tokens : List Token} {p : Path}
    (h : Element.ofTokens .list tokens = .ok [.path p]) :
    build scope base table tokens = (ofPath scope base table p).map fun g => [⟨[g]⟩] := by
  unfold build run
  rw [h]
  have hread : untilEnd (setOrLevel (item scope base table)) ⟨[], none⟩ [.path p] =
      (ofPath scope base table p).map fun g => (Sets.addBare ⟨[], none⟩ g, []) := by
    have hstep := @setOrLevel_path scope base table p ⟨[], none⟩
    cases hg : ofPath scope base table p with
    | error why =>
      rw [hg] at hstep
      exact untilEnd_error hstep (by simp)
    | ok g =>
      rw [hg] at hstep
      exact (untilEnd_more (a := [.path p]) hstep (by simp)).trans untilEnd_nil
  show ((untilEnd _ _ [.path p] >>= _) >>= _) = _
  rw [hread]
  cases ofPath scope base table p <;> rfl

/-- The level of a link with a filter, under the filter of the objects that reach it. -/
theorem ofPath_link {link target : String} {block : List Token} (p : Nat)
    (hlead : scope.schema.LeadsTo table link target) (hblock : Path.FilterLog block) :
    ofPath scope none table ⟨(Segment.named link p).filteredBy block, []⟩ =
      (buildIn scope target block).map fun tree =>
        ofItems [] ⟨link, scope.schema.fieldKind table link, some tree, []⟩
          (some (.link .any link (some tree) none)) := by
  obtain ⟨role, hrole, hlinks, htarget, hkind⟩ := Schema.role_of_leadsTo hlead
  have hislink : role.kind.isLink = true := hkind ▸ hlead.1
  have hresolve : scope.schema.resolve table ⟨(Segment.named link p).filteredBy block, []⟩ =
      .ok ⟨[], ⟨(Segment.named link p).filteredBy block, table, role⟩⟩ := by
    have hsegment : scope.schema.resolveSegment table ((Segment.named link p).filteredBy block)
        false = .ok role := Schema.resolveSegment_once rfl hrole
    unfold Schema.resolve Schema.resolveFrom
    show (scope.schema.resolveSegment table _ false >>= _) = _
    rw [hsegment]
    rfl
  have hfilter : itemFilter scope ⟨(Segment.named link p).filteredBy block, table, role⟩ =
      (buildIn scope target block).map some := by
    rw [← buildAll_singleton hblock, itemFilter, htarget]
    rfl
  have hitem : itemOf scope ⟨(Segment.named link p).filteredBy block, table, role⟩ =
      (buildIn scope target block).map fun tree => ⟨link, role.kind, some tree, []⟩ := by
    unfold itemOf
    rw [hfilter]
    cases role with
    | link other | crossLink other => cases buildIn scope target block <;> rfl
    | scalar type | multiValued type | group other | system => cases hislink
  have hchain : ∀ tree, groupingFilter none [⟨link, role.kind, some tree, []⟩] =
      some (.link .any link (some tree) none) := by
    intro tree
    cases role with
    | link other | crossLink other => rfl
    | scalar type | multiValued type | group other | system => cases hislink
  unfold ofPath
  show (scope.schema.resolve table _ >>= _) = _
  rw [hresolve]
  show (itemOf scope ⟨(Segment.named link p).filteredBy block, table, role⟩ >>= _) = _
  rw [hitem, ← hkind]
  cases buildIn scope target block with
  | error why => rfl
  | ok tree =>
    show Except.ok (ofItems [] _ (groupingFilter none [_])) = _
    rw [hchain]
    rfl

end Grouping

/-- The grouping by one link with a filter. The objects that reach it pass `reached`. -/
def GroupingSet.ofLink (name : String) (kind : FieldKind) (filter reached : Option Query) :
    GroupingSet :=
  ⟨[.ofItems [] ⟨name, kind, filter, []⟩ (some (.link .any name reached none))]⟩

namespace Grouping

open LinkQuery.Filter

variable {scope : Scope} {table : String}

/-- The log of a link with a filter, as a grouping. -/
theorem build_link {link target : String} {block : List Token} (p q r s t : Nat)
    (hlead : scope.schema.LeadsTo table link target) (hblock : Path.FilterLog block) :
    build scope none table (⟨.marker .pathStart, "", p⟩ :: (⟨.word, link, q⟩ ::
        ⟨.marker .whereStart, "", r⟩ :: (block ++ [⟨.marker .whereEnd, "", s⟩]) ++
        [⟨.marker .pathEnd, "", t⟩])) =
      (buildIn scope target block).map fun tree =>
        [.ofLink link (scope.schema.fieldKind table link) (some tree) (some tree)] := by
  have htake := Block.take?_balanced hblock.balanced s [⟨.marker .pathEnd, "", t⟩]
  have hread : Path.read (⟨.word, link, q⟩ :: ⟨.marker .whereStart, "", r⟩ ::
      (block ++ [⟨.marker .whereEnd, "", s⟩]) ++ [⟨.marker .pathEnd, "", t⟩]) =
      .ok (⟨(Segment.named link q).filteredBy block, []⟩, []) := by
    have hsegments : Path.segmentsFrom [] [] (⟨.word, link, q⟩ :: ⟨.marker .whereStart, "", r⟩ ::
        (block ++ [⟨.marker .whereEnd, "", s⟩]) ++ [⟨.marker .pathEnd, "", t⟩]) =
        .ok ([(Segment.named link q).filteredBy block], []) := by
      rw [List.cons_append, List.cons_append, Path.segmentsFrom_word,
        Path.segmentsFrom_block [] [] _ [⟨.marker .pathEnd, "", t⟩] r (by simpa using htake),
        Path.segmentsFrom_pathEnd]
      rfl
    unfold Path.read
    rw [hsegments]
    rfl
  have helements : Element.ofTokens .list (⟨.marker .pathStart, "", p⟩ :: (⟨.word, link, q⟩ ::
        ⟨.marker .whereStart, "", r⟩ :: (block ++ [⟨.marker .whereEnd, "", s⟩]) ++
        [⟨.marker .pathEnd, "", t⟩])) =
      .ok [.path ⟨(Segment.named link q).filteredBy block, []⟩] := by
    unfold Element.ofTokens
    rw [Element.collect_path p hread, Element.collect]
    rfl
  rw [build_path helements, ofPath_link q hlead hblock]
  cases buildIn scope target block <;> rfl

end Grouping

end LinkQuery
