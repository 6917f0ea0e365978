import LinkQuery.Proofs.LinkLogs
/-!
# Filters of links

A filter alone is settled. Behind a link it is settled in some places only: a field set keeps the
tree that the filter has before, and so does the item of a grouping, while the filter of the level
is settled. So the three agree where settling changes nothing, and differ where it turns the
comparison of an identity into an identity test or refuses it.

Main statements:
- `Compiler.fieldSet_of_link`, `Compiler.groupings_of_link`: what a link with a filter compiles to.
- `Compiler.link_filters_agree`: where the filter is the one that is compiled alone.
-/
namespace LinkQuery

open Rule (IsWord)

/-- The log of a text that is not blank is a log of a filter. -/
theorem TokenLog.ofText_filterLog {settings : Settings} {text : String} {tokens : List Token}
    (hblank : Text.isBlankText text = false) (h : ofText settings .filter text = .ok tokens) :
    Path.FilterLog tokens := by
  unfold ofText at h
  rw [hblank] at h
  obtain ⟨_, -, hscan⟩ := bind_eq_ok h
  exact ⟨_, (scan_answers .filter settings.maxNesting text.toList).of_ok hscan⟩

namespace Compiler

variable {c : Compiler} {table target link text : String}

/-- The tree of a filter before it is settled. -/
def unsettled (c : Compiler) (table text : String) : Except QueryError Query := do
  let tokens ← c.log .filter text
  Filter.buildIn (← c.scope) table tokens

/-- A filter that is not blank is its tree, settled. -/
theorem filter_eq_settled (hblank : Text.isBlankText text = false) :
    c.filter table text = (c.unsettled table text >>= Query.settle c.schema table).map some := by
  unfold filter unsettled buildFilter
  cases hlog : c.log .filter text with
  | error why => rfl
  | ok tokens =>
    cases c.scope with
    | error why => rfl
    | ok scope =>
      show (Filter.build scope table tokens >>= _) =
        (Filter.buildIn scope table tokens >>= _).map some
      rw [Filter.build_of_filterLog (TokenLog.ofText_filterLog hblank hlog)]
      cases Filter.buildIn scope table tokens <;> rfl

/-- The tree of a filter that is not blank is well formed. -/
theorem unsettled_wellFormed {q : Query} (hblank : Text.isBlankText text = false)
    (h : c.unsettled table text = .ok q) : q.WellFormed c.schema (fun _ => True) table := by
  obtain ⟨tokens, htokens, h⟩ := bind_eq_ok h
  obtain ⟨scope, hscope, h⟩ := bind_eq_ok h
  rw [← c.scope_yields.of_ok hscope]
  exact (Filter.buildIn_yields scope.clock.shows_any
    (TokenLog.ofText_filterLog hblank htokens)).of_ok h

/-- What is built from a log around the one of a filter, if its lexemes alone tell how it goes on
from the tree of the filter. -/
theorem built_around {α : Type} {kind : ExpressionKind} {whole : String}
    {wrap : List Lexeme → List Lexeme} {build : Filter.Scope → List Token → Except QueryError α}
    {k : Query → Option α} (hblank : Text.isBlankText text = false)
    (hlexemes : TokenLog.lexemes? c.settings kind whole =
      (TokenLog.lexemes? c.settings .filter text).map wrap)
    (hbuild : ∀ scope tokens others, scope.schema = c.schema → Path.FilterLog tokens →
      others.map Token.lexeme = wrap (tokens.map Token.lexeme) →
      (build scope others).toOption = (Filter.buildIn scope target tokens).toOption.bind k) :
    (c.log kind whole >>= fun others => c.scope >>= fun scope => build scope others).toOption =
      (c.unsettled target text).toOption.bind k := by
  unfold unsettled
  cases hlog : c.log .filter text with
  | error why =>
    rw [TokenLog.lexemes?_of_error hlog] at hlexemes
    cases hwhole : c.log kind whole with
    | error why => rfl
    | ok others =>
      rw [TokenLog.lexemes?_of_ok hwhole] at hlexemes
      cases hlexemes
  | ok tokens =>
    rw [TokenLog.lexemes?_of_ok hlog] at hlexemes
    cases hwhole : c.log kind whole with
    | error why =>
      rw [TokenLog.lexemes?_of_error hwhole] at hlexemes
      cases hlexemes
    | ok others =>
      rw [TokenLog.lexemes?_of_ok hwhole] at hlexemes
      have hsame := Option.some.inj hlexemes
      cases hscope : c.scope with
      | error why => rfl
      | ok scope =>
        exact hbuild scope tokens others (c.scope_yields.of_ok hscope)
          (TokenLog.ofText_filterLog hblank hlog) hsame

/-- Settling the grouping by a link settles what reaches it, as a filter of its target. -/
theorem settleSet_link {kind : FieldKind} {filter : Option Query} {q : Query}
    (hlead : c.schema.LeadsTo table link target) :
    [GroupingSet.ofLink link kind filter (some q)].mapM (c.settleSet table) =
      (q.settle c.schema target).map fun settled => [.ofLink link kind filter (some settled)] := by
  have hsettle := Query.settle_link hlead .any q
  have hlevel : c.settleLevel table
      (.ofItems [] ⟨link, kind, filter, []⟩ (some (.link .any link (some q) none))) =
      (q.settle c.schema target).map fun settled =>
        .ofItems [] ⟨link, kind, filter, []⟩ (some (.link .any link (some settled) none)) := by
    unfold settleLevel
    show (some <$> Query.settle c.schema table (.link .any link (some q) none) >>= _) = _
    rw [hsettle]
    cases q.settle c.schema target <;> rfl
  have hset : c.settleSet table (.ofLink link kind filter (some q)) =
      (q.settle c.schema target).map fun settled => .ofLink link kind filter (some settled) := by
    unfold settleSet GroupingSet.ofLink
    rw [List.mapM_cons, List.mapM_nil, hlevel]
    cases q.settle c.schema target <;> rfl
  rw [List.mapM_cons, List.mapM_nil, hset]
  cases q.settle c.schema target <;> rfl

section Links

variable (hlink : IsWord link) (hlead : c.schema.LeadsTo table link target)
  (hblank : Text.isBlankText text = false) (hpaired : Rule.closes none 0 text.toList = true)
  (hfilter : Unlimited (c.log .filter text))
include hlink hlead hblank hpaired hfilter

/-- A link with a filter as a field set keeps the tree that the filter has before it is settled. -/
theorem fieldSet_of_link (hfield : Unlimited (c.log .fieldSet (fieldText link text))) :
    (c.fieldSet table (fieldText link text)).toOption =
      (c.unsettled target text).toOption.map fun q =>
        some (.ofLink link (c.schema.fieldKind table link) (some q)) := by
  have hlexemes := TokenLog.fieldText_lexemes hlink hblank hpaired hfilter hfield
  rw [Option.map_eq_bind]
  refine built_around hblank hlexemes fun scope tokens others hschema hlog hothers => ?_
  obtain ⟨p, rest, rfl, hrest⟩ := tokens_of_cons hothers
  obtain ⟨q, block, r, rfl, hblock⟩ := tokens_of_enclosed hrest
  rw [← hschema] at hlead ⊢
  rw [FieldSet.build_link p q r hlink hlead (hlog.moved hblock.symm)]
  rw [← Filter.buildIn_of_lexemes hblock]
  cases Filter.buildIn scope target block <;> rfl

/-- A link with a filter as a grouping keeps this tree for the link, where the filter of the level
is settled. -/
theorem groupings_of_link
    (hgroup : Unlimited (c.log .aggregationGroup (groupingText link text))) :
    (c.groupings table (groupingText link text)).toOption =
      (c.unsettled target text).toOption.bind fun q =>
        (q.settle c.schema target).toOption.map fun settled =>
          [.ofLink link (c.schema.fieldKind table link) (some q) (some settled)] := by
  have hlexemes := TokenLog.groupingText_lexemes hlink hblank hpaired hfilter hgroup
  have hbuilt : c.groupings table (groupingText link text) =
      (c.log .aggregationGroup (groupingText link text) >>= fun others => c.scope >>= fun scope =>
        Grouping.build scope none table others >>= fun sets => sets.mapM (c.settleSet table)) := by
    unfold groupings groupingsUnder buildGroupings
    simp only [bind_assoc]
  rw [hbuilt]
  refine built_around hblank hlexemes fun scope tokens others hschema hlog hothers => ?_
  obtain ⟨p, inside, t, rfl, hinside⟩ := tokens_of_enclosed hothers
  obtain ⟨q, rest, rfl, hrest⟩ := tokens_of_cons hinside
  obtain ⟨r, block, s, rfl, hblock⟩ := tokens_of_enclosed hrest
  have hscope : scope.schema.LeadsTo table link target := hschema ▸ hlead
  have hbuild := Grouping.build_link p q r s t hscope (hlog.moved hblock.symm)
  rw [hbuild, ← Filter.buildIn_of_lexemes hblock, hschema]
  cases Filter.buildIn scope target block with
  | error why => rfl
  | ok tree =>
    show ([GroupingSet.ofLink link _ (some tree) (some tree)].mapM (c.settleSet table)).toOption = _
    rw [settleSet_link hlead]
    cases hsettle : tree.settle c.schema target <;> simp [Except.toOption, Except.map, hsettle]

/--
One filter, alone and behind a link. A field set keeps the tree that the filter has before it is
settled, and so does the item of a grouping, where the filter of the level is settled. Both agree
with the filter alone, in what they accept and in the filter they keep, exactly where the filter
compares no identity of the objects behind the link.
-/
theorem link_filters_agree (hfield : Unlimited (c.log .fieldSet (fieldText link text)))
    (hgroup : Unlimited (c.log .aggregationGroup (groupingText link text))) :
    (c.fieldSet table (fieldText link text)).toOption =
      (c.unsettled target text).toOption.map
        (fun q => some (.ofLink link (c.schema.fieldKind table link) (some q))) ∧
    (c.groupings table (groupingText link text)).toOption =
      (c.unsettled target text).toOption.bind
        (fun q => (q.settle c.schema target).toOption.map fun settled =>
          [.ofLink link (c.schema.fieldKind table link) (some q) (some settled)]) ∧
    (((c.fieldSet table (fieldText link text)).toOption =
        (c.filter target text).toOption.map
          (fun found => some (.ofLink link (c.schema.fieldKind table link) found)) ∧
      (c.groupings table (groupingText link text)).toOption =
        (c.filter target text).toOption.map
          (fun found => [.ofLink link (c.schema.fieldKind table link) found found])) ↔
      ∀ q, c.unsettled target text = .ok q → q.identities = []) := by
  have hfields := fieldSet_of_link hlink hlead hblank hpaired hfilter hfield
  have hgroups := groupings_of_link hlink hlead hblank hpaired hfilter hgroup
  refine ⟨hfields, hgroups, ?_⟩
  rw [hfields, hgroups, filter_eq_settled hblank]
  cases htree : c.unsettled target text with
  | error why => simp [Except.toOption, Except.map, bind, Except.bind]
  | ok q =>
    have hself := (unsettled_wellFormed hblank htree).settle_eq_self_iff
    have hone : (∀ tree, (.ok q : Except QueryError Query) = .ok tree → tree.identities = []) ↔
        q.identities = [] := by simp
    rw [hone, ← hself]
    constructor
    · rintro ⟨hkept, -⟩
      cases hsettle : q.settle c.schema target with
      | error why => simp [Except.toOption, Except.map, bind, Except.bind, hsettle] at hkept
      | ok settled =>
        have hsame : q = settled := by
          simpa [Except.toOption, Except.map, bind, Except.bind, hsettle, FieldSet.ofLink]
            using hkept
        rw [← hsame]
    · intro hsettle
      simp [Except.toOption, Except.map, bind, Except.bind, hsettle]

end Links

theorem unlimited_of_isSome {α : Type} {r : Except QueryError α}
    (h : r.toOption.isSome = true) : Unlimited r := by
  rintro why rfl
  cases h

theorem staff_boss : staff.schema.LeadsTo "Person" "Boss" "Person" :=
  ⟨by decide +kernel, by decide +kernel⟩

/-- The bosses with another name than Ann who have a boss, as a field set and as a grouping. -/
theorem link_filters_agree_bosses :
    (staff.fieldSet "Person" (fieldText "Boss" "NOT (Name = 'Ann' OR Boss IS NULL)")).toOption =
      (staff.filter "Person" "NOT (Name = 'Ann' OR Boss IS NULL)").toOption.map
        (fun found => some (.ofLink "Boss" .link found)) ∧
    (staff.groupings "Person" (groupingText "Boss" "NOT (Name = 'Ann' OR Boss IS NULL)")).toOption =
      (staff.filter "Person" "NOT (Name = 'Ann' OR Boss IS NULL)").toOption.map
        (fun found => [.ofLink "Boss" .link found found]) := by
  have hboss : IsWord "Boss" := staff_hasWordNames "Person" "Boss" (by decide +kernel)
  have hidentities : (staff.unsettled "Person" "NOT (Name = 'Ann' OR Boss IS NULL)").toOption.map
      Query.identities = some [] := by decide +kernel
  refine (link_filters_agree hboss staff_boss (by decide +kernel) (by decide +kernel)
    (unlimited_of_isSome (by decide +kernel)) (unlimited_of_isSome (by decide +kernel))
    (unlimited_of_isSome (by decide +kernel))).2.2.mpr ?_
  intro q hq
  rw [hq] at hidentities
  exact Option.some.inj hidentities

end Compiler

/-- The tree is the test of an identity. -/
def Query.testsIdentity : Query → Bool
  | .objectId _ => true
  | _ => false

/-- The filter of the entry is the test of an identity. -/
def FieldItem.testsIdentity : FieldItem → Bool
  | .everything => false
  | .field _ _ _ filter _ => filter.any Query.testsIdentity

namespace Compiler

/-- Field sets and groupings keep the comparison with an identity that alone becomes an identity
test, and a field set accepts one that alone is refused. -/
theorem link_filters_differ :
    (staff.fieldSet "Person" (fieldText "Boss" "_ID = 'a'")).toOption ≠
      (staff.filter "Person" "_ID = 'a'").toOption.map
        (fun found => some (.ofLink "Boss" .link found)) ∧
    (staff.groupings "Person" (groupingText "Boss" "_ID = 'a'")).toOption ≠
      (staff.filter "Person" "_ID = 'a'").toOption.map
        (fun found => [.ofLink "Boss" .link found found]) ∧
    (staff.fieldSet "Person" (fieldText "Boss" "_ID : 'a'")).toOption.isSome = true ∧
    (staff.filter "Person" "_ID : 'a'").toOption.isSome = false := by
  refine ⟨fun hsame => ?_, fun hsame => ?_, by decide +kernel, by decide +kernel⟩
  · have hkept : ((staff.fieldSet "Person" (fieldText "Boss" "_ID = 'a'")).toOption.bind id).map
        (fun found => found.items.map FieldItem.testsIdentity) = some [false] := by decide +kernel
    rw [hsame] at hkept
    revert hkept
    decide +kernel
  · have hkept : (staff.groupings "Person" (groupingText "Boss" "_ID = 'a'")).toOption.map
        (fun sets => sets.map fun set => set.levels.map fun level =>
          level.leaf.filter.any Query.testsIdentity) = some [[false]] := by decide +kernel
    rw [hsame] at hkept
    revert hkept
    decide +kernel

end Compiler

end LinkQuery
