import LinkQuery.Proofs.Depths
import LinkQuery.Proofs.PathMeaning
/-!
# The nesting limit bounds the height of filter trees

A filter in parentheses or inside a path is a level of matching, and the segments of a path with the
filters inside them are levels of its log. Both are limited alike, so the height of the tree grows
with the limit alone: not with the number of terms, negations, blocks or members of groups.

Main statements:
- `Filter.termTree_height`: the tree of a term is as high as the room for its paths allows.
- `Filter.buildIn_height`: the tree of a log that nests to some levels and has some room.
- `Compiler.filter_height`: the tree of a filter text.
-/
namespace LinkQuery

open Rule Language

/-! ## Terms -/

namespace Filter

open Element
open Path (Roomy FilterBelow)
open TokenLog (Closes Fits)

section Terms

variable {scope : Scope} {nested : Nested} {table : String} {n k room : Nat} {log : List Token}

theorem call_height {word : String} {es : List Element} (hk : 1 ≤ k)
    (hpaths : ∀ p, .path p ∈ es → ∀ tail,
      Ensures (·.height ≤ k) (termQuery scope nested table p tail)) :
    Ensures (·.1.height ≤ k) (call scope nested table word es) := by
  have hleaf : ∀ {q : Query}, q.height = 1 → q.height ≤ k := fun hq => by omega
  unfold call
  split
  · intro found hfound
    obtain ⟨⟨counted, rest⟩, hcounted, hfound⟩ := bind_eq_ok hfound
    obtain ⟨⟨count, rest'⟩, -, hfound⟩ := bind_eq_ok hfound
    obtain ⟨q, hq, rfl⟩ := map_eq_ok hfound
    exact hpaths counted (countedPath_mem hcounted) (.count count) q hq
  · split
    · refine Ensures.after fun _ => Ensures.after fun _ => Ensures.map (P := (·.height ≤ k)) ?_
        fun _ hq => hq
      exact Ensures.after fun _ => Ensures.guarded (Ensures.guarded (.ok (hleaf rfl)))
    · cases PathOp.ofKeyword? word with
      | none => exact .error
      | some op =>
        refine Ensures.after fun _ => Ensures.after fun _ => Ensures.after fun _ =>
          Ensures.after fun _ => Ensures.after fun _ => Ensures.map (P := (·.height ≤ k)) ?_
            fun _ hq => hq
        exact Ensures.after fun _ => Ensures.after fun _ => .ok (hleaf rfl)

/-- A term is as high as the trees of its paths. -/
theorem term_height {e : Element} {es : List Element} (hk : 1 ≤ k)
    (hpaths : ∀ p, .path p ∈ e :: es → ∀ tail,
      Ensures (·.height ≤ k) (termQuery scope nested table p tail)) :
    Ensures (·.1.height ≤ k) (term scope nested table e es) := by
  cases e with
  | path start =>
    refine Ensures.after fun found => ?_
    exact (hpaths start (List.mem_cons_self ..) found.1).map fun _ hq => hq
  | token t =>
    simp only [term]
    split
    · exact call_height hk fun p hp => hpaths p (List.mem_cons_of_mem _ hp)
    · exact .error

theorem termTree_height (hk : 1 ≤ k)
    (hpaths : Ensures (fun es => ∀ p, .path p ∈ es → ∀ tail,
      Ensures (·.height ≤ k) (termQuery scope nested table p tail))
        (Element.ofTokens .filter log)) :
    Ensures (·.height ≤ k) (termTree scope nested table log) := by
  cases hes : Element.ofTokens .filter log with
  | error why =>
    unfold termTree ElementReader.run
    rw [hes]
    exact .error
  | ok es =>
    cases es with
    | nil =>
      unfold termTree ElementReader.run
      rw [hes]
      exact .error
    | cons e es =>
      rw [termTree_of_elements hes]
      exact (term_height hk (hpaths _ hes)).map fun _ h => h

/-! ### Room for the paths of terms -/

/-- The paths of the elements have room. -/
def PathsRoomy (n room : Nat) (es : List Element) : Prop :=
  ∀ p : Path, .path p ∈ es → Roomy (FilterBelow n) room p.segments

/-- The paths among the elements have the room that their log has. -/
theorem pathsRoomy_of_fits (h : Repeated (Item n) log) (hfits : Fits room log) :
    Ensures (PathsRoomy n room) (Element.ofTokens .filter log) := by
  intro es hread p hp
  obtain ⟨⟨k, hk, hdeepest⟩, hpaths⟩ := deepens_of_collect h hread
  have hroom := hk.le_of_fits hfits
  have hpath := Element.deepest_path_le hp
  refine Path.roomy_of_deepest ((hpaths p hp).resolve_left (by simp)) ?_
  rw [hdeepest] at hpath
  exact hpath.trans (Nat.max_le.mpr ⟨Nat.zero_le _, hroom⟩)

theorem adds_roomy (h : Produces (Generates Part.body n) path log) (hfits : Fits room log) :
    ∃ v, (∀ form calls, Adds form calls log v) ∧ Ensures (PathsRoomy n room) v := by
  obtain ⟨v, hadds, -⟩ := adds_path log.length h (Nat.le_refl _)
  refine ⟨v, hadds, ?_⟩
  have hroomy := pathsRoomy_of_fits (items_path h) hfits
  rwa [(hadds .filter []).ofTokens] at hroomy

theorem closes_items (h : Repeated (Item n) log) : Closes log := by
  obtain ⟨k, hk⟩ := exists_deepens h
  exact hk.closes

theorem closes_unmarked {lang : Part → LogSet} {rule : PartRule} (hnames : rule.callees = [])
    (hatoms : rule.atoms.all (fun a => TokenLog.isUnmarked ⟨a.kind, "", 0⟩) = true)
    (h : Produces lang rule log) : Closes log :=
  Closes.unmarked (unmarked_of_produces hnames hatoms h)

end Terms

/-! ## Parts of filters -/

section Combining

variable {k : Nat} {parts : List Built} {v : Built}

theorem conjunctionOf_height (h : ∀ part ∈ parts, Ensures (·.height ≤ k) part) :
    Ensures (·.height ≤ k + 1) (conjunctionOf parts) :=
  (Ensures.mapM h).bind fun _ hqs => .ok (Query.height_and hqs)

theorem disjunctionOf_height (h : ∀ part ∈ parts, Ensures (·.height ≤ k) part) :
    Ensures (·.height ≤ k + 1) (disjunctionOf parts) :=
  (Ensures.mapM h).bind fun _ hqs => .ok (Query.height_or hqs)

theorem negations_height (n : Nat) (h : Ensures (·.height ≤ k) v) :
    Ensures (·.height ≤ k + 1) (v.map Query.not^[n]) :=
  h.map fun _ hq => Nat.le_trans (Query.height_not_iterate n) (Nat.succ_le_succ hq)

end Combining

section Joined

variable {separator : LogSet} {items : List (List Token)} {first log : List Token} {room : Nat}

theorem Joined.closes (hseparator : ∀ gap, separator gap → Closes gap)
    (h : Joined separator items log) (hitems : ∀ item ∈ items, Closes item) : Closes log := by
  induction h with
  | nil => exact .nil
  | cons hgap _ ih =>
    rw [List.forall_mem_cons] at hitems
    exact (hseparator _ hgap).append (hitems.1.append (ih hitems.2))

/-- All of the items have the room that they have together. -/
theorem Joined.fits (hseparator : ∀ gap, separator gap → Closes gap)
    (h : Joined separator items log) (hitems : ∀ item ∈ items, Closes item)
    (hfits : Fits room log) : ∀ item ∈ items, Fits room item := by
  induction h with
  | nil => simp
  | cons hgap _ ih =>
    rw [List.forall_mem_cons] at hitems ⊢
    have hbehind := hfits.right (hseparator _ hgap)
    exact ⟨hbehind.left, ih hitems.2 (hbehind.right hitems.1)⟩

/-- An item in front of others with separators. -/
theorem Joined.parts {first : List Token × Built} {rest : List (List Token × Built)}
    (hseparator : ∀ gap, separator gap → Closes gap) (h : Joined separator (rest.map (·.1)) log)
    (hparts : ∀ t ∈ first :: rest, Closes t.1) :
    Closes (first.1 ++ log) ∧
      ∀ room, Fits room (first.1 ++ log) → ∀ t ∈ first :: rest, Fits room t.1 := by
  rw [List.forall_mem_cons] at hparts
  have hitems : ∀ item ∈ rest.map (·.1), Closes item := List.forall_mem_map.mpr hparts.2
  refine ⟨hparts.1.append (h.closes hseparator hitems), fun room hfits => ?_⟩
  have hrest := h.fits hseparator hitems (hfits.right hparts.1)
  exact List.forall_mem_cons.mpr ⟨hfits.left, List.forall_mem_map.mp hrest⟩

theorem closes_of_andLog {gap : List Token} (h : AndLog gap) : Closes gap :=
  closes_items (n := 0) (items_andLog h)

theorem closes_of_orLog {gap : List Token} (h : OrLog gap) : Closes gap :=
  closes_items (n := 0) (items_orLog h)

end Joined

/-- The levels that a part of a filter puts on top of its terms. -/
def Phrase.levels : Phrase → Nat
  | .primary => 0
  | .unary => 1
  | .conjunction => 2
  | .disjunction => 3

/-- The part of a filter closes its blocks, and its tree is low where the part has little room. -/
structure IsLow (termTree : List Token → Built) (n : Nat) (phrase : Phrase) (log : List Token)
    (v : Built) : Prop where
  derivation : Derivation termTree phrase log v
  closes : Closes log
  height : ∀ room, Fits room log → Ensures (·.height ≤ 3 * n + 6 * room + phrase.levels) v

/-- The terms are low at one level of nesting. -/
def TermsLow (termTree : List Token → Built) (n : Nat) : Prop :=
  ∀ log, Produces (Generates Part.body n) termRule log → Closes log ∧
    ∀ room, Fits room log → Ensures (·.height ≤ 3 * (n + 1) + 6 * room) (termTree log)

/-- Parts of filters are low when their terms are and the filters in parentheses one level below. -/
theorem low_phrases {termTree : List Token → Built} {n : Nat} (hterms : TermsLow termTree n) :
    Phrases termTree (Produces (Generates Part.body n) termRule) (IsLow termTree n .disjunction)
      (IsLow termTree (n + 1)) where
  term log h := ⟨.term ⟨n, h⟩, (hterms log h).1, (hterms log h).2⟩
  star p := ⟨.star p, Closes.unmarked rfl, fun room _ => .ok (by simp [Query.height]; omega)⟩
  group p q log v h := by
    have hopen : Closes [(⟨.symbol, "(", p⟩ : Token)] := Closes.unmarked rfl
    refine ⟨.group p q h.derivation, hopen.append (h.closes.append (Closes.unmarked rfl)), ?_⟩
    intro room hfits
    have hinside : Fits room (log ++ [⟨.symbol, ")", q⟩]) := Fits.right (a := [_]) hfits hopen
    refine (h.height room hinside.left).mono fun tree htree => ?_
    simp only [Phrase.levels] at htree ⊢
    omega
  unary nots log v h := by
    have hnots : Closes (nots.map (Token.ofKeyword "NOT")) := by
      refine Closes.unmarked ?_
      simp [TokenLog.isUnmarked, Token.ofKeyword]
    refine ⟨.unary nots h.derivation, hnots.append h.closes, fun room hfits => ?_⟩
    exact negations_height _ (h.height room (hfits.right hnots))
  conjunction first rest log hterms hlog := by
    obtain ⟨hcloses, hfits⟩ := hlog.parts (fun _ => closes_of_andLog) fun t ht => (hterms t ht).closes
    refine ⟨.conjunction (fun t ht => (hterms t ht).derivation) hlog, hcloses, fun room hroom => ?_⟩
    refine conjunctionOf_height fun part hpart => ?_
    obtain ⟨t, ht, rfl⟩ := List.mem_map.mp hpart
    exact (hterms t ht).height room (hfits room hroom t ht)
  disjunction first rest log hparts hlog := by
    obtain ⟨hcloses, hfits⟩ := hlog.parts (fun _ => closes_of_orLog) fun t ht => (hparts t ht).closes
    refine ⟨.disjunction (fun t ht => (hparts t ht).derivation) hlog, hcloses, fun room hroom => ?_⟩
    refine disjunctionOf_height fun part hpart => ?_
    obtain ⟨t, ht, rfl⟩ := List.mem_map.mp hpart
    exact (hparts t ht).height room (hfits room hroom t ht)

/-! ## Whole filters -/

section Filters

variable {scope : Scope} {nested : Nested} {n room : Nat} {log : List Token}

/-- The logs of filters that nest to fewer levels close their blocks and have low trees. -/
structure NestedLow (nested : Nested) (n : Nat) : Prop where
  closes : ∀ log, FilterBelow n log → Closes log
  height : ∀ log room, FilterBelow n log → Fits room log → ∀ table,
    Ensures (·.height ≤ 3 * n + 6 * room) (nested table log)

theorem fits_of_roomy {segments : List Segment} (hnested : NestedLow nested n)
    (h : Roomy (FilterBelow n) room segments) : nested.Fits (3 * n) room segments := by
  induction segments generalizing room with
  | nil => simp [Nested.Fits]
  | cons segment rest ih =>
    cases room with
    | zero => exact h.elim
    | succ room =>
      refine ⟨fun inner hinner table => ?_, ih h.2⟩
      obtain ⟨hbelow, hfits⟩ := h.1 inner hinner
      exact hnested.height inner room hbelow hfits table

theorem terms_low {table : String} (hnested : NestedLow nested n) :
    TermsLow (termTree scope nested table) n := by
  intro log h
  have hitems := items_term h
  refine ⟨closes_items hitems, fun room hfits => termTree_height (by omega) ?_⟩
  refine (pathsRoomy_of_fits hitems hfits).mono fun es hes p hp tail => ?_
  refine (termQuery_height (fits_of_roomy hnested (hes p hp))).mono fun q hq => ?_
  omega

/-- The log closes its blocks, and its tree against any table is low where the log has little room. -/
theorem buildIn_height (h : Generates Part.body n .filter log) :
    Closes log ∧ ∀ room, Fits room log → ∀ table,
      Ensures (·.height ≤ 3 * n + 6 * room + 3) (buildIn scope table log) := by
  induction n using Nat.strongRecOn generalizing log with
  | ind n ih =>
    have hbuilds : Nested.Builds scope.schema (fun _ => True) (Path.InnerLog log.length)
        fun target inner =>
          if inner.length < log.length then buildIn scope target inner
          else internal .noProgress := by
      intro target inner hinner
      dsimp only
      rw [if_pos hinner.2]
      exact buildIn_yields scope.clock.shows_any hinner.1
    have hlow : ∀ m ≤ n, NestedLow (fun target inner =>
        if inner.length < log.length then buildIn scope target inner
        else internal .noProgress) m := by
      intro m hm
      refine ⟨?_, ?_⟩
      · intro inner hinner
        obtain ⟨less, hless, hinner⟩ := hinner
        exact (ih less (by omega) hinner).1
      · intro inner room hinner hfits table
        obtain ⟨less, hless, hinner⟩ := hinner
        split
        · refine ((ih less (by omega) hinner).2 room hfits table).mono fun q hq => ?_
          omega
        · exact .error
    have hphrase : ∀ table, ∃ v, IsLow (termTree scope (fun target inner =>
        if inner.length < log.length then buildIn scope target inner
        else internal .noProgress) table) n .disjunction log v := fun table =>
      exists_phrase (fun m hm => low_phrases (terms_low (hlow m (Nat.le_of_lt hm)))) h
    obtain ⟨_, hclosed⟩ := hphrase ""
    refine ⟨hclosed.closes, fun room hfits table => ?_⟩
    obtain ⟨v, hv⟩ := hphrase table
    rw [buildIn]
    rcases buildWith_derivation scope.clock.shows_any hbuilds hv.derivation with
      ⟨_, -, -, hrefused⟩ | ⟨-, hbuilt, -⟩
    · rw [hrefused]
      exact .error
    · rw [hbuilt]
      exact hv.height room hfits

end Filters

end Filter

/-! ## Filter texts -/

namespace TokenLog

/-- The log of a text that is not blank nests within the limit, both in matching and in its paths. -/
theorem ofText_levels {settings : Settings} {kind : ExpressionKind} {input : String}
    {log : List Token} (h : ofText settings kind input = .ok log) :
    pathDepth log ≤ settings.maxNesting := by
  obtain ⟨_, -, h⟩ := bind_eq_ok h
  split at h
  · obtain rfl := Except.ok.inj h
    exact Nat.zero_le _
  · simp only [scan] at h
    split at h
    · cases h
    · cases h
    · rename_i s _
      simp only [finish] at h
      split at h
      · split at h
        · cases h
        · obtain rfl := Except.ok.inj h
          omega
      · cases h

end TokenLog

namespace Compiler

/--
The height of the tree of a filter is linear in the nesting limit, whatever the schema, the table
and the text.
-/
theorem filter_height : ∃ c, ∀ (compiler : Compiler) (table input : String) (q : Query),
    compiler.filter table input = .ok (some q) →
      q.height ≤ c * (compiler.settings.maxNesting + 1) := by
  refine ⟨9, fun compiler table input q h => ?_⟩
  obtain ⟨log, scope, raw, hlog, hne, -, hraw, hsettled⟩ := filter_eq_ok h
  have hgenerates : Generates Part.body compiler.settings.maxNesting .filter log :=
    (compiler.log_answers .filter input).of_ok hlog hne
  have hfits := TokenLog.fits_of_pathDepth (TokenLog.ofText_levels hlog)
  have hheight := (Filter.buildIn_height hgenerates).2 _ hfits table raw hraw
  have hsettle := Query.height_settle q hsettled
  simp only at hheight hsettle
  omega

/-- Negations of filters in parentheses, with a filter inside a path. -/
theorem filter_height_nested : ∃ c q,
    staff.filter "Person" "NOT (Boss.WHERE(Name = 'Ann').Name IS NULL OR NOT NOT *)" =
        .ok (some q) ∧
      q.height ≤ c * (staff.settings.maxNesting + 1) := by
  have hsome : (staff.filter "Person"
      "NOT (Boss.WHERE(Name = 'Ann').Name IS NULL OR NOT NOT *)").toOption.map Option.isSome =
        some true := by decide +kernel
  obtain ⟨found, hfound, hsome⟩ := Option.map_eq_some_iff.mp hsome
  obtain ⟨q, rfl⟩ := Option.isSome_iff_exists.mp hsome
  obtain ⟨c, hc⟩ := filter_height
  exact ⟨c, q, toOption_eq_some hfound, hc _ _ _ q (toOption_eq_some hfound)⟩

end Compiler

end LinkQuery
