import LinkQuery.Proofs.FilterLogs
import LinkQuery.Proofs.PathDepths
/-!
# Depths of filters

The depth of a log is counted token by token, with a stack of the open blocks. Reading the log gives
elements instead, paths among them with filters inside. Both go down alike: the log of a filter is a
row of tokens and paths, so it is as deep as the deepest path among its elements.

Main statements:
- `Filter.items_filter`: the log of a filter is a row of tokens and paths.
- `Filter.deepens_filter`: wherever it stands, it goes down as far as its depth says.
- `Filter.pathDepth_eq`: the depth of a filter is that of its elements.
-/
namespace LinkQuery

open Rule Language

/-! ## Rules without nonterminals -/

namespace Rule

variable {ν : Type}

mutual

/-- The nonterminals of a rule. -/
def callees : Rule ν → List ν
  | .choice rules => calleesOfAll rules
  | .longest rules => calleesOfAll rules
  | .sequence rules => calleesOfAll rules
  | .list item separator => callees item ++ callees separator
  | .optional rule => callees rule
  | .many rule => callees rule
  | .peek rule _ => callees rule
  | .required rule _ => callees rule
  | .silent rule => callees rule
  | .nonterminal name => [name]
  | _ => []

/-- The nonterminals of several rules. -/
def calleesOfAll : List (Rule ν) → List ν
  | [] => []
  | rule :: rest => callees rule ++ calleesOfAll rest

end

section Produces

variable {lang other : ν → LogSet}

theorem Chained.mono {A B A' B' : LogSet} (hA : ∀ log, A log → A' log)
    (hB : ∀ log, B log → B' log) : ∀ log, Chained A B log → Chained A' B' log := by
  intro log h
  obtain ⟨a, b, rfl, ha, hb⟩ := h
  exact ⟨a, b, rfl, hA a ha, hB b hb⟩

theorem Repeated.mono {A A' : LogSet} (hA : ∀ log, A log → A' log) :
    ∀ log, Repeated A log → Repeated A' log := by
  intro log h
  obtain ⟨parts, rfl, hparts⟩ := h
  exact ⟨parts, rfl, fun part hpart => hA part (hparts part hpart)⟩

mutual

/-- The logs of a rule depend on those of its own nonterminals only. -/
theorem Produces.mono : ∀ (rule : Rule ν),
    (∀ name ∈ rule.callees, ∀ log, lang name log → other name log) →
      ∀ log, Produces lang rule log → Produces other rule log
  | .literal _ _, _ | .keyword _, _ | .word, _ | .number, _ | .quoted, _ | .peek _ _, _
  | .silent _, _ | .action _, _ => fun _ h => h
  | .choice rules, hnames => ProducesAny.mono rules hnames
  | .longest rules, hnames => ProducesAny.mono rules hnames
  | .sequence rules, hnames => ProducesAll.mono rules hnames
  | .list item separator, hnames => by
    have hitem := Produces.mono item fun name hname => hnames name (List.mem_append_left _ hname)
    have hsep := Produces.mono separator fun name hname =>
      hnames name (List.mem_append_right _ hname)
    exact Chained.mono hitem (Repeated.mono (Chained.mono hsep hitem))
  | .optional rule, hnames => fun log h => h.imp_right (Produces.mono rule hnames log)
  | .many rule, hnames => Repeated.mono (Produces.mono rule hnames)
  | .required rule _, hnames => Produces.mono rule hnames
  | .nonterminal name, hnames => hnames name (List.mem_singleton.mpr rfl)

theorem ProducesAny.mono : ∀ (rules : List (Rule ν)),
    (∀ name ∈ calleesOfAll rules, ∀ log, lang name log → other name log) →
      ∀ log, ProducesAny lang rules log → ProducesAny other rules log
  | [], _ => fun _ h => h
  | rule :: rest, hnames => fun log h => h.imp
    (Produces.mono rule (fun name hname => hnames name (List.mem_append_left _ hname)) log)
    (ProducesAny.mono rest (fun name hname => hnames name (List.mem_append_right _ hname)) log)

theorem ProducesAll.mono : ∀ (rules : List (Rule ν)),
    (∀ name ∈ calleesOfAll rules, ∀ log, lang name log → other name log) →
      ∀ log, ProducesAll lang rules log → ProducesAll other rules log
  | [], _ => fun _ h => h
  | rule :: rest, hnames => Chained.mono
    (Produces.mono rule fun name hname => hnames name (List.mem_append_left _ hname))
    (ProducesAll.mono rest fun name hname => hnames name (List.mem_append_right _ hname))

end

/-- A rule without nonterminals and markers logs no markers. -/
theorem unmarked_of_produces {rule : Rule ν} (hnames : rule.callees = [])
    (hatoms : rule.atoms.all (fun a => TokenLog.isUnmarked ⟨a.kind, "", 0⟩) = true)
    {log : List Token} (h : Produces lang rule log) : log.all TokenLog.isUnmarked = true := by
  have hnone : Produces (fun _ _ => False) rule log :=
    Produces.mono rule (by simp [hnames]) log h
  refine Produces.closed (P := fun log => log.all TokenLog.isUnmarked = true) ⟨rfl, ?_, ?_⟩ rule ?_
    log hnone
  · intro a b ha hb
    rw [List.all_append, ha, hb]
    rfl
  · exact fun _ _ h => h.elim
  · intro a ha t ht
    have hunmarked := List.all_eq_true.mp hatoms a ha
    simpa [TokenLog.isUnmarked, ht.1] using hunmarked

end Produces

end Rule

/-! ## Items of filters -/

namespace Filter

open Path (FilterBelow)
open TokenLog (pathDepth Deepens DeepensInside)

/-- A part of the log of a filter: a token outside of paths, or a path. -/
inductive Item (n : Nat) : LogSet
  | token {t : Token} (h : TokenLog.isBlockMark t = false) : Item n [t]
  | path {m : Nat} (hm : m ≤ n) {body : List Token} (hbody : PathBody (Generates Part.body m) body)
    (p q : Nat) :
    Item n (⟨.marker .pathStart, "", p⟩ :: (body ++ [⟨.marker .pathEnd, "", q⟩]))

section Items

variable {n m : Nat} {log : List Token}

theorem items_mono (h : Repeated (Item m) log) (hle : m ≤ n) : Repeated (Item n) log := by
  refine Repeated.mono (fun log hitem => ?_) log h
  cases hitem with
  | token h => exact .token h
  | path hm hbody p q => exact .path (hm.trans hle) hbody p q

theorem items_unmarked (h : log.all TokenLog.isUnmarked = true) : Repeated (Item n) log := by
  induction log with
  | nil => exact .nil _
  | cons t log ih =>
    simp only [List.all_cons, Bool.and_eq_true] at h
    have hfirst : Item n [t] := .token (TokenLog.isBlockMark_of_isUnmarked h.1)
    exact Repeated.cons hfirst (ih h.2)

theorem items_path (h : Produces (Generates Part.body n) path log) : Repeated (Item n) log := by
  rw [produces_path] at h
  obtain ⟨_, _, rfl, ⟨p, rfl⟩, body, _, rfl, hbody, q, rfl⟩ := h
  exact .one (.path (Nat.le_refl n) hbody p q)

theorem items_value {lang : Part → LogSet} {rule : PartRule} (h : Produces lang rule log)
    (hnames : rule.callees = [])
    (hatoms : rule.atoms.all (fun a => TokenLog.isUnmarked ⟨a.kind, "", 0⟩) = true) :
    Repeated (Item n) log :=
  items_unmarked (unmarked_of_produces hnames hatoms h)

theorem items_countTerm {word : String} (h : Produces (Generates Part.body n) (countTerm word) log) :
    Repeated (Item n) log := by
  simp only [countTerm, Produces, ProducesAll, produces_symbol, chained_nil_right] at h
  obtain ⟨_, _, rfl, ⟨p, rfl⟩, _, _, rfl, ⟨q, rfl⟩, inside, _, rfl, hpath, _, _, rfl, ⟨r, rfl⟩,
    op, count, rfl, hop, hcount⟩ := h
  have hback : Repeated (Item n) (op ++ count) :=
    (items_value hop (by decide) (by decide)).append
      (items_value (produces_count hcount).1 (by decide) (by decide))
  exact (items_unmarked rfl).append ((items_unmarked rfl).append ((items_path hpath).append
    ((items_unmarked rfl).append hback)))

theorem items_term (h : Produces (Generates Part.body n) termRule log) :
    Repeated (Item n) log := by
  simp only [termRule, Produces, ProducesAny, or_false] at h
  rcases h with h | h | h | h
  · simp only [Language.pathComparison, Produces, ProducesAll, produces_symbol, produces_keywords,
      chained_nil_right] at h
    obtain ⟨_, _, rfl, ⟨word, -, p, rfl⟩, _, _, rfl, ⟨q, rfl⟩, first, _, rfl, hfirst, _, _, rfl,
      ⟨r, rfl⟩, second, _, rfl, hsecond, p', rfl⟩ := h
    exact (items_unmarked rfl).append ((items_unmarked rfl).append ((items_path hfirst).append
      ((items_unmarked rfl).append ((items_path hsecond).append (items_unmarked rfl)))))
  · exact items_countTerm h
  · exact items_countTerm h
  · simp only [ProducesAll, Produces, chained_nil_right] at h
    obtain ⟨front, tail, rfl, hpath, rfl | htail⟩ := h
    · exact (items_path hpath).append (.nil _)
    · exact (items_path hpath).append (items_value htail (by decide) (by decide))

theorem Joined.items {separator : LogSet} {items : List (List Token)}
    (hseparator : ∀ gap, separator gap → Repeated (Item n) gap)
    (h : Joined separator items log) (hitems : ∀ item ∈ items, Repeated (Item n) item) :
    Repeated (Item n) log := by
  induction h with
  | nil => exact .nil _
  | cons hgap _ ih =>
    rw [List.forall_mem_cons] at hitems
    exact (hseparator _ hgap).append (hitems.1.append (ih hitems.2))

theorem items_andLog {gap : List Token} (h : AndLog gap) : Repeated (Item n) gap := by
  rcases h with ⟨p, rfl⟩ | ⟨p, rfl⟩
  · exact items_unmarked rfl
  · exact .one (.token rfl)

theorem items_orLog {gap : List Token} (h : OrLog gap) : Repeated (Item n) gap := by
  rcases h with ⟨p, rfl⟩ | ⟨p, rfl⟩ <;> exact items_unmarked rfl

/-- Parts of filters are items when the filters in parentheses are. -/
theorem items_phrases (termTree : List Token → Built) (n : Nat) :
    Phrases termTree (Produces (Generates Part.body n) termRule)
      (fun log _ => Repeated (Item n) log) (fun _ log _ => Repeated (Item (n + 1)) log) where
  term log h := items_mono (items_term h) (Nat.le_succ n)
  star p := items_unmarked rfl
  group p q log v h := Repeated.append (a := [_]) (items_unmarked rfl)
    ((items_mono h (Nat.le_succ n)).append (items_unmarked rfl))
  unary nots log v h := by
    refine Repeated.append (items_unmarked ?_) h
    simp [TokenLog.isUnmarked, Token.ofKeyword]
  conjunction first rest log hterms hlog := by
    rw [List.forall_mem_cons] at hterms
    exact hterms.1.append (hlog.items (fun _ => items_andLog) (List.forall_mem_map.mpr hterms.2))
  disjunction first rest log hparts hlog := by
    rw [List.forall_mem_cons] at hparts
    exact hparts.1.append (hlog.items (fun _ => items_orLog) (List.forall_mem_map.mpr hparts.2))

/-- The log of a filter is made of tokens and paths. -/
theorem items_filter (h : Generates Part.body n .filter log) : Repeated (Item n) log := by
  obtain ⟨_, hitems⟩ := exists_phrase (D := fun m _ log _ => Repeated (Item m) log)
    (fun m _ => items_phrases (fun _ => .ok .everything) m) h
  exact hitems

end Items

/-! ## Depths of filters -/

section Filters

variable {n : Nat} {log : List Token}

theorem Item.deepens (hinner : ∀ m ≤ n, ∀ log, FilterBelow m log → ∃ k, Deepens k log)
    (h : Item n log) : ∃ k, Deepens k log := by
  cases h with
  | token h => exact ⟨0, .token h⟩
  | @path _ hm body hbody p q =>
    obtain ⟨ahead, k, hk⟩ : ∃ ahead k, DeepensInside ahead k body := by
      refine (Path.pieces_of_pathBody hbody).induction
        (P := fun log => ∃ ahead k, DeepensInside ahead k log) ⟨0, 0, .nil⟩ ?_
      intro piece rest hpiece hrest
      obtain ⟨ahead, k, hk⟩ := hpiece.deepensInside (hinner _ hm)
      obtain ⟨more, l, hl⟩ := hrest
      exact ⟨_, _, hk.append hl⟩
    exact ⟨k, .path hk p q⟩

theorem deepens_items (hinner : ∀ m ≤ n, ∀ log, FilterBelow m log → ∃ k, Deepens k log)
    (h : Repeated (Item n) log) : ∃ k, Deepens k log := by
  refine h.induction (P := fun log => ∃ k, Deepens k log) ⟨0, .nil⟩ ?_
  intro item rest hitem hrest
  obtain ⟨k, hk⟩ := hitem.deepens hinner
  obtain ⟨l, hl⟩ := hrest
  exact ⟨_, hk.append hl⟩

/-- The log of a filter goes down as far as its depth says, wherever it stands outside of paths. -/
theorem deepens_filter (h : Generates Part.body n .filter log) : Deepens (pathDepth log) log := by
  suffices hall : ∃ k, Deepens k log by
    obtain ⟨k, hk⟩ := hall
    rwa [hk.pathDepth]
  induction n using Nat.strongRecOn generalizing log with
  | ind n ih =>
    refine deepens_items ?_ (items_filter h)
    rintro m hm inner ⟨less, hless, hinner⟩
    exact ih less (by omega) hinner

/-- Tokens and paths in a row go down by some levels. -/
theorem exists_deepens (h : Repeated (Item n) log) : ∃ k, Deepens k log := by
  refine deepens_items (fun m _ inner hinner => ?_) h
  obtain ⟨less, -, hinner⟩ := hinner
  exact ⟨_, deepens_filter hinner⟩

end Filters

end Filter

/-! ## Depths of elements -/

namespace Element

/-- How far an element goes down: a path as far as its segments. -/
def depth : Element → Nat
  | .token _ => 0
  | .path p => Path.deepest p.segments

/-- How far the deepest of some elements goes down. -/
def deepest (es : List Element) : Nat :=
  es.toFinset.sup depth

section Elements

variable {es more : List Element} {p : Path}

theorem deepest_cons (e : Element) : deepest (e :: es) = max e.depth (deepest es) := by
  simp [deepest]

theorem deepest_reverse : deepest es.reverse = deepest es := by
  simp [deepest]

/-- Only the paths matter. -/
theorem deepest_congr (h : ∀ p : Path, .path p ∈ es ↔ .path p ∈ more) :
    deepest es = deepest more := by
  have hle : ∀ {a b : List Element}, (∀ p : Path, .path p ∈ a → .path p ∈ b) →
      deepest a ≤ deepest b := by
    intro a b hab
    refine Finset.sup_le fun e he => ?_
    rw [List.mem_toFinset] at he
    cases e with
    | token t => exact Nat.zero_le _
    | path p => exact Finset.le_sup (f := depth) (List.mem_toFinset.mpr (hab p he))
  exact Nat.le_antisymm (hle fun p => (h p).mp) (hle fun p => (h p).mpr)

theorem deepest_path_le (h : .path p ∈ es) : Path.deepest p.segments ≤ deepest es :=
  Finset.le_sup (f := depth) (List.mem_toFinset.mpr h)

/-- Elements go no farther down than one of their paths. -/
theorem deepest_attained (h : deepest es ≠ 0) :
    ∃ p : Path, .path p ∈ es ∧ deepest es = Path.deepest p.segments := by
  obtain ⟨e, he, hsup⟩ := exists_eq_sup h
  cases e with
  | token t => exact absurd hsup h
  | path p => exact ⟨p, List.mem_toFinset.mp he, hsup⟩

end Elements

end Element

/-! ## Depths of filters that are read -/

namespace Filter

open Element
open Path (FilterBelow)
open TokenLog (pathDepth Deepens DeepensInside)

section Reading

variable {n : Nat} {calls : List Bool} {done es : List Element} {t : Token}
  {log tokens rest after : List Token}

/-- The first token of the items stands outside of paths, or a path begins with it. -/
theorem items_cons (h : Repeated (Item n) (t :: rest)) :
    t.isMarker .pathStart = false ∧ Item n [t] ∧ Repeated (Item n) rest ∨
      t.isMarker .pathStart = true ∧ ∃ m ≤ n, ∃ p body q behind,
        PathBody (Generates Part.body m) body ∧ t :: rest = ⟨.marker .pathStart, "", p⟩ ::
          (body ++ ⟨.marker .pathEnd, "", q⟩ :: behind) ∧ Repeated (Item n) behind := by
  obtain ⟨items, hitems, hall⟩ := h
  cases items with
  | nil => cases hitems
  | cons item items =>
    rw [List.forall_mem_cons] at hall
    have hbehind : Repeated (Item n) items.flatten := ⟨items, rfl, hall.2⟩
    rw [List.flatten_cons] at hitems
    cases hall.1 with
    | @token t hmark =>
      obtain ⟨rfl, rfl⟩ := List.cons.inj hitems
      have hother : t.isMarker .pathStart = false := by
        rw [Token.isMarker, beq_eq_false_iff_ne]
        intro hkind
        simp [TokenLog.isBlockMark, hkind] at hmark
      exact Or.inl ⟨hother, .token hmark, hbehind⟩
    | @path m hm body hbody p q =>
      rw [List.cons_append, List.append_assoc] at hitems
      obtain ⟨rfl, rfl⟩ := List.cons.inj hitems
      exact Or.inr ⟨rfl, m, hm, p, body, q, _, hbody, rfl, hbehind⟩

theorem Item.deepens_token (h : Item n [t]) : Deepens 0 [t] := by
  generalize htokens : [t] = tokens at h
  cases h with
  | token h => exact .token h
  | path hm hbody p q => simp at htokens

/-- Tokens with which no path begins stand outside of paths. -/
theorem items_behind {front : List Token} (h : Repeated (Item n) (front ++ rest))
    (hfront : ∀ t ∈ front, t.isMarker .pathStart = false) :
    Deepens 0 front ∧ Repeated (Item n) rest := by
  induction front with
  | nil => exact ⟨.nil, h⟩
  | cons t front ih =>
    rw [List.forall_mem_cons] at hfront
    rcases items_cons h with ⟨-, htoken, hbehind⟩ | ⟨hstart, -⟩
    · obtain ⟨hdeepens, hrest⟩ := ih hbehind hfront.2
      exact ⟨htoken.deepens_token.append (a := [t]) hdeepens, hrest⟩
    · rw [hfront.1] at hstart
      cases hstart

/-- A test for null is read from keywords. -/
theorem nullTest_front {m : Marker} (h : nullTest? tokens = some (m, after)) :
    ∃ front, tokens = front ++ after ∧ ∀ t ∈ front, t.isMarker .pathStart = false := by
  have hkeyword : ∀ {t : Token} {word : String}, t.isKeyword word = true →
      t.isMarker .pathStart = false := by
    intro t word hword
    simp only [Token.isKeyword, Bool.and_eq_true, beq_iff_eq] at hword
    simp [Token.isMarker, hword.1]
  unfold nullTest? at h
  split at h
  · rename_i a rest
    split at h
    · rename_i ha
      obtain ⟨-, rfl⟩ := Prod.mk.inj (Option.some.inj h)
      exact ⟨[a], rfl, by simpa using hkeyword ha⟩
    · split at h
      · rename_i ha
        split at h
        · rename_i b rest
          split at h
          · rename_i hb
            obtain ⟨-, rfl⟩ := Prod.mk.inj (Option.some.inj h)
            exact ⟨[a, b], rfl, by simpa using ⟨hkeyword ha, hkeyword hb⟩⟩
          · cases h
        · cases h
      · cases h
  · cases h

/-- Elements go as far down as their log, and all filters inside them are filters of the grammar. -/
theorem deepens_of_collect (h : Repeated (Item n) tokens)
    (hread : collect .filter calls done tokens = .ok es) :
    (∃ k, Deepens k tokens ∧ deepest es = max (deepest done) k) ∧
      ∀ p : Path, .path p ∈ es → .path p ∈ done ∨
        ∀ segment ∈ p.segments, ∀ inner ∈ segment.logs, FilterBelow n inner := by
  fun_induction collect .filter calls done tokens with
  | case1 calls done =>
    obtain rfl := Except.ok.inj hread
    refine ⟨⟨0, .nil, by simp [deepest_reverse]⟩, fun p hp => Or.inl ?_⟩
    simpa using hp
  | case2 => cases hread
  | case3 calls done t rest hstart p after hpath ih =>
    rcases items_cons h with ⟨hother, -⟩ |
      ⟨-, m, hm, position, body, q, behind, hbody, htokens, hbehind⟩
    · rw [hstart] at hother
      cases hother
    · obtain ⟨rfl, rfl⟩ := List.cons.inj htokens
      obtain ⟨hgrown, rfl⟩ := Path.grown_of_read hbody hpath
      obtain ⟨⟨k, hk, hdeepest⟩, hpaths⟩ := ih hbehind hread
      have hinside : DeepensInside p.segments.length (Path.deepest p.segments) body := by
        refine Path.deepensInside_of_grown (fun log hlog => ?_) hgrown
        obtain ⟨less, -, hlog⟩ := hlog
        exact deepens_filter hlog
      have hall := (Deepens.path hinside position q).append hk
      refine ⟨⟨max (Path.deepest p.segments) k, by simpa using hall, ?_⟩, fun other hother => ?_⟩
      · rw [hdeepest, deepest_cons]
        simp only [depth]
        omega
      · rcases hpaths other hother with hmem | hinside
        · rcases List.mem_cons.mp hmem with hsame | hmem
          · obtain rfl := Element.path.inj hsame
            refine Or.inr fun segment hsegment inner hinner => ?_
            obtain ⟨less, hless, hlog⟩ := hgrown.logs segment hsegment inner hinner
            exact ⟨less, by omega, hlog⟩
          · exact Or.inl hmem
        · exact Or.inr hinside
  | case4 => cases hread
  | case5 calls done t rest hstart his m after hnull ih =>
    obtain ⟨front, rfl, hfront⟩ := nullTest_front hnull
    have houtside : ∀ other ∈ t :: front, other.isMarker .pathStart = false :=
      List.forall_mem_cons.mpr ⟨by simpa using hstart, hfront⟩
    obtain ⟨hdeepens, hafter⟩ := items_behind h houtside
    obtain ⟨⟨k, hk, hdeepest⟩, hpaths⟩ := ih hafter hread
    refine ⟨⟨_, hdeepens.append hk, ?_⟩, fun p hp => ?_⟩
    · rw [hdeepest, deepest_cons]
      simp [depth]
    · simpa using hpaths p hp
  | case6 calls done t rest hstart his ih =>
    have houtside : ∀ other ∈ [t], other.isMarker .pathStart = false := by simpa using hstart
    obtain ⟨hdeepens, hrest⟩ := items_behind h houtside
    obtain ⟨⟨k, hk, hdeepest⟩, hpaths⟩ := ih hrest hread
    refine ⟨⟨_, hdeepens.append hk, ?_⟩, fun p hp => (hpaths p hp).imp_left path_mem_add.mp⟩
    rw [hdeepest, deepest_congr fun _ => path_mem_add, Nat.zero_max]

/-- The depth of a filter is that of its deepest path. -/
theorem pathDepth_eq (h : Generates Part.body n .filter log)
    (hread : ofTokens .filter log = .ok es) : pathDepth log = deepest es := by
  obtain ⟨⟨k, hk, hdeepest⟩, -⟩ := deepens_of_collect (items_filter h) hread
  rw [hk.pathDepth, hdeepest]
  exact Nat.zero_max k

/-- The filters inside the paths of a filter nest to fewer levels. -/
theorem logs_below (h : Generates Part.body n .filter log)
    (hread : ofTokens .filter log = .ok es) {p : Path} (hp : .path p ∈ es) {segment : Segment}
    (hsegment : segment ∈ p.segments) {inner : List Token} (hinner : inner ∈ segment.logs) :
    FilterBelow n inner := by
  obtain ⟨-, hpaths⟩ := deepens_of_collect (items_filter h) hread
  rcases hpaths p hp with hdone | hinside
  · cases hdone
  · exact hinside segment hsegment inner hinner

end Reading

end Filter

end LinkQuery
