import LinkQuery.Grouping.Build
import LinkQuery.Proofs.FilterLogs
import LinkQuery.Proofs.ListLogs
/-!
# Reading the logs of groupings

The logs of groupings are items, alone or in sets, with commas between them. An item is a path with
modifiers or a call, inside any number of selections.

Main statements:
- `Grouping.item_takes`: reading an item, which is the level of a path.
- `Grouping.build_yields`: the grouping sets of a log, whose levels are those of paths.
-/
namespace LinkQuery.Grouping

open Rule Language ElementReader Element LinkQuery.Filter
open Time (Timestamp)

variable {scope : Scope} {base : Option Query} {table : String} {good : Timestamp → Prop}

/-! ## What levels keep -/

/-- A level has the steps and the filter of another. -/
structure KeepsPath (before g : Grouping) : Prop where
  through : g.through = before.through
  leaf : g.leaf = before.leaf
  filter : g.filter = before.filter

theorem KeepsPath.refl (g : Grouping) : g.KeepsPath g :=
  ⟨rfl, rfl, rfl⟩

theorem KeepsPath.trans {a b c : Grouping} (h : a.KeepsPath b) (h' : b.KeepsPath c) :
    a.KeepsPath c :=
  ⟨h'.through.trans h.through, h'.leaf.trans h.leaf, h'.filter.trans h.filter⟩

/-- The level is that of a path, whatever else is said about its buckets. -/
def IsOfPath (scope : Scope) (base : Option Query) (table : String) (g : Grouping) : Prop :=
  ∃ path before, path.Proper Path.FilterLog ∧ ofPath scope base table path = .ok before ∧
    before.KeepsPath g

theorem IsOfPath.keeps {before g : Grouping} (h : IsOfPath scope base table before)
    (hkeeps : before.KeepsPath g) : IsOfPath scope base table g := by
  obtain ⟨path, first, hpath, hfirst, hbefore⟩ := h
  exact ⟨path, first, hpath, hfirst, hbefore.trans hkeeps⟩

/-! ## Paths -/

theorem itemOf_yields (hclock : scope.clock.Shows good) {s : ResolvedSegment}
    (h : ∀ filter ∈ s.segment.filters, Path.FilterLog filter) :
    Yields (fun _ => True) (itemOf scope s) := by
  have hfilter : Yields (fun _ => True) (itemFilter scope s) := by
    unfold itemFilter
    split
    · trivial
    · split
      · exact (buildAll_yields hclock h).mono fun _ _ => trivial
      · trivial
  unfold itemOf
  exact hfilter.bind fun _ _ => trivial

theorem ofPath_yields (hclock : scope.clock.Shows good) {path : Path}
    (hpath : path.Proper Path.FilterLog) :
    Yields (IsOfPath scope base table) (ofPath scope base table path) := by
  suffices h : Yields (fun _ => True) (ofPath scope base table path) from
    h.itself.mono fun g hg => ⟨path, g, hpath, hg.1, .refl g⟩
  unfold ofPath
  refine Path.requirePlain_yields.bind fun _ _ => ?_
  refine Schema.resolve_yields.bind fun resolved hresolved => ?_
  have hitem : ∀ s ∈ resolved.segments, Yields (fun _ => True) (itemOf scope s) := by
    intro s hs
    have hmem : s.segment ∈ path.segments := hresolved.2 ▸ List.mem_map_of_mem hs
    exact itemOf_yields hclock (hpath s.segment hmem).inside.filters
  refine (Yields.mapM fun s hs => hitem s (List.mem_append_left _ hs)).bind fun through _ => ?_
  refine (hitem resolved.leaf (List.mem_append_right _ List.mem_cons_self)).bind fun leaf _ => ?_
  trivial

theorem requireLeaf_yields {g : Grouping} {type : ScalarType} {what : String} :
    Yields (fun _ => True) (g.requireLeaf type what) := by
  unfold requireLeaf
  split <;> trivial

/-! ## Modifiers -/

theorem leafLiterals_yields {leaf : GroupItem} {values : List RawValue} :
    Yields (fun _ => True) (leafLiterals leaf values) := by
  refine (Yields.mapM (P := fun _ => True) fun value _ => ?_).mono fun _ _ => trivial
  have hvalue : value.Good fun _ => True := by
    cases value <;> trivial
  exact (literalOf_yields hvalue).mono fun _ _ => trivial

theorem withBatch_yields {g : Grouping} {keyword : String} {values : List RawValue} :
    Yields g.KeepsPath (g.withBatch keyword values) := by
  unfold withBatch
  refine Yields.unless fun _ => Yields.unless fun _ => Yields.unless fun _ => ?_
  refine leafLiterals_yields.bind fun literals _ => ?_
  split
  · exact Yields.unless fun _ => ⟨rfl, rfl, rfl⟩
  · exact Yields.unless fun _ => ⟨rfl, rfl, rfl⟩

theorem withCase_yields {g : Grouping} {keyword : String} {values : List RawValue}
    {fold : CaseFold} : Yields g.KeepsPath (g.withCase keyword values fold) := by
  unfold withCase
  refine Yields.unless fun _ => ?_
  exact requireLeaf_yields.bind fun _ _ => ⟨rfl, rfl, rfl⟩

theorem modified_yields {g : Grouping} {keyword : String} {values : List RawValue}
    (h : keyword ∈ modifierWords) : Yields g.KeepsPath (g.modified keyword values) := by
  simp only [modifierWords, List.mem_cons, List.not_mem_nil, or_false] at h
  rcases h with rfl | rfl | rfl | rfl | rfl | rfl
  · exact withBatch_yields
  · exact withBatch_yields
  · exact leafLiterals_yields.bind fun _ _ => ⟨rfl, rfl, rfl⟩
  · exact leafLiterals_yields.bind fun _ _ => ⟨rfl, rfl, rfl⟩
  · exact withCase_yields
  · exact withCase_yields

/-- The elements of a value of a modifier. -/
def ValueElements (es : List Element) : Prop :=
  ∃ (lang : Part → LogSet) (log : List Token), Value.PlainLog lang log ∧ es = elements log

theorem modifierValue_takes {clock : Clock} (hclock : clock.Shows good)
    {es : List Element} (h : ValueElements es) :
    Takes (modifierValue clock) es NotOpening (fun _ => True) := by
  obtain ⟨lang, log, hlog, rfl⟩ := h
  unfold modifierValue
  refine Takes.andThen (Value.read_plain_takes hclock hlog) fun value hvalue => ?_
  cases value with
  | raw value => exact Takes.pure trivial
  | interval range =>
    obtain ⟨start, hstart⟩ := Option.isSome_iff_exists.mp hvalue.2
    simp only [hstart]
    exact Takes.pure trivial

/-- The elements of a modifier: a keyword, and values in parentheses. -/
def ModifierElements (es : List Element) : Prop :=
  ∃ (word : String) (p q r : Nat) (values : List Element), word ∈ modifierWords ∧
    (values = [] ∨ Separated ValueElements values) ∧
    es = .token ⟨.keyword, word, p⟩ :: .token ⟨.symbol, "(", q⟩ ::
      (values ++ [.token ⟨.symbol, ")", r⟩])

theorem valueElements_ne_nil {es : List Element}
    (h : ValueElements es) : ∃ t tail, es = .token t :: tail ∧ t.isSymbol ")" = false := by
  obtain ⟨lang, log, hlog, rfl⟩ := h
  simp only [Value.PlainLog, Produces, ProducesAny, or_false] at hlog
  rcases hlog with hlog | ⟨value, p, rfl⟩ | ⟨value, p, rfl⟩ | ⟨value, p, rfl⟩
  · obtain ⟨word, p, tail, rfl, -⟩ := relativeTime_call hlog
    exact ⟨_, _, rfl, rfl⟩
  all_goals exact ⟨_, _, rfl, rfl⟩

/-- Reading items up to a closing parenthesis. -/
theorem itemsUntil_takes {α : Type} {item : ElementReader α} {Item : ListSet Element}
    {es : List Element} {q : Nat} {follow : List Element → Prop}
    (hitem : ∀ es, Item es → Takes item es NotOpening (fun _ => True))
    (hhead : ∀ es, Item es → ∃ t tail, es = .token t :: tail ∧ t.isSymbol ")" = false)
    (h : es = [] ∨ Separated Item es) :
    Takes (itemsUntil ")" item) (es ++ [.token ⟨.symbol, ")", q⟩]) follow (fun _ => True) := by
  unfold itemsUntil
  rcases h with rfl | h
  · exact Takes.symbolIf rfl (Takes.pure trivial)
  refine Takes.symbolIf_not (fun rest _ => ?_) ?_
  · obtain ⟨first, _, rfl, hfirst, -⟩ := h
    obtain ⟨t, tail, rfl, ht⟩ := hhead first hfirst
    exact Without.cons ht
  simp only [Bool.false_eq_true, if_false]
  refine Takes.loop_items (R := fun _ => True) (fun items es p _ hes => ?_) (fun items es _ hes => ?_)
    h trivial
  · refine Takes.bind (hitem es hes) (fun _ _ => Without.cons rfl) fun value _ => ?_
    refine Takes.symbolIf_not (fun _ _ => Without.cons rfl) ?_
    exact Takes.symbol rfl (Takes.pure ⟨_, rfl, trivial⟩)
  · refine Takes.bind (hitem es hes) (fun _ _ => Without.cons rfl) fun value _ => ?_
    exact Takes.symbolIf rfl (Takes.pure ⟨_, rfl, trivial⟩)

/-- What follows an item: the end, a comma or a closing parenthesis. -/
def ItemEnd (rest : List Element) : Prop :=
  ∀ e ∈ rest.head?, ∃ text p, e = .token ⟨.symbol, text, p⟩ ∧ (text = "," ∨ text = ")")

theorem ItemEnd.without {accept : Token → Bool} {rest : List Element} (h : ItemEnd rest)
    (hcomma : ∀ p, accept ⟨.symbol, ",", p⟩ = false)
    (hclose : ∀ p, accept ⟨.symbol, ")", p⟩ = false) : Without accept rest := by
  intro t ht
  obtain ⟨_, p, heq, rfl | rfl⟩ := h _ ht
  · cases heq
    exact hcomma p
  · cases heq
    exact hclose p

/-- Reading the modifiers behind a path. -/
theorem modifiers_takes {clock : Clock} (hclock : clock.Shows good)
    {g : Grouping} {es : List Element} (h : Repeated ModifierElements es) :
    Takes (modifiers clock g) es ItemEnd g.KeepsPath := by
  obtain ⟨parts, rfl, hparts⟩ := h
  unfold modifiers
  induction parts generalizing g with
  | nil =>
    refine Takes.loop_done (Takes.tokenIf_not (fun rest hrest => ?_) ?_)
    · exact hrest.without (fun _ => rfl) fun _ => rfl
    · exact Takes.pure ⟨g, rfl, .refl g⟩
  | cons part parts ih =>
    simp only [List.mem_cons, forall_eq_or_imp] at hparts
    obtain ⟨⟨word, p, q, r, values, hword, hvalues, rfl⟩, hparts⟩ := hparts
    rw [List.flatten_cons]
    refine Takes.loop_more (R := g.KeepsPath) (by simp) ?_
      fun s hs => (ih hparts).mono fun _ h => hs.trans h
    refine Takes.tokenIf rfl (Takes.symbol rfl ?_)
    refine Takes.andThen (itemsUntil_takes (fun es hes => modifierValue_takes hclock hes)
      (fun es hes => valueElements_ne_nil hes) hvalues) fun values _ => ?_
    exact Takes.lift_bind (modified_yields hword) fun g hg => Takes.pure ⟨g, rfl, hg⟩

/-! ## Items -/

/-- The elements of a grouping by units of time behind its keyword. -/
def TruncationElements (es : List Element) : Prop :=
  ∃ (p q r : Nat) (path : Path) (unit : Token) (zone : List Element),
    path.Proper Path.FilterLog ∧ unit.value ∈ timeUnitWords ∧
    (zone = [] ∨ ∃ (p' : Nat) (name : Token), zone = [.token ⟨.symbol, ",", p'⟩, .token name]) ∧
    es = .token ⟨.symbol, "(", p⟩ :: .path path :: .token ⟨.symbol, ",", q⟩ :: .token unit ::
      (zone ++ [.token ⟨.symbol, ")", r⟩])

theorem truncation_takes (hclock : scope.clock.Shows good) {es : List Element}
    {follow : List Element → Prop} (h : TruncationElements es) :
    Takes (truncation scope base table) es follow (IsOfPath scope base table) := by
  obtain ⟨p, q, r, path, unit, zone, hpath, hunit, hzone, rfl⟩ := h
  unfold truncation
  refine Takes.symbol rfl (Takes.nextPath ?_)
  refine Takes.lift_bind (ofPath_yields hclock hpath) fun g hg => ?_
  refine Takes.lift_bind requireLeaf_yields fun _ _ => ?_
  refine Takes.symbol rfl (Takes.nextToken ?_)
  refine Takes.lift_bind (Value.unitOf_yields hunit) fun unit _ => ?_
  have hclose : ∀ zone, Takes (do
      ElementReader.symbol ")"
      return { g with truncate := some ⟨unit, zone⟩ }) [.token ⟨.symbol, ")", r⟩] follow
        (IsOfPath scope base table) :=
    fun zone => Takes.symbol rfl (Takes.pure (hg.keeps ⟨rfl, rfl, rfl⟩))
  rcases hzone with rfl | ⟨p', name, rfl⟩
  · refine Takes.symbolIf_not (fun _ _ => Without.cons rfl) ?_
    exact hclose _
  · refine Takes.symbolIf rfl ?_
    simp only [if_true]
    refine Takes.nextToken ?_
    refine Takes.lift_bind (Settings.zoneNamed_yields name.value) fun _ _ => ?_
    exact hclose _

/-- Reading words up to a closing parenthesis. -/
theorem wordsToClose_takes {words : List Token} {q : Nat} {follow : List Element → Prop}
    (h : ∀ t ∈ words, t.isSymbol ")" = false) :
    Takes wordsToClose (elements words ++ [.token ⟨.symbol, ")", q⟩]) follow (fun _ => True) := by
  unfold wordsToClose
  have hloop : ∀ found : List String, Takes (loop (fun words => do
      if ← symbolIf ")" then return .done words
      else return .more (words ++ [(← ElementReader.nextToken).value])) found)
      (elements words ++ [.token ⟨.symbol, ")", q⟩]) follow (fun _ => True) := by
    induction words with
    | nil =>
      exact fun found => Takes.loop_done (Takes.symbolIf rfl (Takes.pure ⟨found, rfl, trivial⟩))
    | cons t words ih =>
      intro found
      simp only [List.mem_cons, forall_eq_or_imp] at h
      refine Takes.loop_more (a := [.token t]) (R := fun _ => True) (by simp) ?_
        fun s _ => ih h.2 s
      refine Takes.symbolIf_not (fun _ _ => Without.cons h.1) ?_
      exact Takes.nextToken (Takes.pure ⟨_, rfl, trivial⟩)
  exact hloop []

/-- The elements of a grouping by the words of a text behind its keyword. -/
def TermsElements (es : List Element) : Prop :=
  ∃ (p q : Nat) (path : Path) (words : List Element), path.Proper Path.FilterLog ∧
    (words = [] ∨ ∃ (r p' q' : Nat) (inside : List Token), (∀ t ∈ inside, t.isSymbol ")" = false) ∧
      words = .token ⟨.symbol, ",", r⟩ :: .token ⟨.symbol, "(", p'⟩ ::
        (elements inside ++ [.token ⟨.symbol, ")", q'⟩])) ∧
    es = .token ⟨.symbol, "(", p⟩ :: .path path :: (words ++ [.token ⟨.symbol, ")", q⟩])

theorem termsOf_takes (hclock : scope.clock.Shows good) {es : List Element}
    {follow : List Element → Prop} (h : TermsElements es) :
    Takes (termsOf scope base table) es follow (IsOfPath scope base table) := by
  obtain ⟨p, q, path, words, hpath, hwords, rfl⟩ := h
  unfold termsOf
  refine Takes.symbol rfl (Takes.nextPath ?_)
  refine Takes.lift_bind (ofPath_yields hclock hpath) fun g hg => ?_
  refine Takes.lift_bind requireLeaf_yields fun _ _ => ?_
  have hclose : ∀ words, Takes (do
      ElementReader.symbol ")"
      return { g with terms := true, stopWords := words }) [.token ⟨.symbol, ")", q⟩] follow
        (IsOfPath scope base table) :=
    fun words => Takes.symbol rfl (Takes.pure (hg.keeps ⟨rfl, rfl, rfl⟩))
  rcases hwords with rfl | ⟨r, p', q', inside, hinside, rfl⟩
  · refine Takes.symbolIf_not (fun _ _ => Without.cons rfl) ?_
    exact hclose _
  · refine Takes.symbolIf rfl ?_
    simp only [if_true]
    refine Takes.symbol rfl ?_
    refine Takes.bindAnything (wordsToClose_takes hinside) fun _ _ => ?_
    exact hclose _

/-- The elements of an item that no selection encloses. -/
def BaseElements (es : List Element) : Prop :=
  (∃ (path : Path) (modifiers : List Element), path.Proper Path.FilterLog ∧
    Repeated ModifierElements modifiers ∧ es = .path path :: modifiers) ∨
  (∃ (p : Nat) (tail : List Element), TruncationElements tail ∧
    es = .token ⟨.keyword, "TRUNCATE", p⟩ :: tail) ∨
  ∃ (p : Nat) (tail : List Element), TermsElements tail ∧
    es = .token ⟨.keyword, "TERMS", p⟩ :: tail

theorem baseItem_takes (hclock : scope.clock.Shows good)
    {es : List Element} (h : BaseElements es) :
    Takes (baseItem scope base table) es ItemEnd (IsOfPath scope base table) := by
  unfold baseItem
  rcases h with ⟨path, _, hpath, hmodifiers, rfl⟩ | ⟨p, tail, htail, rfl⟩ | ⟨p, tail, htail, rfl⟩
  · refine Takes.peek (Takes.skip ?_)
    exact Takes.lift_bind (ofPath_yields hclock hpath) fun g hg =>
      (modifiers_takes hclock hmodifiers).mono fun _ h => hg.keeps h
  · exact Takes.peek (Takes.skip (truncation_takes hclock htail))
  · exact Takes.peek (Takes.skip (termsOf_takes hclock htail))

/-- The elements of the start of a selection. -/
def SelectionElements (es : List Element) : Prop :=
  ∃ (word value : String) (p q r p' : Nat), word ∈ selectionWords ∧
    es = [.token ⟨.keyword, word, p⟩, .token ⟨.symbol, "(", q⟩, .token ⟨.number, value, r⟩,
      .token ⟨.symbol, ",", p'⟩]

theorem selectionKind_of_word {word : String} (h : word ∈ selectionWords) :
    ∃ kind, SelectionKind.ofKeyword? word = some kind := by
  have hall : selectionWords.all (fun word => (SelectionKind.ofKeyword? word).isSome) = true := by
    decide
  exact Option.isSome_iff_exists.mp (List.all_eq_true.mp hall word h)

theorem selectionCount_takes {keyword value : String} {q r p' : Nat} :
    Takes (selectionCount keyword) [.token ⟨.symbol, "(", q⟩, .token ⟨.number, value, r⟩,
      .token ⟨.symbol, ",", p'⟩] Anything (fun _ => True) := by
  unfold selectionCount
  refine Takes.symbol rfl (Takes.nextToken ?_)
  dsimp only
  split
  · exact Takes.refuse _
  · exact Takes.refuse _
  · exact Takes.symbol rfl (Takes.pure trivial)

/-- What begins an item inside its selections. -/
def BaseStart (rest : List Element) : Prop :=
  Without (fun t => (SelectionKind.ofKeyword? t.value).isSome) rest

/-- Reading the selections around an item. -/
theorem selections_takes {starts : List (List Element)}
    (h : ∀ start ∈ starts, SelectionElements start) :
    Takes selections starts.flatten BaseStart (fun found => found.length = starts.length) := by
  unfold selections
  refine Takes.mono (P := fun found => found.length = ([] : List Selection).length + starts.length)
    ?_ fun found h => by simpa using h
  generalize ([] : List Selection) = found
  induction starts generalizing found with
  | nil =>
    refine Takes.loop_done (Takes.peekToken_not (fun rest hrest => hrest) (fun found' hfound => ?_)
      (Takes.pure (a := .done found) ⟨found, rfl, rfl⟩))
    cases found' with
    | none => rfl
    | some t =>
      have hnone : SelectionKind.ofKeyword? t.value = none := by simpa using hfound t rfl
      simp only [hnone]
  | cons start starts ih =>
    simp only [List.mem_cons, forall_eq_or_imp] at h
    obtain ⟨⟨word, value, p, q, r, p', hword, rfl⟩, hstarts⟩ := h
    obtain ⟨kind, hkind⟩ := selectionKind_of_word hword
    rw [List.flatten_cons]
    refine Takes.loop_more (R := fun all => all.length = found.length + 1) (by simp) ?_
      fun all hall => ?_
    · refine Takes.peekToken ?_
      simp only [hkind]
      exact Takes.skip (Takes.andThen selectionCount_takes fun _ _ => Takes.pure ⟨_, rfl, rfl⟩)
    · refine (ih hstarts all).mono fun _ h => ?_
      rw [h, hall, List.length_cons]
      omega

/-- Reading the ends of the selections around an item. -/
theorem closeSelections_takes {g : Grouping} {outer : List Selection} {closes : List Nat}
    {follow : List Element → Prop} (h : outer.length = closes.length) :
    Takes (closeSelections g outer) (closes.map fun p => .token ⟨.symbol, ")", p⟩) follow
      g.KeepsPath := by
  induction outer generalizing g closes with
  | nil =>
    obtain rfl : closes = [] := List.length_eq_zero_iff.mp h.symm
    exact Takes.pure (.refl g)
  | cons selection outer ih =>
    cases closes with
    | nil => simp at h
    | cons p closes =>
      unfold closeSelections
      refine Takes.symbol rfl ?_
      dsimp only
      split
      · exact Takes.refuse_bind _
      · exact (ih (by simpa using h)).mono fun _ hg => ⟨hg.through, hg.leaf, hg.filter⟩

/-- The elements of an item, inside any number of selections. -/
def ItemElements (es : List Element) : Prop :=
  ∃ (starts : List (List Element)) (inside : List Element) (closes : List Nat),
    (∀ start ∈ starts, SelectionElements start) ∧ BaseElements inside ∧
    closes.length = starts.length ∧
    es = starts.flatten ++ (inside ++ closes.map fun p => .token ⟨.symbol, ")", p⟩)

theorem BaseElements.start {es : List Element} (h : BaseElements es)
    (rest : List Element) : BaseStart (es ++ rest) := by
  have htruncate : (SelectionKind.ofKeyword? "TRUNCATE").isSome = false := by decide
  have hterms : (SelectionKind.ofKeyword? "TERMS").isSome = false := by decide
  rcases h with ⟨_, _, _, _, rfl⟩ | ⟨_, _, _, rfl⟩ | ⟨_, _, _, rfl⟩
  · exact Without.path
  · exact Without.cons htruncate
  · exact Without.cons hterms

/-- Reading an item. -/
theorem item_takes (hclock : scope.clock.Shows good) {es : List Element}
    (h : ItemElements es) :
    Takes (item scope base table) es ItemEnd (IsOfPath scope base table) := by
  obtain ⟨starts, inside, closes, hstarts, hinside, hlength, rfl⟩ := h
  unfold item
  refine Takes.bind (selections_takes hstarts) (fun rest _ => ?_) fun found hfound => ?_
  · rw [List.append_assoc]
    exact hinside.start _
  refine Takes.bind (baseItem_takes hclock hinside) (fun rest hrest => ?_) fun g hg => ?_
  · cases closes with
    | nil => exact hrest
    | cons p closes =>
      rintro _ ⟨⟩
      exact ⟨")", p, rfl, Or.inr rfl⟩
  · exact (closeSelections_takes (hfound.trans hlength.symm)).mono fun _ h => hg.keeps h

/-- An item inside one more selection. -/
theorem ItemElements.selected {start es : List Element} (p : Nat)
    (hstart : SelectionElements start) (h : ItemElements es) :
    ItemElements (start ++ (es ++ [.token ⟨.symbol, ")", p⟩])) := by
  obtain ⟨starts, inside, closes, hstarts, hinside, hlength, rfl⟩ := h
  refine ⟨start :: starts, inside, closes ++ [p], ?_, hinside, by simp [hlength], by simp⟩
  exact List.forall_mem_cons.mpr ⟨hstart, hstarts⟩

theorem ItemElements.notGroup {es : List Element} (h : ItemElements es)
    (rest : List Element) : Without (·.isKeyword "GROUP") (es ++ rest) := by
  obtain ⟨starts, inside, closes, hstarts, hinside, -, rfl⟩ := h
  cases starts with
  | nil =>
    rcases hinside with ⟨_, _, _, _, rfl⟩ | ⟨_, _, _, rfl⟩ | ⟨_, _, _, rfl⟩
    · exact Without.path
    · exact Without.cons rfl
    · exact Without.cons rfl
  | cons start starts =>
    obtain ⟨word, value, p, q, r, p', hword, rfl⟩ := hstarts start List.mem_cons_self
    have hall : selectionWords.all (· != "GROUP") = true := by decide
    refine Without.cons ?_
    simpa [Token.isKeyword] using List.all_eq_true.mp hall word hword

theorem ItemElements.ne_nil {es : List Element} (h : ItemElements es) :
    es ≠ [] := by
  obtain ⟨starts, inside, closes, hstarts, hinside, -, rfl⟩ := h
  rcases hinside with ⟨_, _, _, _, rfl⟩ | ⟨_, _, _, rfl⟩ | ⟨_, _, _, rfl⟩ <;> simp

/-! ## Grouping sets -/

/-- The elements of a set, or of an item outside of any. -/
def SetElements (es : List Element) : Prop :=
  ItemElements es ∨ ∃ (p q r : Nat) (items : List Element),
    Separated ItemElements items ∧
    es = .token ⟨.keyword, "GROUP", p⟩ :: .token ⟨.symbol, "(", q⟩ ::
      (items ++ [.token ⟨.symbol, ")", r⟩])

theorem groupLevels_takes (hclock : scope.clock.Shows good)
    {items : List Element} {q r : Nat} {follow : List Element → Prop}
    (h : Separated ItemElements items) :
    Takes (groupLevels (item scope base table))
      (.token ⟨.symbol, "(", q⟩ :: (items ++ [.token ⟨.symbol, ")", r⟩])) follow
      (∀ level ∈ ·, IsOfPath scope base table level) := by
  unfold groupLevels
  refine Takes.symbol rfl ?_
  have hmore : ∀ {levels : List Grouping} {g : Grouping},
      (∀ level ∈ levels, IsOfPath scope base table level) → IsOfPath scope base table g →
      ∀ level ∈ levels ++ [g], IsOfPath scope base table level := fun hlevels hg =>
    List.forall_mem_append.mpr ⟨hlevels, List.forall_mem_singleton.mpr hg⟩
  have hitems : Takes (loop (fun levels => do
      let levels := levels ++ [← item scope base table]
      if ← symbolIf "," then return .more levels else return .done levels) []) (items ++ [])
      (fun rest => Without (·.isSymbol ",") rest ∧ ItemEnd rest)
      (∀ level ∈ ·, IsOfPath scope base table level) := by
    refine Takes.loop_items (R := (∀ level ∈ ·, IsOfPath scope base table level))
      (fun levels es p hlevels hes => ?_) (fun levels es hlevels hes => ?_) h (by simp)
    · refine Takes.bind (item_takes hclock hes) (fun _ _ => ?_) fun g hg => ?_
      · rintro _ ⟨⟩
        exact ⟨",", p, rfl, Or.inl rfl⟩
      · exact Takes.symbolIf rfl (Takes.pure ⟨_, rfl, hmore hlevels hg⟩)
    · refine Takes.bind (item_takes hclock hes) (fun _ hrest => hrest.2) fun g hg => ?_
      exact Takes.symbolIf_not (fun _ hrest => hrest.1)
        (Takes.pure ⟨_, rfl, hmore hlevels hg⟩)
  rw [List.append_nil] at hitems
  refine Takes.bind hitems (fun rest _ => ⟨Without.cons rfl, ?_⟩) fun levels hlevels => ?_
  · rintro _ ⟨⟩
    exact ⟨")", r, rfl, Or.inr rfl⟩
  · exact Takes.symbol rfl (Takes.pure hlevels)

/-- The levels of all sets are those of paths. -/
def AllOfPaths (scope : Scope) (base : Option Query) (table : String) (sets : List GroupingSet) :
    Prop :=
  ∀ set ∈ sets, ∀ level ∈ set.levels, IsOfPath scope base table level

theorem AllOfPaths.append {sets : List GroupingSet} {levels : List Grouping}
    (h : AllOfPaths scope base table sets)
    (hlevels : ∀ level ∈ levels, IsOfPath scope base table level) :
    AllOfPaths scope base table (sets ++ [⟨levels⟩]) :=
  List.forall_mem_append.mpr ⟨h, List.forall_mem_singleton.mpr hlevels⟩

/-- A level outside of any `GROUP` is added to the levels that are there. -/
theorem Sets.level_addBare {s : Sets} {g level : Grouping} {set : GroupingSet}
    (hset : set ∈ (s.addBare g).sets) (hlevel : level ∈ set.levels) :
    level = g ∨ ∃ old ∈ s.sets, level ∈ old.levels := by
  unfold Sets.addBare at hset
  split at hset
  · rcases List.mem_append.mp hset with hset | hset
    · exact Or.inr ⟨set, hset, hlevel⟩
    · obtain rfl := List.mem_singleton.mp hset
      exact Or.inl (List.mem_singleton.mp hlevel)
  · rw [List.mem_iff_getElem?] at hset
    obtain ⟨k, hk⟩ := hset
    rw [List.getElem?_modify] at hk
    obtain ⟨old, hold, rfl⟩ := Option.map_eq_some_iff.mp hk
    have hold := List.mem_of_getElem? hold
    split at hlevel
    · rcases List.mem_append.mp hlevel with hlevel | hlevel
      · exact Or.inr ⟨old, hold, hlevel⟩
      · exact Or.inl (List.mem_singleton.mp hlevel)
    · exact Or.inr ⟨old, hold, hlevel⟩

theorem AllOfPaths.addBare {s : Sets} {g : Grouping} (h : AllOfPaths scope base table s.sets)
    (hg : IsOfPath scope base table g) : AllOfPaths scope base table (s.addBare g).sets := by
  intro set hset level hlevel
  rcases Sets.level_addBare hset hlevel with rfl | ⟨old, hold, hlevel⟩
  · exact hg
  · exact h old hold level hlevel

theorem setOrLevel_takes (hclock : scope.clock.Shows good) {s : Sets}
    {es behind : List Element} {follow : List Element → Prop} (hes : SetElements es)
    (hbehind : ∀ rest, follow rest → ItemEnd (behind ++ rest))
    (hseparator : Takes (separator .groupingSeparator) behind follow (fun _ => True))
    (hs : AllOfPaths scope base table s.sets) :
    Takes (setOrLevel (item scope base table) s) (es ++ behind) follow
      (fun s => AllOfPaths scope base table s.sets) := by
  unfold setOrLevel
  have hend : ∀ s : Sets, AllOfPaths scope base table s.sets → Takes (do
      separator .groupingSeparator
      return s) behind follow (fun s => AllOfPaths scope base table s.sets) :=
    fun s hs => Takes.andThen hseparator fun _ _ => Takes.pure hs
  rcases hes with hes | ⟨p, q, r, items, hitems, rfl⟩
  · refine Takes.keywordIf_not (fun rest _ => ?_) ?_
    · rw [List.append_assoc]
      exact hes.notGroup _
    · exact Takes.bind (item_takes hclock hes) hbehind fun g hg => hend _ (hs.addBare hg)
  · refine Takes.keywordIf rfl ?_
    exact Takes.bindAnything (groupLevels_takes hclock hitems) fun levels hlevels =>
      hend _ (hs.append hlevels)

/-! ## Logs -/

section Logs

variable {calls : List Bool} {done : List Element} {n : Nat} {log : List Token}

theorem gathers_modifier {lang : Part → LogSet} (h : Produces lang modifier log) :
    Gathers .list calls done log ModifierElements := by
  simp only [modifier, Produces, ProducesAll, produces_hidden, produces_keywords, produces_symbol,
    chained_nil_left, chained_nil_right] at h
  obtain ⟨_, _, rfl, ⟨word, hword, p, rfl⟩, _, _, rfl, ⟨q, rfl⟩, values, _, rfl, hvalues, r, rfl⟩ := h
  have hgathers : ∀ done, Gathers .list calls done values
      (fun es => es = [] ∨ Separated ValueElements es) := by
    intro done
    rcases hvalues with rfl | hvalues
    · exact Gathers.nil.mono fun es hes => Or.inl hes
    have hlist : Produces lang (.list (.choice [relativeTime, .quoted, .number, .word]) (symbol ","))
        values := by
      simpa only [Produces, produces_symbol] using hvalues
    refine (Gathers.items (fun done log hlog _ => ?_) hlist (Nat.le_refl _)).mono
      fun es hes => Or.inr hes
    have htokens : log.all standsAlone = true := by
      have hplain := hlog
      simp only [Produces, ProducesAny, or_false] at hplain
      rcases hplain with hlog | ⟨value, p, rfl⟩ | ⟨value, p, rfl⟩ | ⟨value, p, rfl⟩
      · exact relativeTime_standsAlone hlog
      all_goals rfl
    exact (Gathers.tokens htokens).mono fun es hes => ⟨lang, log, hlog, hes⟩
  show Gathers .list calls done
    (⟨.keyword, word, p⟩ :: ⟨.symbol, "(", q⟩ :: (values ++ [⟨.symbol, ")", r⟩])) _
  refine Gathers.cons (fun _ => collect_list_token rfl) ?_
  refine Gathers.cons (fun _ => collect_list_token rfl) ?_
  refine Gathers.append (hgathers _) fun values hvalues => ?_
  refine (Gathers.tokens rfl).mono ?_
  rintro _ rfl
  exact ⟨word, p, q, r, values, hword, hvalues, rfl⟩

theorem gathers_modifiers {lang : Part → LogSet} (h : Repeated (Produces lang modifier) log) :
    Gathers .list calls done log (Repeated ModifierElements) := by
  obtain ⟨parts, rfl, hparts⟩ := h
  induction parts generalizing done with
  | nil =>
    refine Gathers.nil.mono ?_
    rintro _ rfl
    exact Repeated.nil _
  | cons part parts ih =>
    simp only [List.mem_cons, forall_eq_or_imp] at hparts
    refine Gathers.append (gathers_modifier hparts.1) fun first hfirst => ?_
    exact (ih hparts.2).mono fun rest hrest => Repeated.cons hfirst hrest

/-- The elements of the path of a grouping. -/
theorem gathers_path (h : Produces (Generates Part.body n) modifiablePath log) :
    Gathers .list calls done log (IsPath Path.FilterLog) := by
  rw [produces_modifiablePath] at h
  refine (Gathers.path _ h (Nat.le_refl _)).mono ?_
  rintro _ ⟨path, hproper, rfl⟩
  exact ⟨path, hproper.mono fun _ h => h.1, rfl⟩

theorem gathers_truncation (h : Produces (Generates Part.body n) Language.truncation log) :
    Gathers .list calls done log BaseElements := by
  simp only [Language.truncation, timeUnit, Produces, ProducesAll, produces_symbol,
    produces_keywords, produces_zoneName, chained_nil_right] at h
  obtain ⟨_, _, rfl, ⟨p, rfl⟩, _, _, rfl, ⟨q, rfl⟩, path, _, rfl, hpath, _, _, rfl, ⟨r, rfl⟩, _, _,
    rfl, ⟨unit, hunit, p', rfl⟩, zone, _, rfl, hzone, q', rfl⟩ := h
  have hend : ∃ found : List Element, (zone ++ [(⟨.symbol, ")", q'⟩ : Token)]).map Element.token =
      found ++ [.token ⟨.symbol, ")", q'⟩] ∧ (zone ++ [(⟨.symbol, ")", q'⟩ : Token)]).all standsAlone = true ∧
      (found = [] ∨ ∃ (p' : Nat) (name : Token),
        found = [.token ⟨.symbol, ",", p'⟩, .token name]) := by
    rcases hzone with rfl | ⟨_, _, rfl, ⟨r', rfl⟩, ⟨value, s, rfl⟩ | ⟨value, s, rfl⟩⟩
    · exact ⟨[], rfl, rfl, Or.inl rfl⟩
    · exact ⟨_, rfl, rfl, Or.inr ⟨r', _, rfl⟩⟩
    · exact ⟨_, rfl, rfl, Or.inr ⟨r', _, rfl⟩⟩
  obtain ⟨found, hfound, htokens, hzone⟩ := hend
  show Gathers .list calls done (⟨.keyword, "TRUNCATE", p⟩ :: ⟨.symbol, "(", q⟩ ::
    (path ++ ⟨.symbol, ",", r⟩ :: ⟨.keyword, unit, p'⟩ :: (zone ++ [⟨.symbol, ")", q'⟩]))) _
  refine Gathers.cons (fun _ => collect_list_token rfl) ?_
  refine Gathers.cons (fun _ => collect_list_token rfl) ?_
  refine Gathers.append (gathers_path hpath) ?_
  rintro _ ⟨path, hproper, rfl⟩
  refine Gathers.cons (fun _ => collect_list_token rfl) ?_
  refine Gathers.cons (fun _ => collect_list_token rfl) ?_
  refine (Gathers.tokens htokens).mono ?_
  rintro _ rfl
  rw [hfound]
  exact Or.inr (Or.inl ⟨p, _, ⟨q, r, q', path, ⟨.keyword, unit, p'⟩, found, hproper, hunit, hzone,
    rfl⟩, rfl⟩)

theorem gathers_terms (h : Produces (Generates Part.body n) Language.terms log) :
    Gathers .list calls done log BaseElements := by
  simp only [Language.terms, Produces, ProducesAll, ProducesAny, produces_symbol, chained_nil_right,
    or_false] at h
  obtain ⟨_, _, rfl, ⟨p, rfl⟩, _, _, rfl, ⟨q, rfl⟩, path, _, rfl, hpath, words, _, rfl, hwords, r,
    rfl⟩ := h
  have hend : ∃ found : List Element, (words ++ [(⟨.symbol, ")", r⟩ : Token)]).map Element.token =
      found ++ [.token ⟨.symbol, ")", r⟩] ∧ (words ++ [(⟨.symbol, ")", r⟩ : Token)]).all standsAlone = true ∧
      (found = [] ∨ ∃ (r p' q' : Nat) (inside : List Token),
        (∀ t ∈ inside, t.isSymbol ")" = false) ∧
        found = .token ⟨.symbol, ",", r⟩ :: .token ⟨.symbol, "(", p'⟩ ::
          (elements inside ++ [.token ⟨.symbol, ")", q'⟩])) := by
    rcases hwords with rfl | ⟨_, _, rfl, ⟨p', rfl⟩, _, _, rfl, ⟨q', rfl⟩, inside, _, rfl, hinside,
      r', rfl⟩
    · exact ⟨[], rfl, rfl, Or.inl rfl⟩
    have hnames : ∀ t ∈ inside, standsAlone t = true ∧ t.isSymbol ")" = false := by
      obtain ⟨parts, rfl, hparts⟩ := hinside
      intro t ht
      obtain ⟨part, hpart, ht⟩ := List.mem_flatten.mp ht
      rcases hparts part hpart with ⟨value, s, rfl⟩ | ⟨value, s, rfl⟩ <;>
        obtain rfl := List.mem_singleton.mp ht <;> exact ⟨rfl, rfl⟩
    refine ⟨.token ⟨.symbol, ",", p'⟩ :: .token ⟨.symbol, "(", q'⟩ ::
      (elements inside ++ [.token ⟨.symbol, ")", r'⟩]), by simp [elements], ?_,
      Or.inr ⟨p', q', r', inside, fun t ht => (hnames t ht).2, rfl⟩⟩
    have hclose : ∀ s, standsAlone ⟨.symbol, ")", s⟩ = true := fun _ => rfl
    have hopen : ∀ s, standsAlone ⟨.symbol, "(", s⟩ = true := fun _ => rfl
    have hcomma : ∀ s, standsAlone ⟨.symbol, ",", s⟩ = true := fun _ => rfl
    simpa [hclose, hopen, hcomma] using fun t ht => (hnames t ht).1
  obtain ⟨found, hfound, htokens, hwords⟩ := hend
  show Gathers .list calls done (⟨.keyword, "TERMS", p⟩ :: ⟨.symbol, "(", q⟩ ::
    (path ++ (words ++ [⟨.symbol, ")", r⟩]))) _
  refine Gathers.cons (fun _ => collect_list_token rfl) ?_
  refine Gathers.cons (fun _ => collect_list_token rfl) ?_
  refine Gathers.append (gathers_path hpath) ?_
  rintro _ ⟨path, hproper, rfl⟩
  refine (Gathers.tokens htokens).mono ?_
  rintro _ rfl
  rw [hfound]
  exact Or.inr (Or.inr ⟨p, _, ⟨q, r, path, found, hproper, hwords, rfl⟩, rfl⟩)

/-- The elements of the log of an item. -/
theorem gathers_item (h : Generates Part.body n .groupItem log) :
    Gathers .list calls done log ItemElements := by
  have hplain : ∀ {es : List Element}, BaseElements es → ItemElements es :=
    fun hes => ⟨[], _, [], by simp, hes, rfl, by simp⟩
  induction n generalizing done log with
  | zero => exact h.elim
  | succ n ih =>
    simp only [Generates, Part.body, Language.groupItem, Produces, ProducesAny, or_false] at h
    rcases h with h | h | h | h
    · simp only [Language.selection, Produces, ProducesAll, produces_symbol, produces_keywords,
        chained_nil_right] at h
      obtain ⟨_, _, rfl, ⟨word, hword, p, rfl⟩, _, _, rfl, ⟨q, rfl⟩, _, _, rfl, ⟨value, r, rfl⟩, _, _,
        rfl, ⟨p', rfl⟩, inside, _, rfl, hinside, q', rfl⟩ := h
      show Gathers .list calls done (⟨.keyword, word, p⟩ :: ⟨.symbol, "(", q⟩ ::
        ⟨.number, value, r⟩ :: ⟨.symbol, ",", p'⟩ :: (inside ++ [⟨.symbol, ")", q'⟩])) _
      refine Gathers.cons (fun _ => collect_list_token rfl) ?_
      refine Gathers.cons (fun _ => collect_list_token rfl) ?_
      refine Gathers.cons (fun _ => collect_list_token rfl) ?_
      refine Gathers.cons (fun _ => collect_list_token rfl) ?_
      refine Gathers.append (ih hinside) fun es hes => ?_
      refine (Gathers.tokens rfl).mono ?_
      rintro _ rfl
      exact ItemElements.selected q' ⟨word, value, p, q, r, p', hword, rfl⟩ hes
    · exact (gathers_truncation h).mono fun _ hes => hplain hes
    · exact (gathers_terms h).mono fun _ hes => hplain hes
    · simp only [ProducesAll, Produces, chained_nil_right] at h
      obtain ⟨path, modifiers, rfl, hpath, hmodifiers⟩ := h
      refine Gathers.append (gathers_path hpath) ?_
      rintro _ ⟨path, hproper, rfl⟩
      refine (gathers_modifiers hmodifiers).mono fun es hes => hplain ?_
      exact Or.inl ⟨path, es, hproper, hes, rfl⟩

/-- The elements of the log of a set, or of an item outside of any. -/
theorem gathers_set (h : Produces (Generates Part.body n) (.choice [
      .sequence [
        .keyword "GROUP",
        symbol "(",
        .required (.list (.nonterminal .groupItem) (symbol ",")) "a grouping item",
        .required (symbol ")") "')'"],
      .nonterminal .groupItem]) log) :
    Gathers .list calls done log SetElements := by
  simp only [Produces, ProducesAny, or_false] at h
  rcases h with h | h
  · simp only [ProducesAll, Produces, produces_symbol, chained_nil_right] at h
    obtain ⟨_, _, rfl, ⟨p, rfl⟩, _, _, rfl, ⟨q, rfl⟩, items, _, rfl, hitems, r, rfl⟩ := h
    have hlist : Produces (Generates Part.body n) (.list (.nonterminal .groupItem) (symbol ","))
        items := by
      simpa only [Produces, produces_symbol] using hitems
    show Gathers .list calls done (⟨.keyword, "GROUP", p⟩ :: ⟨.symbol, "(", q⟩ ::
      (items ++ [⟨.symbol, ")", r⟩])) _
    refine Gathers.cons (fun _ => collect_list_token rfl) ?_
    refine Gathers.cons (fun _ => collect_list_token rfl) ?_
    refine Gathers.append (Gathers.items (fun done log hlog _ => gathers_item
      (by simpa only [Produces] using hlog)) hlist (Nat.le_refl _)) fun items hitems => ?_
    refine (Gathers.tokens rfl).mono ?_
    rintro _ rfl
    exact Or.inr ⟨p, q, r, items, hitems, rfl⟩
  · exact (gathers_item h).mono fun es hes => Or.inl hes

/-- The grouping sets of a log. -/
theorem build_yields (hclock : scope.clock.Shows good)
    (h : log ≠ [] → Produces (Generates Part.body n) groupings log) :
    Yields (AllOfPaths scope base table) (build scope base table log) := by
  have hlog : log ≠ [] → Gathers .list [] [] log (Separated SetElements) := fun hempty =>
    Gathers.items (fun _ _ hlog _ => gathers_set hlog) (h hempty) (Nat.le_refl _)
  have hsets : Yields (fun s => AllOfPaths scope base table s.sets)
      (run (untilEnd (setOrLevel (item scope base table)) ⟨[], none⟩) .list log) := by
    refine run_items hlog ?_ (fun s es p hs hes => ?_) (fun s es hs hes => ?_) nofun
    · rintro _ (hes | ⟨_, _, _, _, _, rfl⟩)
      · exact hes.ne_nil
      · simp
    · refine setOrLevel_takes hclock hes (fun rest _ => ?_) (Takes.separator p) hs
      rintro _ ⟨⟩
      exact ⟨",", p, rfl, Or.inl rfl⟩
    · rw [← List.append_nil es]
      refine setOrLevel_takes hclock hes (fun rest hrest => ?_) Takes.noSeparator hs
      obtain rfl : rest = [] := hrest
      exact nofun
  unfold build
  exact hsets.bind fun _ hs => hs

end Logs

end LinkQuery.Grouping
