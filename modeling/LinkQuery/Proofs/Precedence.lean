import LinkQuery.Proofs.AlikePaths
import LinkQuery.Proofs.PathMeaning
/-!
# Filters have the trees of their derivations

The filters inside a term are built like filters of their own, so a term has the same tree wherever
it stands. With that, building a filter gives the tree of its derivation: the disjunction of its
alternatives, each the conjunction of its terms in order, each run of negations applied to what
stands right behind it.

Main statements:
- `Filter.termQuery_congr`: a term depends on the filters inside it only.
- `Filter.buildIn_eq_derivation`: the tree of a filter is the tree of its derivation.
-/
namespace LinkQuery.Filter

open Rule ElementReader
open Compiler (staff toOption_eq_some)

/-! ## Filters inside terms -/

/-- Both build the logs of a set alike. -/
def Nested.AlikeOn (inner : LogSet) (a b : Nested) : Prop :=
  ∀ table log, inner log → a table log = b table log

/-- A term depends on the filters inside it only. -/
theorem termQuery_congr {inner : LogSet} {a b : Nested} {scope : Scope} {table : String}
    {tail : Tail} (h : Nested.AlikeOn inner a b) {path : Path}
    (hpath : ∀ s ∈ path.segments, s.Inside inner) :
    termQuery scope a table path tail = termQuery scope b table path tail := by
  refine termQuery_alike ?_ (List.forall₂_same.mpr fun s hs => (hpath s hs).alike)
  rintro log _ ⟨rfl, hlog⟩ table
  exact h table log hlog

section Terms

variable {inner : LogSet} {a b : Nested} {scope : Scope} {table : String}

/-- What follows a counted path sees it only. -/
theorem countedPath_congr {β : Type} {f g : Path → ElementReader β} {es : List Element}
    (h : ∀ path, .path path ∈ es → f path = g path) :
    (countedPath >>= f) es = (countedPath >>= g) es := by
  cases hcounted : countedPath es with
  | error why =>
    show (countedPath es >>= _) = (countedPath es >>= _)
    rw [hcounted]
    rfl
  | ok found =>
    obtain ⟨path, rest⟩ := found
    show (countedPath es >>= _) = (countedPath es >>= _)
    rw [hcounted]
    show f path rest = g path rest
    rw [h path (countedPath_mem hcounted)]

/-- A term depends on the filters inside its paths only. -/
theorem term_congr (h : Nested.AlikeOn inner a b) {e : Element} {es : List Element}
    (hpaths : ∀ path, .path path ∈ e :: es → path.Proper inner) :
    term scope a table e es = term scope b table e es := by
  cases e with
  | path start =>
    have hstart := hpaths start (List.mem_cons_self ..)
    simp only [term, termQuery_congr h fun s hs => (hstart s hs).inside]
  | token t =>
    have hcounted : ∀ path, .path path ∈ es → path.Proper inner :=
      fun path hpath => hpaths path (List.mem_cons_of_mem _ hpath)
    simp only [term]
    split
    · unfold call
      split
      · exact countedPath_congr fun path hpath => by
          simp only [termQuery_congr h fun s hs => (hcounted path hpath s hs).inside]
      · rfl
    · rfl

/-- A term by itself depends on the filters inside its paths only. -/
theorem termTree_congr {limit : Nat} {log : List Token}
    (h : Nested.AlikeOn (Path.InnerLog limit) a b) (hlog : TermLog log)
    (hlimit : log.length ≤ limit) :
    termTree scope a table log = termTree scope b table log := by
  have hterm : AddsTerm scope table _ _ log := adds_term scope.clock.shows_any hlog hlimit
  obtain ⟨v, hadds, hv⟩ := hterm
  obtain ⟨_, rfl, -⟩ | ⟨_, rfl, e, tail, rfl, -, hpaths, -⟩ := hv.cases
  · rw [termTree_of_refused (hadds []).ofTokens, termTree_of_refused (hadds []).ofTokens]
  · rw [termTree_of_elements (hadds []).ofTokens, termTree_of_elements (hadds []).ofTokens,
      term_congr h hpaths]

/-- A derivation depends on the trees of the terms in its log only. -/
theorem Derivation.congr {f g : List Token → Built} {phrase : Phrase} {log : List Token}
    {v : Built} {limit : Nat} (hfg : ∀ log, TermLog log → log.length ≤ limit → f log = g log)
    (h : Derivation f phrase log v) (hlimit : log.length ≤ limit) : Derivation g phrase log v := by
  induction h with
  | @term log h =>
    rw [hfg log h hlimit]
    exact .term h
  | star p => exact .star p
  | group p q h ih =>
    simp only [List.length_append, List.length_cons] at hlimit
    exact .group p q (ih (by omega))
  | unary nots h ih =>
    simp only [List.length_append] at hlimit
    exact .unary nots (ih (by omega))
  | conjunction hterms hlog ih =>
    simp only [List.length_append] at hlimit
    refine .conjunction (fun t ht => ih t ht ?_) hlog
    rcases List.mem_cons.mp ht with rfl | ht
    · omega
    · have := hlog.item_length (List.mem_map_of_mem ht)
      omega
  | disjunction hparts hlog ih =>
    simp only [List.length_append] at hlimit
    refine .disjunction (fun t ht => ih t ht ?_) hlog
    rcases List.mem_cons.mp ht with rfl | ht
    · omega
    · have := hlog.item_length (List.mem_map_of_mem ht)
      omega

end Terms

/-! ## Whole filters -/

/--
The log of a filter has a derivation, and whatever derivation it has, building the filter gives the
tree of that derivation, or refuses its elements.
-/
theorem buildIn_eq_derivation (scope : Scope) (table : String) {log : List Token}
    (h : Path.FilterLog log) :
    (∃ v, Derivation (termTree scope (buildIn scope) table) .disjunction log v) ∧
    ∀ v, Derivation (termTree scope (buildIn scope) table) .disjunction log v →
      buildIn scope table log = (do let _ ← Element.ofTokens .filter log; v) := by
  refine ⟨derivation_of_filterLog h, fun v hv => ?_⟩
  have hshorter : Nested.AlikeOn (Path.InnerLog log.length) (buildIn scope) fun target inner =>
      if inner.length < log.length then buildIn scope target inner else internal .noProgress := by
    intro target inner hinner
    exact (if_pos hinner.2).symm
  have hv := hv.congr (fun _ hlog hlimit => termTree_congr hshorter hlog hlimit) (Nat.le_refl _)
  have hbuilds : Nested.Builds scope.schema (fun _ => True) (Path.InnerLog log.length)
      fun target inner =>
        if inner.length < log.length then buildIn scope target inner else internal .noProgress := by
    intro target inner hinner
    rw [← hshorter target inner hinner]
    exact buildIn_yields scope.clock.shows_any hinner.1
  rw [buildIn]
  rcases buildWith_derivation scope.clock.shows_any hbuilds hv with
    ⟨_, -, helements, hrefused⟩ | ⟨⟨es, helements⟩, hbuilt, -⟩
  · rw [helements, hrefused]
    rfl
  · rw [helements, hbuilt]
    rfl

/-- Two alternatives, a negated filter in parentheses with a term beside it. -/
theorem buildIn_eq_derivation_names : ∃ scope log v, staff.scope = .ok scope ∧
    staff.log .filter "NOT NOT (Name = 'Ann', NOT *) Boss OR Boss IS NULL" = .ok log ∧
    Derivation (termTree scope (buildIn scope) "Person") .disjunction log v ∧
    buildIn scope "Person" log = (do let _ ← Element.ofTokens .filter log; v) := by
  have hread : (staff.scope.toOption.bind fun _ =>
      (staff.log .filter "NOT NOT (Name = 'Ann', NOT *) Boss OR Boss IS NULL").toOption.map
        List.isEmpty) = some false := by decide +kernel
  obtain ⟨scope, hscope, hread⟩ := Option.bind_eq_some_iff.mp hread
  obtain ⟨log, hlog, hempty⟩ := Option.map_eq_some_iff.mp hread
  have hlog := toOption_eq_some hlog
  have hfilter : Path.FilterLog log :=
    ⟨_, (staff.log_answers .filter _).of_ok hlog (List.isEmpty_eq_false_iff.mp hempty)⟩
  obtain ⟨⟨v, hv⟩, htree⟩ := buildIn_eq_derivation scope "Person" hfilter
  exact ⟨scope, log, v, toOption_eq_some hscope, hlog, hv, htree v hv⟩

end LinkQuery.Filter
