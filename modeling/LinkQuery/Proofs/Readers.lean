import LinkQuery.ElementReader
import LinkQuery.Proofs.Refusal
/-!
# Readers that take what they should

`Reads r elements follow v` says that `r` takes exactly these elements in front of anything that may
follow, and gives `v`. `Takes r elements follow P` says so for some `v` that satisfies `P` or refuses
the expression. A reader in steps takes what its steps take one after another.

Main statements:
- `Takes.bind`: a reader behind a reader.
- `Takes.loop_more`, `Takes.loop_done`: one round of a loop.
-/
namespace LinkQuery.ElementReader

variable {α β σ : Type}

/-- The reader takes these elements in front of what may follow, and gives this result. -/
def Reads (r : ElementReader α) (elements : List Element) (follow : List Element → Prop)
    (v : Except QueryError α) : Prop :=
  ∀ rest, follow rest → r (elements ++ rest) = v.map fun a => (a, rest)

/-- The reader takes these elements in front of what may follow, and gives what satisfies `P` or
refuses the expression. -/
def Takes (r : ElementReader α) (elements : List Element) (follow : List Element → Prop)
    (P : α → Prop) : Prop :=
  ∃ v, Reads r elements follow v ∧ Yields P v

/-- Anything may follow. -/
def Anything (_ : List Element) : Prop := True

/-- Nothing may follow. -/
def Nothing (rest : List Element) : Prop := rest = []

/-- No token of a form may follow. -/
def Without (accept : Token → Bool) (rest : List Element) : Prop :=
  ∀ t, rest.head? = some (.token t) → accept t = false

theorem Without.cons {accept : Token → Bool} {t : Token} {rest : List Element}
    (h : accept t = false) : Without accept (.token t :: rest) := by
  rintro _ ⟨⟩
  exact h

theorem Without.path {accept : Token → Bool} {p : Path} {rest : List Element} :
    Without accept (.path p :: rest) := by
  rintro _ ⟨⟩

theorem Without.nil {accept : Token → Bool} : Without accept [] := by
  rintro _ ⟨⟩

namespace Takes

variable {r : ElementReader α} {k : α → ElementReader β} {es : List Element}
  {follow : List Element → Prop} {P : α → Prop} {Q : β → Prop}

theorem mono {R : α → Prop} (h : Takes r es follow P) (hPR : ∀ a, P a → R a) :
    Takes r es follow R := by
  obtain ⟨v, hv, hP⟩ := h
  exact ⟨v, hv, hP.mono hPR⟩

theorem follows {before : List Element → Prop} (h : Takes r es before P)
    (hfollow : ∀ rest, follow rest → before rest) : Takes r es follow P := by
  obtain ⟨v, hv, hP⟩ := h
  exact ⟨v, fun rest hrest => hv rest (hfollow rest hrest), hP⟩

/-- What follows the elements is left. -/
theorem yields {rest : List Element} (h : Takes r es follow P) (hrest : follow rest) :
    Yields (fun found => P found.1 ∧ found.2 = rest) (r (es ++ rest)) := by
  obtain ⟨v, hv, hP⟩ := h
  rw [hv rest hrest]
  exact hP.map fun _ hfound => ⟨hfound, rfl⟩

/-- A reader that takes `a` and one that takes `b` behind it. -/
theorem bind {a b : List Element} {before : List Element → Prop} (h : Takes r a before P)
    (hfollow : ∀ rest, follow rest → before (b ++ rest))
    (hk : ∀ x, P x → Takes (k x) b follow Q) : Takes (r >>= k) (a ++ b) follow Q := by
  obtain ⟨v, hv, hP⟩ := h
  have hstep : ∀ rest, follow rest →
      (r >>= k) (a ++ b ++ rest) = (v.map fun x => (x, b ++ rest)) >>= fun x => k x.1 x.2 := by
    intro rest hrest
    rw [List.append_assoc, ← hv _ (hfollow rest hrest)]
    rfl
  obtain ⟨why, rfl, hwhy⟩ | ⟨x, rfl, hx⟩ := hP.cases
  · exact ⟨.error why, fun rest hrest => hstep rest hrest, hwhy⟩
  · obtain ⟨w, hw, hQ⟩ := hk x hx
    exact ⟨w, fun rest hrest => (hstep rest hrest).trans (hw rest hrest), hQ⟩

/-- A reader behind one that anything may follow. -/
theorem bindAnything {a b : List Element} (h : Takes r a Anything P)
    (hk : ∀ x, P x → Takes (k x) b follow Q) : Takes (r >>= k) (a ++ b) follow Q :=
  bind h (fun _ _ => trivial) hk

theorem pure {a : α} (h : P a) : Takes (Pure.pure a) [] follow P :=
  ⟨.ok a, fun _ _ => rfl, h⟩

theorem refuse (cause : InvalidCause) : Takes (ElementReader.refuse cause) es follow P :=
  ⟨invalid cause, fun _ _ => rfl, trivial⟩

theorem refuse_bind (cause : InvalidCause) :
    Takes (ElementReader.refuse cause >>= k) es follow Q :=
  ⟨invalid cause, fun _ _ => rfl, trivial⟩

theorem lift {v : Except QueryError α} (h : Yields P v) :
    Takes (ElementReader.lift v) [] follow P :=
  ⟨v, fun _ _ => rfl, h⟩

theorem lift_bind {v : Except QueryError α} (h : Yields P v)
    (hk : ∀ x, P x → Takes (k x) es follow Q) : Takes (ElementReader.lift v >>= k) es follow Q :=
  bindAnything (lift h) hk

/-- A reader that takes nothing more behind a reader. -/
theorem andThen (h : Takes r es follow P) (hk : ∀ x, P x → Takes (k x) [] follow Q) :
    Takes (r >>= k) es follow Q := by
  have hbind := bind (b := []) h (fun rest hrest => hrest) hk
  rwa [List.append_nil] at hbind

section Tokens

variable {t : Token}

theorem nextToken {k : Token → ElementReader β} (h : Takes (k t) es follow Q) :
    Takes (ElementReader.nextToken >>= k) (.token t :: es) follow Q := by
  obtain ⟨v, hv, hQ⟩ := h
  exact ⟨v, fun rest hrest => hv rest hrest, hQ⟩

theorem nextPath {p : Path} {k : Path → ElementReader β} (h : Takes (k p) es follow Q) :
    Takes (ElementReader.nextPath >>= k) (.path p :: es) follow Q := by
  obtain ⟨v, hv, hQ⟩ := h
  exact ⟨v, fun rest hrest => hv rest hrest, hQ⟩

theorem symbol {text : String} {k : Unit → ElementReader β} (ht : t.isSymbol text = true)
    (h : Takes (k ()) es follow Q) :
    Takes (ElementReader.symbol text >>= k) (.token t :: es) follow Q := by
  obtain ⟨v, hv, hQ⟩ := h
  refine ⟨v, fun rest hrest => ?_, hQ⟩
  rw [← hv rest hrest]
  have hone : ElementReader.symbol text (.token t :: es ++ rest) = .ok ((), es ++ rest) := by
    show (if !t.isSymbol text then ElementReader.fail _ else Pure.pure () : ElementReader Unit) _ = _
    simp [ht]
    rfl
  show (ElementReader.symbol text (.token t :: es ++ rest) >>= fun x => k x.1 x.2) = _
  rw [hone]
  rfl

theorem tokenIf {accept : Token → Bool} {k : Option Token → ElementReader β}
    (ht : accept t = true) (h : Takes (k (some t)) es follow Q) :
    Takes (ElementReader.tokenIf? accept >>= k) (.token t :: es) follow Q := by
  obtain ⟨v, hv, hQ⟩ := h
  refine ⟨v, fun rest hrest => ?_, hQ⟩
  rw [← hv rest hrest]
  have hone : ElementReader.tokenIf? accept (.token t :: es ++ rest) = .ok (some t, es ++ rest) := by
    simp [ElementReader.tokenIf?, ht]
  show (ElementReader.tokenIf? accept (.token t :: es ++ rest) >>= fun x => k x.1 x.2) = _
  rw [hone]
  rfl

theorem tokenIf_none {accept : Token → Bool} {elements : List Element}
    (h : Without accept elements) :
    ElementReader.tokenIf? accept elements = .ok (none, elements) := by
  cases elements with
  | nil => rfl
  | cons e elements =>
    cases e with
    | path p => rfl
    | token t => simp [ElementReader.tokenIf?, h t rfl]

theorem tokenIf_not {accept : Token → Bool} {k : Option Token → ElementReader β}
    (hes : ∀ rest, follow rest → Without accept (es ++ rest)) (h : Takes (k none) es follow Q) :
    Takes (ElementReader.tokenIf? accept >>= k) es follow Q := by
  obtain ⟨v, hv, hQ⟩ := h
  refine ⟨v, fun rest hrest => ?_, hQ⟩
  rw [← hv rest hrest]
  show (ElementReader.tokenIf? accept (es ++ rest) >>= fun x => k x.1 x.2) = _
  rw [tokenIf_none (hes rest hrest)]
  rfl

/-- Looking at the next element. -/
theorem peek {e : Element} {k : Option Element → ElementReader β}
    (h : Takes (k (some e)) (e :: es) follow Q) :
    Takes (ElementReader.peek? >>= k) (e :: es) follow Q := by
  obtain ⟨v, hv, hQ⟩ := h
  exact ⟨v, fun rest hrest => hv rest hrest, hQ⟩

/-- Looking at the next element if it is a token. -/
theorem peekToken {k : Option Token → ElementReader β} (h : Takes (k (some t)) (.token t :: es) follow Q) :
    Takes (ElementReader.peekToken? >>= k) (.token t :: es) follow Q := by
  obtain ⟨v, hv, hQ⟩ := h
  exact ⟨v, fun rest hrest => hv rest hrest, hQ⟩

theorem peekToken_not {accept : Token → Bool} {k : Option Token → ElementReader β}
    {r : ElementReader β} (hes : ∀ rest, follow rest → Without accept (es ++ rest))
    (hk : ∀ found : Option Token, (∀ t ∈ found, accept t = false) → k found = r)
    (h : Takes r es follow Q) : Takes (ElementReader.peekToken? >>= k) es follow Q := by
  obtain ⟨v, hv, hQ⟩ := h
  refine ⟨v, fun rest hrest => ?_, hQ⟩
  rw [← hv rest hrest]
  have hwithout := hes rest hrest
  show k _ (es ++ rest) = _
  rw [hk]
  intro t ht
  split at ht
  · rename_i t' _ heq
    obtain rfl := Option.some.inj ht
    exact hwithout _ (by simp [heq])
  · cases ht

theorem skip {e : Element} {k : Unit → ElementReader β} (h : Takes (k ()) es follow Q) :
    Takes (ElementReader.skip >>= k) (e :: es) follow Q := by
  obtain ⟨v, hv, hQ⟩ := h
  exact ⟨v, fun rest hrest => hv rest hrest, hQ⟩

theorem symbolIf {text : String} {k : Bool → ElementReader β} (ht : t.isSymbol text = true)
    (h : Takes (k true) es follow Q) :
    Takes (ElementReader.symbolIf text >>= k) (.token t :: es) follow Q := by
  have hstep : Takes (ElementReader.tokenIf? (·.isSymbol text) >>= fun found => k found.isSome)
    (.token t :: es) follow Q := tokenIf ht h
  simpa only [ElementReader.symbolIf, bind_assoc, pure_bind] using hstep

theorem symbolIf_not {text : String} {k : Bool → ElementReader β}
    (hes : ∀ rest, follow rest → Without (·.isSymbol text) (es ++ rest))
    (h : Takes (k false) es follow Q) : Takes (ElementReader.symbolIf text >>= k) es follow Q := by
  have hstep := tokenIf_not (k := fun found => k found.isSome) hes h
  simpa only [ElementReader.symbolIf, bind_assoc, pure_bind] using hstep

theorem keywordIf {word : String} {k : Bool → ElementReader β} (ht : t.isKeyword word = true)
    (h : Takes (k true) es follow Q) :
    Takes (ElementReader.keywordIf word >>= k) (.token t :: es) follow Q := by
  have hstep : Takes (ElementReader.tokenIf? (·.isKeyword word) >>= fun found => k found.isSome)
    (.token t :: es) follow Q := tokenIf ht h
  simpa only [ElementReader.keywordIf, bind_assoc, pure_bind] using hstep

theorem keywordIf_not {word : String} {k : Bool → ElementReader β}
    (hes : ∀ rest, follow rest → Without (·.isKeyword word) (es ++ rest))
    (h : Takes (k false) es follow Q) : Takes (ElementReader.keywordIf word >>= k) es follow Q := by
  have hstep := tokenIf_not (k := fun found => k found.isSome) hes h
  simpa only [ElementReader.keywordIf, bind_assoc, pure_bind] using hstep

end Tokens

/-! ## Loops -/

variable {step : σ → ElementReader (Progress σ)} {state : σ} {R S : σ → Prop}

theorem loop_done (h : Takes (step state) es follow (fun p => ∃ s, p = .done s ∧ R s)) :
    Takes (loop step state) es follow R := by
  obtain ⟨v, hv, hP⟩ := h
  obtain ⟨why, rfl, hwhy⟩ | ⟨_, rfl, s, rfl, hs⟩ := hP.cases
  · refine ⟨.error why, fun rest hrest => ?_, hwhy⟩
    rw [loop, hv rest hrest]
    rfl
  · refine ⟨.ok s, fun rest hrest => ?_, hs⟩
    rw [loop, hv rest hrest]
    rfl

/-- A round that takes an element, and the rounds behind it, which anything may begin. -/
theorem loop_more {a b : List Element} (ha : a ≠ [])
    (h : Takes (step state) a Anything (fun p => ∃ s, p = .more s ∧ R s))
    (hnext : ∀ s, R s → Takes (loop step s) b follow S) :
    Takes (loop step state) (a ++ b) follow S := by
  obtain ⟨v, hv, hP⟩ := h
  obtain ⟨why, rfl, hwhy⟩ | ⟨_, rfl, s, rfl, hs⟩ := hP.cases
  · refine ⟨.error why, fun rest hrest => ?_, hwhy⟩
    rw [loop, List.append_assoc, hv _ trivial]
    rfl
  · obtain ⟨w, hw, hS⟩ := hnext s hs
    refine ⟨w, fun rest hrest => ?_, hS⟩
    have hshort : (b ++ rest).length < (a ++ (b ++ rest)).length := by
      have := List.length_pos_iff.mpr ha
      simp only [List.length_append]
      omega
    rw [loop, List.append_assoc, hv _ trivial]
    simp only [Except.map, hshort, if_true]
    exact hw rest hrest

end Takes

section Rounds

variable {step : σ → ElementReader (Progress σ)} {state : σ}

theorem loop_finished {state' : σ} {elements rest : List Element}
    (h : step state elements = .ok (.done state', rest)) :
    loop step state elements = .ok (state', rest) := by
  rw [loop, h]

theorem loop_round {state' : σ} {a rest : List Element}
    (h : step state (a ++ rest) = .ok (.more state', rest)) (ha : a ≠ []) :
    loop step state (a ++ rest) = loop step state' rest := by
  have hshort : rest.length < (a ++ rest).length := by
    have := List.length_pos_iff.mpr ha
    simp only [List.length_append]
    omega
  rw [loop, h]
  simp only [hshort, if_true]

theorem loop_error {why : QueryError} {elements : List Element}
    (h : step state elements = .error why) : loop step state elements = .error why := by
  rw [loop, h]

end Rounds

/-! ## All elements -/

section UntilEnd

variable {step : σ → ElementReader σ} {state : σ}

/-- One round of reading all elements. -/
theorem untilEnd_round (elements : List Element) (hne : elements ≠ []) :
    ((do if ← atEnd then return .done state else return .more (← step state)) :
      ElementReader (Progress σ)) elements =
      (step state elements).map fun found => (.more found.1, found.2) := by
  have hnonempty : elements.isEmpty = false := by simp [hne]
  show (if elements.isEmpty then _ else (_ : ElementReader (Progress σ))) elements = _
  rw [hnonempty]
  rfl

@[simp]
theorem untilEnd_nil : untilEnd step state [] = .ok (state, []) :=
  loop_finished rfl

theorem untilEnd_more {state' : σ} {a rest : List Element}
    (h : step state (a ++ rest) = .ok (state', rest)) (ha : a ≠ []) :
    untilEnd step state (a ++ rest) = untilEnd step state' rest := by
  refine loop_round ?_ ha
  rw [untilEnd_round _ (by simp [ha]), h]
  rfl

theorem untilEnd_error {why : QueryError} {elements : List Element}
    (h : step state elements = .error why) (hne : elements ≠ []) :
    untilEnd step state elements = .error why := by
  refine loop_error ?_
  rw [untilEnd_round _ hne, h]
  rfl

end UntilEnd

end LinkQuery.ElementReader
