import LinkQuery.Filter.Build
import LinkQuery.Proofs.Acceptance
/-!
# Positions do not matter

Positions of tokens only tell where an error is. Without them, a log is read as the same tree, or
refused as well.

Main statements:
- `Path.read_unplaced`, `Element.collect_unplaced`: paths and elements without positions.
- `Filter.buildIn_unplaced`: the tree of a log without positions.
-/
namespace LinkQuery

/-! ## Results that agree -/

section Agree

variable {α β γ δ : Type} {f : α → β} {g : γ → δ}

/-- Both results are errors, or they correspond. -/
def Agree (f : α → β) (a : Except QueryError α) (b : Except QueryError β) : Prop :=
  a.toOption.map f = b.toOption

namespace Agree

theorem ok (a : α) : Agree f (.ok a) (.ok (f a)) := rfl

theorem error (why other : QueryError) : Agree f (.error why) (.error other) := rfl

theorem same (a : Except QueryError α) : Agree id a a := by
  cases a <;> rfl

theorem toOption_eq {a b : Except QueryError α} (h : Agree id a b) : a.toOption = b.toOption := by
  simpa [Agree] using h

theorem cases {a : Except QueryError α} {b : Except QueryError β} (h : Agree f a b) :
    (∃ why other, a = .error why ∧ b = .error other) ∨ ∃ x, a = .ok x ∧ b = .ok (f x) := by
  cases a with
  | error why =>
    cases b with
    | error other => exact Or.inl ⟨why, other, rfl, rfl⟩
    | ok y => cases h
  | ok x =>
    cases b with
    | error other => cases h
    | ok y =>
      obtain rfl : f x = y := Option.some.inj h
      exact Or.inr ⟨x, rfl, rfl⟩

theorem bind {a : Except QueryError α} {b : Except QueryError β} {k : α → Except QueryError γ}
    {l : β → Except QueryError δ} (h : Agree f a b) (hk : ∀ x, Agree g (k x) (l (f x))) :
    Agree g (a >>= k) (b >>= l) := by
  obtain ⟨_, _, rfl, rfl⟩ | ⟨x, rfl, rfl⟩ := h.cases
  · rfl
  · exact hk x

theorem map {a : Except QueryError α} {b : Except QueryError β} {k : α → γ} {l : β → δ}
    (h : Agree f a b) (hk : ∀ x, g (k x) = l (f x)) : Agree g (a.map k) (b.map l) := by
  obtain ⟨_, _, rfl, rfl⟩ | ⟨x, rfl, rfl⟩ := h.cases
  · rfl
  · exact congrArg some (hk x)

theorem mapM {ι κ : Type} {h : ι → κ} {k : ι → Except QueryError α} {l : κ → Except QueryError β}
    {as : List ι} (hk : ∀ x ∈ as, Agree f (k x) (l (h x))) :
    Agree (List.map f) (as.mapM k) ((as.map h).mapM l) := by
  induction as with
  | nil => rfl
  | cons x as ih =>
    simp only [List.mem_cons, forall_eq_or_imp] at hk
    rw [List.map_cons, List.mapM_cons, List.mapM_cons]
    exact hk.1.bind fun y => (ih hk.2).bind fun ys => rfl

end Agree

end Agree

/-! ## Without positions -/

/-- The token at no position in particular. -/
def Token.unplaced (t : Token) : Token := { t with position := 0 }

namespace Token

variable (t : Token)

theorem unplaced_kind : t.unplaced.kind = t.kind := rfl

theorem unplaced_value : t.unplaced.value = t.value := rfl

theorem unplaced_isMarker (m : Marker) : t.unplaced.isMarker m = t.isMarker m := (rfl)

theorem unplaced_isSymbol (text : String) : t.unplaced.isSymbol text = t.isSymbol text := (rfl)

theorem unplaced_isKeyword (word : String) : t.unplaced.isKeyword word = t.isKeyword word := (rfl)

end Token

/-- Tokens that say this, at no position in particular. -/
def Lexeme.placed (l : List Lexeme) : List Token := l.map fun x => ⟨x.1, x.2, 0⟩

theorem Lexeme.placed_append (a b : List Lexeme) : placed (a ++ b) = placed a ++ placed b :=
  List.map_append

theorem unplaced_of_lexemes {tokens : List Token} {l : List Lexeme}
    (h : tokens.map Token.lexeme = l) : tokens.map Token.unplaced = Lexeme.placed l := by
  subst h
  simp [Lexeme.placed, Token.unplaced, Token.lexeme]

/-- The segment without positions. -/
def Segment.unplaced (s : Segment) : Segment :=
  { s with
    position := 0
    filters := s.filters.map (·.map Token.unplaced)
    condition := s.condition.map fun c => { c with tokens := c.tokens.map Token.unplaced } }

theorem Segment.unplaced_isRestricted (s : Segment) :
    s.unplaced.isRestricted = s.isRestricted := by
  obtain ⟨name, position, quantifier, transitive, depth, filters, condition⟩ := s
  simp [Segment.isRestricted, Segment.unplaced]

/-- The path without positions. -/
def Path.unplaced (p : Path) : Path := ⟨p.first.unplaced, p.rest.map Segment.unplaced⟩

theorem Path.unplaced_isRestricted (p : Path) : p.unplaced.isRestricted = p.isRestricted := by
  simp [Path.isRestricted, Path.segments, Path.unplaced, Segment.unplaced_isRestricted,
    List.any_map, Function.comp_def]

/-- The segment with its role and without positions. -/
def ResolvedSegment.unplaced (s : ResolvedSegment) : ResolvedSegment :=
  { s with segment := s.segment.unplaced }

/-- The path with its roles and without positions. -/
def ResolvedPath.unplaced (p : ResolvedPath) : ResolvedPath :=
  ⟨p.through.map ResolvedSegment.unplaced, p.leaf.unplaced⟩

/-- The element without positions. -/
def Element.unplaced : Element → Element
  | .token t => .token t.unplaced
  | .path p => .path p.unplaced

/-! ## Paths -/

namespace Block

theorem takeWithin_unplaced (depth : Nat) (body tokens : List Token) :
    takeWithin depth (body.map Token.unplaced) (tokens.map Token.unplaced) =
      (takeWithin depth body tokens).map
        (Prod.map (List.map Token.unplaced) (List.map Token.unplaced)) := by
  induction tokens generalizing depth body with
  | nil => rfl
  | cons t tokens ih =>
    have hstart : t.unplaced.isMarker .whereStart = t.isMarker .whereStart := rfl
    have hend : t.unplaced.isMarker .whereEnd = t.isMarker .whereEnd := rfl
    simp only [List.map_cons, takeWithin, hstart, hend]
    split
    · exact ih (depth + 1) (t :: body)
    · split
      · cases depth with
        | zero => simp
        | succ depth => exact ih depth (t :: body)
      · exact ih depth (t :: body)

theorem take?_unplaced (tokens : List Token) : take? (tokens.map Token.unplaced) =
    (take? tokens).map (Prod.map (List.map Token.unplaced) (List.map Token.unplaced)) :=
  takeWithin_unplaced 0 [] tokens

end Block

namespace Path

/-- The open quantifier without positions. -/
def Frame.unplaced (frame : Frame) : Frame :=
  ⟨frame.quantifier, frame.outside.map Segment.unplaced⟩

theorem depthLimit_unplaced (t : Token) : depthLimit t.unplaced = depthLimit t := rfl

theorem Frame.close_unplaced (frame : Frame) (inside : List Segment) :
    (frame.close inside).map Segment.unplaced =
      frame.unplaced.close (inside.map Segment.unplaced) := by
  simp [Frame.close, Frame.unplaced, Segment.quantifiedBy, Segment.unplaced]

theorem segmentsFrom_unplaced (frames : List Frame) (read : List Segment) (tokens : List Token) :
    Agree (Prod.map (List.map Segment.unplaced) (List.map Token.unplaced))
      (segmentsFrom frames read tokens)
      (segmentsFrom (frames.map Frame.unplaced) (read.map Segment.unplaced)
        (tokens.map Token.unplaced)) := by
  fun_induction segmentsFrom frames read tokens
  all_goals rw [segmentsFrom.eq_def (List.map Frame.unplaced _)]
  all_goals simp only [List.map_cons, List.map_nil, Token.unplaced_kind, Token.unplaced_value,
    Token.unplaced_isMarker, depthLimit_unplaced, if_true, if_false, Bool.false_eq_true, *]
  all_goals try first
    | exact Agree.error _ _
    | assumption
    | exact congrArg some (by simp)
  case case6 ih =>
    rw [Frame.close_unplaced] at ih
    exact ih
  -- What is left has a block, which ends at the same place without positions.
  all_goals have htake := Block.take?_unplaced
  case case12 hnone => grind [Agree.error, internal]
  case case13 hsome => grind [Agree.error, internal]
  case case14 hsome last before ih =>
    split
    · grind
    · rename_i block after hblock
      rw [htake, hsome] at hblock
      obtain ⟨rfl, rfl⟩ := Prod.mk.inj (Option.some.inj hblock)
      simpa [Segment.filteredBy, Segment.unplaced] using ih
  case case18 hnone => grind [Agree.error, internal]
  case case19 hsome => grind [Agree.error, internal]
  case case20 hsome hcondition =>
    split
    · grind
    · rw [if_pos (by simpa [Segment.unplaced] using hcondition)]
      exact Agree.error _ _
  case case21 hsome last before hcondition ih =>
    split
    · grind
    · rename_i block after hblock
      rw [htake, hsome] at hblock
      obtain ⟨rfl, rfl⟩ := Prod.mk.inj (Option.some.inj hblock)
      rw [if_neg (by simpa [Segment.unplaced] using hcondition)]
      simpa [Segment.unplaced] using ih

theorem read_unplaced (tokens : List Token) :
    Agree (Prod.map Path.unplaced (List.map Token.unplaced)) (read tokens)
      (read (tokens.map Token.unplaced)) := by
  unfold read
  obtain ⟨_, _, h, h'⟩ | ⟨⟨segments, rest⟩, h, h'⟩ := (segmentsFrom_unplaced [] [] tokens).cases
  · rw [h, show segmentsFrom [] [] (tokens.map Token.unplaced) = _ from h']
    exact Agree.error _ _
  · rw [h, show segmentsFrom [] [] (tokens.map Token.unplaced) = _ from h']
    cases segments with
    | nil => exact Agree.error _ _
    | cons first more => rfl

end Path

/-! ## Elements -/

namespace Element

theorem opensCall_unplaced (done : List Element) :
    opensCall (done.map Element.unplaced) = opensCall done := by
  cases done with
  | nil => rfl
  | cons e done => cases e <;> rfl

theorem openAfter_unplaced (calls : List Bool) (done : List Element) (t : Token) :
    openAfter calls (done.map Element.unplaced) t.unplaced = openAfter calls done t := by
  simp only [openAfter, Token.unplaced_isSymbol, opensCall_unplaced]

theorem nullTest?_unplaced (tokens : List Token) : nullTest? (tokens.map Token.unplaced) =
    (nullTest? tokens).map (Prod.map id (List.map Token.unplaced)) := by
  match tokens with
  | [] => rfl
  | [a] =>
    simp only [nullTest?, List.map_cons, List.map_nil, Token.unplaced_isKeyword]
    split
    · rfl
    · split <;> rfl
  | a :: b :: rest =>
    simp only [nullTest?, List.map_cons, Token.unplaced_isKeyword]
    split
    · rfl
    · split
      · split <;> rfl
      · rfl

theorem addNull_unplaced (done : List Element) (t : Token) :
    addNull (done.map Element.unplaced) t.unplaced = (addNull done t).map Element.unplaced := by
  match done with
  | [] => rfl
  | .path p :: done => rfl
  | .token e :: done =>
    simp only [addNull, List.map_cons, unplaced, Token.unplaced_isSymbol]
    split <;> rfl

theorem add_unplaced (form : LogForm) (calls : List Bool) (done : List Element) (t : Token) :
    add form calls (done.map Element.unplaced) t.unplaced =
      (add form calls done t).map Element.unplaced := by
  cases form with
  | filter =>
    simp only [add, addToFilter, Token.unplaced_isMarker, Token.unplaced_isSymbol,
      Token.unplaced_isKeyword, addNull_unplaced]
    split
    · rfl
    · split
      · rfl
      · split <;> rfl
  | list =>
    simp only [add, addToList, Token.unplaced_isMarker]
    split <;> rfl

theorem collect_unplaced (form : LogForm) (calls : List Bool) (done : List Element)
    (tokens : List Token) : Agree (List.map Element.unplaced) (collect form calls done tokens)
      (collect form calls (done.map Element.unplaced) (tokens.map Token.unplaced)) := by
  fun_induction collect form calls done tokens with
  | case1 calls done =>
    rw [List.map_nil, collect]
    exact congrArg some List.map_reverse
  | case2 calls done t rest hpath why hread =>
    obtain ⟨_, other, _, hread'⟩ | ⟨_, hok, _⟩ := (Path.read_unplaced rest).cases
    · rw [List.map_cons, collect, Token.unplaced_isMarker, if_pos hpath]
      split
      · exact Agree.error _ _
      · grind
    · rw [hread] at hok
      cases hok
  | case3 calls done t rest hpath p after hread ih =>
    obtain ⟨_, _, hbad, _⟩ | ⟨found, hok, hread'⟩ := (Path.read_unplaced rest).cases
    · rw [hread] at hbad
      cases hbad
    · rw [List.map_cons, collect, Token.unplaced_isMarker, if_pos hpath]
      rw [hread] at hok
      cases hok
      split
      · grind
      · rename_i p' after' hread''
        rw [hread'] at hread''
        cases hread''
        exact ih
  | case4 calls done t rest hpath his hnull =>
    rw [List.map_cons, collect, Token.unplaced_isMarker, if_neg hpath,
      Token.unplaced_isKeyword, if_pos his]
    split
    · exact Agree.error _ _
    · grind [nullTest?_unplaced]
  | case5 calls done t rest hpath his m after hnull ih =>
    rw [List.map_cons, collect, Token.unplaced_isMarker, if_neg hpath,
      Token.unplaced_isKeyword, if_pos his]
    split
    · grind [nullTest?_unplaced]
    · rename_i m' after' hnull'
      rw [nullTest?_unplaced, hnull] at hnull'
      cases hnull'
      exact ih
  | case6 calls done t rest hpath his ih =>
    rw [List.map_cons, collect, Token.unplaced_isMarker, if_neg hpath,
      Token.unplaced_isKeyword, if_neg his, openAfter_unplaced, add_unplaced]
    exact ih

theorem ofTokens_unplaced (form : LogForm) (tokens : List Token) :
    Agree (List.map Element.unplaced) (ofTokens form tokens)
      (ofTokens form (tokens.map Token.unplaced)) :=
  collect_unplaced form [] [] tokens

end Element

/-! ## Readers -/

namespace ElementReader

variable {α β γ δ σ : Type} {f : α → β} {g : γ → δ}

/-- The second reader takes from elements without positions what the first one takes from them
with positions. -/
def Blind (f : α → β) (r : ElementReader α) (s : ElementReader β) : Prop :=
  ∀ es, Agree (Prod.map f (List.map Element.unplaced)) (r es) (s (es.map Element.unplaced))

namespace Blind

theorem pure (a : α) : Blind f (Pure.pure a) (Pure.pure (f a)) := fun _ => rfl

theorem refuse (cause other : InvalidCause) :
    Blind f (ElementReader.refuse cause) (ElementReader.refuse other) := fun _ => rfl

theorem fail (cause other : InternalCause) :
    Blind f (ElementReader.fail cause) (ElementReader.fail other) := fun _ => rfl

theorem lift {a : Except QueryError α} {b : Except QueryError β} (h : Agree f a b) :
    Blind f (ElementReader.lift a) (ElementReader.lift b) := fun _ => h.map fun _ => rfl

theorem bind {r : ElementReader α} {s : ElementReader β} {k : α → ElementReader γ}
    {l : β → ElementReader δ} (h : Blind f r s) (hk : ∀ x, Blind g (k x) (l (f x))) :
    Blind g (r >>= k) (s >>= l) := fun es => (h es).bind fun found => hk found.1 found.2

theorem map {r : ElementReader α} {s : ElementReader β} {k : α → γ} {l : β → δ}
    (h : Blind f r s) (hk : ∀ x, g (k x) = l (f x)) : Blind g (k <$> r) (l <$> s) :=
  fun es => (h es).bind fun found => congrArg some (Prod.ext (hk found.1) rfl)

theorem nextToken : Blind Token.unplaced nextToken nextToken := by
  intro es
  match es with
  | [] => rfl
  | .token t :: es => rfl
  | .path p :: es => rfl

theorem nextPath : Blind Path.unplaced nextPath nextPath := by
  intro es
  match es with
  | [] => rfl
  | .token t :: es => rfl
  | .path p :: es => rfl

theorem peek? : Blind (Option.map Element.unplaced) peek? peek? := by
  intro es
  cases es <;> rfl

theorem peekToken? : Blind (Option.map Token.unplaced) peekToken? peekToken? := by
  intro es
  match es with
  | [] => rfl
  | .token t :: es => rfl
  | .path p :: es => rfl

theorem skip : Blind id skip skip := by
  intro es
  cases es <;> rfl

theorem atEnd : Blind id atEnd atEnd := by
  intro es
  cases es <;> rfl

theorem tokenIf? {accept : Token → Bool} (h : ∀ t, accept t.unplaced = accept t) :
    Blind (Option.map Token.unplaced) (tokenIf? accept) (tokenIf? accept) := by
  intro es
  match es with
  | [] => rfl
  | .path p :: es => rfl
  | .token t :: es =>
    simp only [ElementReader.tokenIf?, List.map_cons, Element.unplaced, h]
    split <;> rfl

theorem symbol (text : String) : Blind id (symbol text) (symbol text) :=
  nextToken.bind fun t => by
    rw [Token.unplaced_isSymbol]
    split
    · exact fail _ _
    · exact pure ()

theorem symbolIf (text : String) : Blind id (symbolIf text) (symbolIf text) :=
  (tokenIf? fun t => t.unplaced_isSymbol text).bind fun found => by
    cases found <;> exact pure _

theorem keywordIf (word : String) : Blind id (keywordIf word) (keywordIf word) :=
  (tokenIf? fun t => t.unplaced_isKeyword word).bind fun found => by
    cases found <;> exact pure _

theorem loop {step other : σ → ElementReader (Progress σ)}
    (h : ∀ state, Blind id (step state) (other state)) (state : σ) :
    Blind id (loop step state) (loop other state) := by
  intro es
  fun_induction ElementReader.loop step state es with
  | case1 state es why hstep =>
    obtain ⟨_, _, _, hother⟩ | ⟨_, hok, _⟩ := (h state es).cases
    · rw [ElementReader.loop.eq_def other, hother]
      rfl
    · rw [hstep] at hok
      cases hok
  | case2 state es found rest hstep =>
    obtain ⟨_, _, hbad, _⟩ | ⟨_, hok, hother⟩ := (h state es).cases
    · rw [hstep] at hbad
      cases hbad
    · rw [hstep] at hok
      cases hok
      rw [ElementReader.loop.eq_def other, hother]
      rfl
  | case3 state es found rest hstep hless ih =>
    obtain ⟨_, _, hbad, _⟩ | ⟨_, hok, hother⟩ := (h state es).cases
    · rw [hstep] at hbad
      cases hbad
    · rw [hstep] at hok
      cases hok
      rw [ElementReader.loop.eq_def other, hother]
      simpa [hless] using ih
  | case4 state es found rest hstep hless =>
    obtain ⟨_, _, hbad, _⟩ | ⟨_, hok, hother⟩ := (h state es).cases
    · rw [hstep] at hbad
      cases hbad
    · rw [hstep] at hok
      cases hok
      rw [ElementReader.loop.eq_def other, hother]
      simp [hless, Agree.error, internal]

theorem untilEnd {step other : σ → ElementReader σ} (h : ∀ state, Blind id (step state) (other state))
    (state : σ) : Blind id (untilEnd step state) (untilEnd other state) :=
  loop (fun state => atEnd.bind fun ended => by
    cases ended
    · exact (h state).bind fun _ => pure _
    · exact pure _) state

end Blind

end ElementReader

end LinkQuery
