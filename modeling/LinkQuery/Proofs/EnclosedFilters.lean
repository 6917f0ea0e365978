import LinkQuery.Proofs.Halting
import LinkQuery.Proofs.Mirroring
/-!
# Filters in parentheses

The parentheses of the rules of filters are paired. So a text whose own parentheses are paired is
read in parentheses as it is read alone: as a filter behind `WHERE` it is accepted with the log that
it has alone, or the match halts because the text alone is refused.

Main statements:
- `Rule.filters_pair`: the rules of filters have paired parentheses.
- `TokenLog.block_of_filter`: a text alone and behind `WHERE`.
-/
namespace LinkQuery

open Language (Part PartRule whereBlock)

/-- The parts of the language that filters are made of. -/
def Language.Part.inFilters : Part → Bool
  | .filter | .segment | .step => true
  | _ => false

namespace Rule

theorem filters_pair (part : Part) (h : part.inFilters = true) :
    pairs Part.inFilters part.body = true := by
  cases part with
  | filter | segment | step => rfl
  | groupItem | metric | fieldList | fieldItem => cases h

theorem onlyCloses_one : OnlyCloses [')'] := by
  simp [OnlyCloses]

/-- What two matches read of a text, if one is given. -/
theorem Mirrors.of_matched {a b : Nat} {cs read rest : List Char} {s s' : State}
    {tokens : List Token} {o : Outcome} (hs : s.rest = cs) (hcs : cs = read ++ rest)
    (h : Mirrors a b cs s s' (.matched (s.past read.length tokens)) o) :
    ∃ tokens', o = .matched (s'.past read.length tokens') ∧
      tokens'.map Token.lexeme = tokens.map Token.lexeme := by
  generalize hfirst : Outcome.matched (s.past read.length tokens) = first at h
  cases h with
  | @matched found last later later' hfound hsame hdepth =>
    have hstate := Outcome.matched.inj hfirst
    have hlog := congrArg (fun s => s.log.toList) hstate
    simp only [State.past, Array.toList_append, List.append_cancel_left_eq] at hlog
    have hrest := congrArg State.rest hstate
    rw [State.past_rest, State.past_rest, hs] at hrest
    have hread : cs.drop read.length = rest := by rw [hcs, List.drop_left]
    have hlast : cs.drop found.length = last := by rw [hfound, List.drop_left]
    obtain rfl : rest = last := by rw [← hread, hrest, hlast]
    obtain rfl : read = found := List.append_cancel_right (hcs.symm.trans hfound)
    obtain rfl : tokens = later := by simpa using hlog
    exact ⟨later', rfl, hsame.symm⟩
  | failed => cases hfirst
  | halted h => cases hfirst

/-- A filter in front of a closing parenthesis, from the filter alone: within more levels the match
reads what it reads of the text alone, or fails or halts as well. -/
theorem filter_enclosed {levels : Nat} {cs : List Char} {s : State} {o : Outcome}
    (hs : s.Before levels cs) (hpaired : closes none 0 cs = true)
    (ho : run (calls Part.body levels) (.nonterminal .filter) s = o) :
    (∃ read rest tokens, cs = read ++ rest ∧ closes none 0 rest = true ∧
        o = .matched (s.past read.length tokens) ∧
        Accepts Part.body (.nonterminal .filter) (cs ++ [')']) (rest ++ [')'])
          (tokens.map Token.lexeme)) ∨
      (o = .failed s ∧ Rejects Part.body (.nonterminal .filter) (cs ++ [')'])) ∨
      ∃ why t, o = .halted why t ∧
        (why.IsLimit ∨ Halts Part.body (.nonterminal .filter) (cs ++ [')'])) := by
  have hmirrors : ∀ levels' ≥ levels, ∀ s' : State, s'.Before levels' (cs ++ [')']) →
      Mirrors 0 0 cs s s' o (run (calls Part.body levels') (.nonterminal .filter) s') := by
    intro levels' hlevels s' hs'
    have hcalls := calls_mirrors filters_pair onlyCloses_one levels levels' hlevels
    rw [← ho]
    exact hcalls.name .filter rfl ⟨hs, hs', Or.inr hpaired⟩
  have hone := hmirrors levels (Nat.le_refl levels) _ (State.start_before (cs ++ [')']) levels)
  generalize run (calls Part.body levels) (.nonterminal .filter)
    (State.start (cs ++ [')']) levels) = o' at hone
  cases hone with
  | @matched read rest tokens tokens' hcs hsame hdepth =>
    refine Or.inl ⟨read, rest, tokens, hcs, (hdepth 0).symm.trans hpaired, rfl, levels, ?_⟩
    intro levels' hlevels s' hs'
    obtain ⟨later, hrun, hlexemes⟩ := (hmirrors levels' hlevels s' hs').of_matched hs.rest hcs
    exact ⟨read, later, by rw [hcs, List.append_assoc], hrun, hlexemes⟩
  | failed =>
    refine Or.inr (Or.inl ⟨rfl, levels, fun levels' hlevels s' hs' => ?_⟩)
    have hagain := hmirrors levels' hlevels s' hs'
    generalize run (calls Part.body levels') (.nonterminal .filter) s' = again at hagain ⊢
    cases hagain with
    | failed => rfl
  | @halted why t _ h =>
    refine Or.inr (Or.inr ⟨why, t, rfl, ?_⟩)
    by_cases hlimit : why.IsLimit
    · exact Or.inl hlimit
    · refine Or.inr ⟨levels, fun levels' hlevels s' hs' => ?_⟩
      have hagain := hmirrors levels' hlevels s' hs'
      generalize run (calls Part.body levels') (.nonterminal .filter) s' = again at hagain ⊢
      cases hagain with
      | halted h => exact h.resolve_left hlimit

/-! ## Filters behind `WHERE` -/

section Blocks

variable {cs text rest : List Char} {l : List Lexeme}
  (hcs : Text.dropBlanks cs = "WHERE(".toList ++ text)
include hcs

theorem Accepts.whereKeyword :
    Accepts Part.body (.silent (.keyword "WHERE")) cs ('(' :: text) [] :=
  Accepts.silent (Accepts.keyword hcs (endsName_open _))

theorem Accepts.whereBlock (h : Accepts Part.body (.nonterminal .filter) text rest l)
    (hclose : Text.dropBlanks rest = [')']) :
    Accepts Part.body Language.whereBlock cs [] (blockLexemes l) := by
  have hall : Accepts Part.body Language.whereBlock cs [] _ :=
    Accepts.seq (Accepts.whereKeyword hcs) (Accepts.seq (Accepts.required (Accepts.hidden rfl))
      (Accepts.seq Accepts.action (Accepts.seq (Accepts.required h) (Accepts.seq Accepts.action
        (Accepts.seq (Accepts.required (Accepts.hidden hclose)) Accepts.seqNil)))))
  simpa [blockLexemes] using hall

/-- A filter that is required behind `WHERE` and does not match. -/
theorem Halts.whereFilter
    (h : Halts Part.body (.required (.nonterminal .filter) "a filter expression") text) :
    Halts Part.body Language.whereBlock cs :=
  Halts.seqTail (Accepts.whereKeyword hcs) (Halts.seqTail (Accepts.required (Accepts.hidden rfl))
    (Halts.seqTail Accepts.action (Halts.seqHead h)))

/-- A filter behind `WHERE` that something else than a closing parenthesis follows. -/
theorem Halts.whereEnd (h : Accepts Part.body (.nonterminal .filter) text rest l)
    (hclose : front rest ≠ some ')') : Halts Part.body Language.whereBlock cs :=
  Halts.seqTail (Accepts.whereKeyword hcs) (Halts.seqTail (Accepts.required (Accepts.hidden rfl))
    (Halts.seqTail Accepts.action (Halts.seqTail (Accepts.required h)
      (Halts.seqTail Accepts.action
        (Halts.seqHead (Rejects.literalOf ')' rfl hclose).demanded)))))

end Blocks

end Rule

namespace TokenLog

open Rule (Accepts Halts State blockLexemes)

/-- The front of a text that has no closing parenthesis of its own to spare. -/
theorem front_of_closes {cs : List Char} (hpaired : Rule.closes none 0 cs = true)
    (hrest : Text.dropBlanks cs ≠ []) : Rule.front (cs ++ [')']) ≠ some ')' := by
  obtain ⟨c, more, hfront⟩ := List.exists_cons_of_ne_nil hrest
  rw [Rule.front, Rule.dropBlanks_append_closes Rule.onlyCloses_one, hfront]
  rw [← Rule.closes_dropBlanks, hfront] at hpaired
  rintro ⟨⟩
  cases hpaired

/-- A text with paired parentheses behind `WHERE`: it is accepted with its log, or halts the match
because it is refused alone, unless a limit is in the way. -/
theorem block_of_filter {settings : Settings} {text : String} {cs : List Char}
    (hcs : Text.dropBlanks cs = "WHERE(".toList ++ (text.toList ++ [')']))
    (hblank : Text.isBlankText text = false) (hpaired : Rule.closes none 0 text.toList = true)
    (hlimit : Unlimited (ofText settings .filter text)) :
    (∃ tokens, ofText settings .filter text = .ok tokens ∧
        Accepts Part.body whereBlock cs [] (blockLexemes (tokens.map Token.lexeme))) ∨
      (∃ e, ofText settings .filter text = .error e) ∧ Halts Part.body whereBlock cs := by
  cases hlength : settings.checkLength text with
  | error e =>
    have hrefused : ofText settings .filter text = .error e := by
      rw [ofText, hlength]
      rfl
    unfold Settings.checkLength Settings.checkLengthWithin at hlength
    split at hlength
    · cases hlength
      cases hlimit _ hrefused
    · cases hlength
  | ok u =>
    have hscan : ofText settings .filter text = scan .filter settings.maxNesting text.toList := by
      rw [ofText, hlength, hblank]
      rfl
    rw [hscan] at hlimit ⊢
    have hstart := State.start_before text.toList settings.maxNesting
    obtain ⟨o, ho⟩ : ∃ o, Rule.run (Rule.calls Part.body settings.maxNesting)
      (.nonterminal .filter) (State.start text.toList settings.maxNesting) = o := ⟨_, rfl⟩
    have hmatch : Rule.matchAt Part.body ExpressionKind.filter.rule
        (State.start text.toList settings.maxNesting) = o :=
      (Rule.runWithin_eq Part.body _ _ _).trans ho
    simp only [scan, hmatch] at hlimit ⊢
    rcases Rule.filter_enclosed hstart hpaired ho with
      ⟨read, rest, tokens, htext, hrest, rfl, haccepts⟩ | ⟨rfl, hrejects⟩ | ⟨why, t, rfl, hhalts⟩
    · have hbehind : ((State.start text.toList settings.maxNesting).past read.length
          tokens).skipBlanks.rest = Text.dropBlanks rest := by
        simp [Rule.State.skipBlanks_rest, State.start, htext]
      have hlog : ((State.start text.toList settings.maxNesting).past read.length
          tokens).skipBlanks.log.toList = tokens := by
        simp [State.skipBlanks, State.past, State.advance, State.start]
      simp only [finish, State.atEnd, hbehind, hlog] at hlimit ⊢
      by_cases hend : Text.dropBlanks rest = []
      · by_cases hdeep : pathDepth tokens > settings.maxNesting
        · rw [hend, if_pos (by rfl), if_pos hdeep] at hlimit
          cases hlimit _ rfl
        · refine Or.inl ⟨tokens, ?_, haccepts.whereBlock hcs ?_⟩
          · rw [hend, if_pos (by rfl), if_neg hdeep]
          · rw [Rule.dropBlanks_append_closes Rule.onlyCloses_one, hend, List.nil_append]
      · rw [if_neg (by simpa using hend)]
        exact Or.inr ⟨⟨_, rfl⟩, Halts.whereEnd hcs haccepts (front_of_closes hrest hend)⟩
    · exact Or.inr ⟨⟨_, rfl⟩, Halts.whereFilter hcs hrejects.demanded⟩
    · rcases hhalts with ⟨limit, hdeep⟩ | hhalts
      · refine absurd (hlimit _ rfl) ?_
        simp [haltError, hdeep, QueryError.isLimit]
      · exact Or.inr ⟨⟨_, rfl⟩, Halts.whereFilter hcs hhalts.required⟩

end TokenLog

end LinkQuery
