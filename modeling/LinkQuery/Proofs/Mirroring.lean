import LinkQuery.Proofs.Acceptance
import LinkQuery.Proofs.Pairing
/-!
# Rules with paired parentheses

A rule whose parentheses are paired reads of a text what it reads of the text with closing
parentheses behind it, as long as the parentheses of the text itself are paired: whatever it opens
it closes inside the text. One simulation of two matches says this. Without closing parentheses
behind the text it compares a match with another one that may nest deeper, and says that what a
match reads is paired.

Main statements:
- `Rule.run_mirrors`: the two matches, given the nonterminals.
- `Rule.calls_mirrors`: the two matches of a grammar.
-/
namespace LinkQuery.Rule

variable {ν : Type}

/-! ## Rules -/

/-- The text of a literal that may be required. -/
def literal? : Rule ν → Option String
  | .literal text _ => some text
  | .required rule _ => literal? rule
  | _ => none

mutual

/-- The parentheses of the rule are paired, and its nonterminals are among the allowed ones. -/
def pairs (allowed : ν → Bool) : Rule ν → Bool
  | .literal text _ => text.toList.all isNeutral
  | .keyword text => text.toList.all Char.isUpper
  | .choice rules => pairsAll allowed rules
  | .longest rules => pairsAll allowed rules
  | .sequence rules => pairsFrom allowed 0 rules
  | .list item separator => pairs allowed item && pairs allowed separator
  | .optional rule => pairs allowed rule
  | .many rule => pairs allowed rule
  | .peek rule _ => pairs allowed rule
  | .required rule _ => pairs allowed rule
  | .silent rule => pairs allowed rule
  | .nonterminal name => allowed name
  | .word | .number | .quoted | .action _ => true

/-- The parentheses of each of the rules are paired. -/
def pairsAll (allowed : ν → Bool) : List (Rule ν) → Bool
  | [] => true
  | rule :: rest => pairs allowed rule && pairsAll allowed rest

/-- The parentheses of the rules in order are paired, some open in front of the first one. -/
def pairsFrom (allowed : ν → Bool) : Nat → List (Rule ν) → Bool
  | depth, [] => depth == 0
  | depth, rule :: rest =>
    if rule.literal? = some "(" then pairsFrom allowed (depth + 1) rest
    else if rule.literal? = some ")" then depth != 0 && pairsFrom allowed (depth - 1) rest
    else pairs allowed rule && pairsFrom allowed depth rest

end

/-! ## States of two matches -/

/-- The first state stands in front of a text and the second in front of the text with closing
parentheses behind it. There are none, or the parentheses of the text are paired. -/
structure Beside (levels levels' depth : Nat) (cs tail : List Char) (s s' : State) : Prop where
  short : s.Before levels cs
  long : s'.Before levels' (cs ++ tail)
  closes : tail = [] ∨ closes none depth cs = true

section Outcomes

variable {levels levels' depth a b c : Nat} {cs tail read rest : List Char}
  {s s' : State} {o o' : Outcome} {tokens tokens' : List Token}

theorem Beside.past {depth' : Nat} (h : Beside levels levels' depth (read ++ rest) tail s s')
    (hdepth : Rule.closes none depth (read ++ rest) = Rule.closes none depth' rest) :
    Beside levels levels' depth' rest tail (s.past read.length tokens)
      (s'.past read.length tokens') := by
  refine ⟨h.short.past tokens, ?_, h.closes.imp_right fun hcloses => hdepth ▸ hcloses⟩
  have hlong := h.long
  rw [List.append_assoc] at hlong
  exact hlong.past tokens'

namespace Mirrors

/-- What is done with an outcome that halts does not matter if it halts as well. -/
theorem haltedBy {why : Halt} {t : State} (f : Outcome → Outcome)
    (hf : ∀ why t, f (.halted why t) = .halted why t)
    (h : why.IsLimit ∨ ∃ why' t', o = .halted why' t') :
    Mirrors a b cs s s' (.halted why t) (f o) := by
  refine .halted (h.imp_right ?_)
  rintro ⟨why', t', ho⟩
  rw [ho, hf]
  exact ⟨why', t', rfl⟩

theorem nothing : Mirrors 0 0 cs s s' (.matched s) (.matched s') := by
  have hnone : Mirrors 0 0 cs s s' (.matched (s.past ([] : List Char).length []))
      (.matched (s'.past ([] : List Char).length [])) := .matched rfl rfl fun _ => rfl
  rwa [List.length_nil, State.past_zero, State.past_zero] at hnone

theorem demand (h : Mirrors a b cs s s' o o') (expected : String) :
    Mirrors a b cs s s' (Rule.demand expected o) (Rule.demand expected o') := by
  cases h with
  | matched hcs hsame hdepth => exact .matched hcs hsame hdepth
  | failed => exact .halted (Or.inr ⟨_, _, rfl⟩)
  | halted h => exact haltedBy (Rule.demand expected) (fun _ _ => rfl) h

theorem orElse {next next' : State → Outcome} (h : Mirrors a b cs s s' o o')
    (hnext : Mirrors a b cs s s' (next s) (next' s')) :
    Mirrors a b cs s s' (o.orElse next) (o'.orElse next') := by
  cases h with
  | matched hcs hsame hdepth => exact .matched hcs hsame hdepth
  | failed => exact hnext
  | halted h => exact haltedBy (·.orElse next') (fun _ _ => rfl) h

theorem lookAhead (h : Mirrors a b cs s s' o o') (negate : Bool) :
    Mirrors 0 0 cs s s' (Rule.lookAhead negate s.mark o)
      (Rule.lookAhead negate s'.mark o') := by
  cases h with
  | matched hcs hsame hdepth =>
    cases negate with
    | true =>
      simp only [Rule.lookAhead, if_true, State.past_reset]
      exact .failed
    | false =>
      simp only [Rule.lookAhead, Bool.false_eq_true, if_false, State.past_reset]
      exact nothing
  | failed =>
    cases negate with
    | true =>
      simp only [Rule.lookAhead, if_true, State.reset_mark]
      exact nothing
    | false =>
      simp only [Rule.lookAhead, Bool.false_eq_true, if_false, State.reset_mark]
      exact .failed
  | halted h => exact haltedBy (Rule.lookAhead negate s'.mark) (fun _ _ => rfl) h

theorem discard (h : Mirrors a b cs s s' o o') :
    Mirrors a b cs s s' (o.andThen fun t => .matched (t.discardSince s.mark))
      (o'.andThen fun t => .matched (t.discardSince s'.mark)) := by
  cases h with
  | matched hcs hsame hdepth =>
    simp only [Outcome.andThen, State.past_discardSince]
    exact .matched hcs rfl hdepth
  | failed => exact .failed
  | halted h => exact haltedBy (·.andThen fun t => .matched (t.discardSince s'.mark)) (fun _ _ => rfl) h

/-- What two matches do behind a first part, if a failure goes back in front of it. -/
theorem behind (h : Mirrors b c rest (s.past read.length tokens)
    (s'.past read.length tokens') o o') (hcs : cs = read ++ rest)
    (hsame : tokens.map Token.lexeme = tokens'.map Token.lexeme)
    (hdepth : ∀ n, closes none (n + a) cs = closes none (n + b) rest) :
    Mirrors a c cs s s' (o.orElse fun u => .failed (u.reset s.mark))
      (o'.orElse fun u => .failed (u.reset s'.mark)) := by
  cases h with
  | matched hrest hmore hdepths =>
    subst hcs hrest
    simp only [Outcome.orElse, State.past_past]
    rw [← List.length_append]
    refine .matched (List.append_assoc ..).symm ?_ fun n => (hdepth n).trans (hdepths n)
    rw [List.map_append, List.map_append, hsame, hmore]
  | failed =>
    simp only [Outcome.orElse, State.past_reset]
    exact .failed
  | halted h => exact haltedBy (·.orElse fun u => .failed (u.reset s'.mark)) (fun _ _ => rfl) h

end Mirrors

end Outcomes

/-! ## Repetitions -/

section Repetitions

variable {levels levels' depth : Nat} {tail : List Char}
  {onStall step step' : State → Outcome}

theorem cursor_past {read rest : List Char} {tokens : List Token} {s : State}
    (h : s.rest = read ++ rest) : (s.past read.length tokens).cursor = s.cursor + read.length := by
  simp [State.past, State.advance, h]

theorem past_stays {read rest : List Char} {tokens : List Token} {s : State}
    (h : s.rest = read ++ rest) :
    (s.past read.length tokens).cursor = s.cursor ↔ read = [] := by
  simp [cursor_past h]

/-- Repeating steps that mirror each other, behind what has been read so far. -/
theorem iterate_mirrors (hstall : onStall = .matched ∨ onStall = stall)
    (hstep : ∀ cs s s', Beside levels levels' depth cs tail s s' →
      Mirrors 0 0 cs s s' (step s) (step' s')) :
    ∀ (fuel fuel' : Nat) {cs read rest : List Char} {s s' : State} {tokens tokens' : List Token},
      Beside levels levels' depth cs tail s s' → cs = read ++ rest →
      tokens.map Token.lexeme = tokens'.map Token.lexeme →
      (∀ n, closes none n cs = closes none n rest) → rest.length < fuel → rest.length < fuel' →
      Mirrors 0 0 cs s s' (iterate onStall step fuel (s.past read.length tokens))
        (iterate onStall step' fuel' (s'.past read.length tokens')) := by
  intro fuel
  induction fuel with
  | zero => exact fun _ _ _ _ _ _ _ _ _ _ _ _ hfuel => absurd hfuel (Nat.not_lt_zero _)
  | succ fuel ih =>
    intro fuel' cs read rest s s' tokens tokens' hbeside hcs hsame hdepth hfuel hfuel'
    obtain ⟨fuel', rfl⟩ : ∃ n, fuel' = n + 1 := ⟨fuel' - 1, by omega⟩
    subst hcs
    have hone := hstep rest _ _ (@Beside.past _ _ _ _ _ _ _ _ tokens tokens' _ hbeside (hdepth depth))
    have hrest : (s.past read.length tokens).rest = rest := by
      simp [hbeside.short.rest]
    have hrest' : (s'.past read.length tokens').rest = rest ++ tail := by
      simp [hbeside.long.rest]
    simp only [iterate]
    generalize step (s.past read.length tokens) = o at hone
    generalize step' (s'.past read.length tokens') = o' at hone
    cases hone with
    | failed => exact .matched rfl hsame hdepth
    | halted h =>
      refine .halted (h.imp_right fun hhalt => ?_)
      obtain ⟨why', t', rfl⟩ := hhalt
      exact ⟨_, _, rfl⟩
    | matched hmore hmoreSame hmoreDepth =>
      rename_i more last later later'
      have hsames : (tokens ++ later).map Token.lexeme = (tokens' ++ later').map Token.lexeme := by
        rw [List.map_append, List.map_append, hsame, hmoreSame]
      have hdepths : ∀ n, closes none n (read ++ rest) = closes none n last := fun n =>
        (hdepth n).trans (hmoreDepth n)
      have hsplit : read ++ rest = (read ++ more) ++ last := by
        rw [hmore, List.append_assoc]
      have hstays := @past_stays more last later _ (hrest.trans hmore)
      have hstays' := @past_stays more (last ++ tail) later' _
        (hrest'.trans (by rw [hmore, List.append_assoc]))
      dsimp only
      by_cases hnone : more = []
      · rw [if_pos (hstays.mpr hnone), if_pos (hstays'.mpr hnone), State.past_past, State.past_past,
          ← List.length_append]
        rcases hstall with rfl | rfl
        · exact .matched hsplit hsames hdepths
        · exact .halted (Or.inr ⟨_, _, rfl⟩)
      · rw [if_neg (mt hstays.mp hnone), if_neg (mt hstays'.mp hnone), State.past_past,
          State.past_past, ← List.length_append]
        have hpositive := List.length_pos_iff.mpr hnone
        have hless := congrArg List.length hmore
        rw [List.length_append] at hless
        exact ih fuel' hbeside hsplit hsames hdepths (by omega) (by omega)

/-- A separator and an item behind it. -/
theorem separated_mirrors {item item' : State → Outcome} {cs : List Char} {s s' : State}
    {o o' : Outcome} (hbeside : Beside levels levels' depth cs tail s s')
    (h : Mirrors 0 0 cs s s' o o')
    (hitem : ∀ cs s s', Beside levels levels' depth cs tail s s' →
      Mirrors 0 0 cs s s' (item s) (item' s')) :
    Mirrors 0 0 cs s s'
      (o.andThen fun t => (item t).orElse fun u => .failed (u.reset s.mark))
      (o'.andThen fun t => (item' t).orElse fun u => .failed (u.reset s'.mark)) := by
  cases h with
  | matched hcs hsame hdepth =>
    subst hcs
    exact (hitem _ _ _ (hbeside.past (hdepth depth))).behind rfl hsame hdepth
  | failed => exact .failed
  | halted h =>
    refine .halted (h.imp_right fun hhalt => ?_)
    obtain ⟨why', t', rfl⟩ := hhalt
    exact ⟨_, _, rfl⟩

end Repetitions

/-! ## Rules in two matches -/

section Run

variable {levels levels' : Nat} {tail : List Char} {allowed : ν → Bool}
  {call call' : ν → State → Outcome}

/-- A rule that is an opening parenthesis. -/
theorem opens_mirrors (htail : OnlyCloses tail) {depth : Nat} {cs : List Char} {s s' : State}
    (hbeside : Beside levels levels' depth cs tail s s') : ∀ rule : Rule ν,
    rule.literal? = some "(" → Mirrors 0 1 cs s s' (run call rule s) (run call' rule s')
  | .literal text logged, h => by
    obtain rfl := Option.some.inj h
    exact opening_mirrors hbeside.short.rest hbeside.long.rest htail
  | .required rule expected, h => (opens_mirrors htail hbeside rule h).demand expected

/-- A rule that is a closing parenthesis, with a parenthesis open in front of it. -/
theorem closes_mirrors (htail : OnlyCloses tail) {depth : Nat} {cs : List Char} {s s' : State}
    (hbeside : Beside levels levels' (depth + 1) cs tail s s') : ∀ rule : Rule ν,
    rule.literal? = some ")" → Mirrors 1 0 cs s s' (run call rule s) (run call' rule s')
  | .literal text logged, h => by
    obtain rfl := Option.some.inj h
    exact closing_mirrors hbeside.short.rest hbeside.long.rest htail
      (hbeside.closes.imp_right ne_nil_of_closes)
  | .required rule expected, h => (closes_mirrors htail hbeside rule h).demand expected

/-- The best alternative, seen from a state, where the distance of its end is given. -/
def Best.seen (s : State) (best : Option (Nat × Nat)) : Option Best :=
  best.map fun found => ⟨found.1, s.cursor + found.2⟩

/-- The better of the best so far and an alternative that ends at a distance. -/
def Best.nearer (best : Option (Nat × Nat)) (index distance : Nat) : Option (Nat × Nat) :=
  match best with
  | none => some (index, distance)
  | some old => if old.2 < distance then some (index, distance) else some old

theorem Best.improve_seen (s : State) (best : Option (Nat × Nat)) (index distance : Nat) :
    Best.improve (Best.seen s best) index (s.cursor + distance) =
      Best.seen s (Best.nearer best index distance) := by
  cases best with
  | none => rfl
  | some old =>
    simp only [Best.seen, Best.nearer, Best.improve, Option.map_some, Nat.add_lt_add_iff_left]
    split <;> rfl

/-- Nothing but closing parentheses stands behind the text, and in front of them the allowed
nonterminals do the same as on the text alone. -/
structure MirrorsCalls (levels levels' : Nat) (tail : List Char)
    (allowed : ν → Bool) (call call' : ν → State → Outcome) : Prop where
  only : OnlyCloses tail
  name : ∀ name, allowed name = true → ∀ {depth : Nat} {cs : List Char} {s s' : State},
    Beside levels levels' depth cs tail s s' →
      Mirrors 0 0 cs s s' (call name s) (call' name s')

mutual

/-- A rule with paired parentheses does the same on both texts when its nonterminals do. -/
theorem run_mirrors (hm : MirrorsCalls levels levels' tail allowed call call') :
    ∀ rule : Rule ν, pairs allowed rule = true →
    ∀ {depth : Nat} {cs : List Char} {s s' : State}, Beside levels levels' depth cs tail s s' →
      Mirrors 0 0 cs s s' (run call rule s) (run call' rule s')
  | .literal text logged, h, _, _, _, _, hb =>
    neutral_mirrors hb.short.rest hb.long.rest hm.only h
  | .keyword text, h, _, _, _, _, hb =>
    keyword_mirrors hb.short.rest hb.long.rest hm.only (List.all_eq_true.mp h)
  | .word, _, _, _, _, _, hb => name_mirrors hb.short.rest hb.long.rest hm.only
  | .number, _, _, _, _, _, hb => number_mirrors hb.short.rest hb.long.rest hm.only
  | .quoted, _, _, _, _, _, hb => quotedText_mirrors hb.short.rest hb.long.rest hm.only
  | .choice rules, h, _, _, _, _, hb => runFirst_mirrors hm rules h hb
  | .longest rules, h, _, _, s, s', hb => by
    have heach := runEach_mirrors hm rules h hb 0 none
    simp only [run]
    obtain ⟨best, hbest, hbest'⟩ | ⟨why, t, hwhy, hwhy'⟩ := heach
    · have hnone : ∀ s, Best.seen s none = none := fun _ => rfl
      rw [hnone] at hbest hbest'
      rw [hbest, hbest']
      cases best with
      | none => exact .failed
      | some best => exact runNth_mirrors hm rules h best.1 hb
    · have hnone : ∀ s, Best.seen s none = none := fun _ => rfl
      rw [hnone] at hwhy hwhy'
      rw [hwhy]
      refine .halted (hwhy'.imp_right fun hhalt => ?_)
      obtain ⟨why', hwhy'⟩ := hhalt
      rw [hwhy']
      exact ⟨_, _, rfl⟩
  | .sequence rules, h, depth, cs, s, s', hb => by
    have hall : Mirrors 0 0 cs s s'
        (runAll call s.mark rules (s.past ([] : List Char).length []))
        (runAll call' s'.mark rules (s'.past ([] : List Char).length [])) :=
      runAll_mirrors hm rules 0 h hb (List.nil_append cs).symm rfl fun _ => rfl
    rwa [List.length_nil, State.past_zero, State.past_zero] at hall
  | .list item separator, h, depth, _, s, s', hb => by
    simp only [pairs, Bool.and_eq_true] at h
    have hfirst := run_mirrors hm item h.1 hb
    simp only [run]
    generalize run call item s = o at hfirst
    generalize run call' item s' = o' at hfirst
    cases hfirst with
    | failed => exact .failed
    | halted h =>
      refine .halted (h.imp_right fun hhalt => ?_)
      obtain ⟨why', t', rfl⟩ := hhalt
      exact ⟨_, _, rfl⟩
    | matched hcs hsame hdepth =>
      rename_i read rest tokens tokens'
      subst hcs
      have hbehind := @Beside.past _ _ _ _ _ _ _ _ tokens tokens' _ hb (hdepth depth)
      have hleft := hbehind.short.left
      have hleft' := hbehind.long.left
      rw [List.length_append] at hleft'
      exact iterate_mirrors (Or.inr rfl)
        (fun _ _ _ ht => separated_mirrors ht (run_mirrors hm separator h.2 ht)
          fun _ _ _ hu => run_mirrors hm item h.1 hu)
        _ _ hb rfl hsame hdepth (by omega) (by omega)
  | .optional rule, h, _, _, _, _, hb => (run_mirrors hm rule h hb).orElse Mirrors.nothing
  | .many rule, h, depth, cs, s, s', hb => by
    have hleft := hb.short.left
    have hleft' := hb.long.left
    rw [List.length_append] at hleft'
    have hall : Mirrors 0 0 cs s s'
        (iterate .matched (run call rule) (s.remaining + 1) (s.past ([] : List Char).length []))
        (iterate .matched (run call' rule) (s'.remaining + 1)
          (s'.past ([] : List Char).length [])) :=
      iterate_mirrors (Or.inl rfl) (fun _ _ _ ht => run_mirrors hm rule h ht) _ _ hb
        (List.nil_append cs).symm rfl (fun _ => rfl) (by omega) (by omega)
    rwa [List.length_nil, State.past_zero, State.past_zero] at hall
  | .peek rule negate, h, _, _, _, _, hb => (run_mirrors hm rule h hb).lookAhead negate
  | .required rule expected, h, _, _, _, _, hb => (run_mirrors hm rule h hb).demand expected
  | .silent rule, h, _, _, _, _, hb => (run_mirrors hm rule h hb).discard
  | .action m, _, _, cs, s, s', _ => by
    have hmarked : Mirrors 0 0 cs s s'
        (.matched (s.past ([] : List Char).length [.ofMarker m s.cursor]))
        (.matched (s'.past ([] : List Char).length [.ofMarker m s'.cursor])) :=
      .matched rfl rfl fun _ => rfl
    simp only [run, State.pushMarker_eq_past]
    exact hmarked
  | .nonterminal name, h, depth, cs, s, s', hb => hm.name name h hb

theorem runFirst_mirrors (hm : MirrorsCalls levels levels' tail allowed call call') :
    ∀ rules : List (Rule ν), pairsAll allowed rules = true →
    ∀ {depth : Nat} {cs : List Char} {s s' : State}, Beside levels levels' depth cs tail s s' →
      Mirrors 0 0 cs s s' (runFirst call rules s) (runFirst call' rules s')
  | [], _, _, _, _, _, _ => .failed
  | rule :: rest, h, _, _, _, _, hb => by
    simp only [pairsAll, Bool.and_eq_true] at h
    exact (run_mirrors hm rule h.1 hb).orElse (runFirst_mirrors hm rest h.2 hb)

theorem runNth_mirrors (hm : MirrorsCalls levels levels' tail allowed call call') :
    ∀ rules : List (Rule ν), pairsAll allowed rules = true →
    ∀ (index : Nat) {depth : Nat} {cs : List Char} {s s' : State},
      Beside levels levels' depth cs tail s s' →
      Mirrors 0 0 cs s s' (runNth call rules index s) (runNth call' rules index s')
  | [], _, _, _, _, _, _, _ => .failed
  | rule :: _, h, 0, _, _, _, _, hb => by
    simp only [pairsAll, Bool.and_eq_true] at h
    exact run_mirrors hm rule h.1 hb
  | _ :: rest, h, n + 1, _, _, _, _, hb => by
    simp only [pairsAll, Bool.and_eq_true] at h
    exact runNth_mirrors hm rest h.2 n hb

/-- The farthest alternative has the same index and ends at the same distance. -/
theorem runEach_mirrors (hm : MirrorsCalls levels levels' tail allowed call call') :
    ∀ rules : List (Rule ν), pairsAll allowed rules = true →
    ∀ {depth : Nat} {cs : List Char} {s s' : State}, Beside levels levels' depth cs tail s s' →
    ∀ (index : Nat) (best : Option (Nat × Nat)),
      (∃ found, runEach call s.mark rules index (Best.seen s best) s = .ok (Best.seen s found, s) ∧
        runEach call' s'.mark rules index (Best.seen s' best) s' = .ok (Best.seen s' found, s')) ∨
      ∃ why t, runEach call s.mark rules index (Best.seen s best) s = .error (why, t) ∧
        (why.IsLimit ∨
          ∃ why', runEach call' s'.mark rules index (Best.seen s' best) s' = .error why')
  | [], _, _, _, _, _, _, _, best => Or.inl ⟨best, rfl, rfl⟩
  | rule :: rest, h, _, _, s, s', hb, index, best => by
    simp only [pairsAll, Bool.and_eq_true] at h
    have hone := run_mirrors hm rule h.1 hb
    simp only [runEach]
    generalize run call rule s = o at hone
    generalize run call' rule s' = o' at hone
    cases hone with
    | matched hcs hsame hdepth =>
      rename_i read last tokens tokens'
      have hcursor := @cursor_past read last tokens s (hb.short.rest.trans hcs)
      have hcursor' := @cursor_past read (last ++ tail) tokens' s'
        (hb.long.rest.trans (by rw [hcs, List.append_assoc]))
      simp only [State.past_reset, hcursor, hcursor', Best.improve_seen]
      exact runEach_mirrors hm rest h.2 hb (index + 1) _
    | failed =>
      simp only [State.reset_mark]
      exact runEach_mirrors hm rest h.2 hb (index + 1) best
    | halted h =>
      refine Or.inr ⟨_, _, rfl, h.imp_right fun hhalt => ?_⟩
      obtain ⟨why', t', rfl⟩ := hhalt
      exact ⟨_, rfl⟩

/-- The rules of a sequence behind what has been read so far. -/
theorem runAll_mirrors (hm : MirrorsCalls levels levels' tail allowed call call') :
    ∀ (rules : List (Rule ν)) (more : Nat), pairsFrom allowed more rules = true →
    ∀ {depth : Nat} {cs read rest : List Char} {s s' : State} {tokens tokens' : List Token},
      Beside levels levels' depth cs tail s s' → cs = read ++ rest →
      tokens.map Token.lexeme = tokens'.map Token.lexeme →
      (∀ n, closes none n cs = closes none (n + more) rest) →
      Mirrors 0 0 cs s s' (runAll call s.mark rules (s.past read.length tokens))
        (runAll call' s'.mark rules (s'.past read.length tokens'))
  | [], more, h, _, _, _, _, _, _, _, _, _, hcs, hsame, hdepth => by
    obtain rfl : more = 0 := by simpa [pairsFrom] using h
    exact .matched hcs hsame hdepth
  | rule :: rules, more, h, depth, cs, read, rest, s, s', tokens, tokens', hb, hcs, hsame, hdepth => by
    subst hcs
    have hbehind := @Beside.past _ _ _ _ _ _ _ _ tokens tokens' _ hb (hdepth depth)
    -- The rule opens or closes a parenthesis or neither, and `base` others stay open.
    have hnext : ∀ base a b : Nat, more = base + a → pairsFrom allowed (base + b) rules = true →
        Mirrors a b rest (s.past read.length tokens) (s'.past read.length tokens')
          (run call rule (s.past read.length tokens))
          (run call' rule (s'.past read.length tokens')) →
        Mirrors 0 0 (read ++ rest) s s'
          (runAll call s.mark (rule :: rules) (s.past read.length tokens))
          (runAll call' s'.mark (rule :: rules) (s'.past read.length tokens')) := by
      intro base a b hmore hrules hone
      simp only [runAll]
      generalize run call rule (s.past read.length tokens) = o at hone
      generalize run call' rule (s'.past read.length tokens') = o' at hone
      cases hone with
      | failed =>
        simp only [State.past_reset]
        exact .failed
      | halted h =>
        refine .halted (h.imp_right fun hhalt => ?_)
        obtain ⟨why', t', rfl⟩ := hhalt
        exact ⟨_, _, rfl⟩
      | matched hrest hlater hlast =>
        rename_i found last later later'
        simp only [State.past_past]
        rw [← List.length_append]
        refine runAll_mirrors hm rules (base + b) hrules hb (by rw [hrest, List.append_assoc]) ?_
          fun n => ?_
        · rw [List.map_append, List.map_append, hsame, hlater]
        · rw [hdepth, hmore, ← Nat.add_assoc, hlast, Nat.add_assoc]
    simp only [pairsFrom] at h
    split at h
    · rename_i hopens
      exact hnext more 0 1 rfl h (opens_mirrors hm.only hbehind rule hopens)
    · split at h
      · rename_i hcloses
        simp only [Bool.and_eq_true, bne_iff_ne, ne_eq] at h
        obtain ⟨base, rfl⟩ : ∃ n, more = n + 1 := ⟨more - 1, by omega⟩
        exact hnext base 1 0 rfl h.2 (closes_mirrors hm.only hbehind rule hcloses)
      · rw [Bool.and_eq_true] at h
        exact hnext more 0 0 rfl h.2 (run_mirrors hm rule h.1 hbehind)

end

end Run

/-! ## Grammars in two matches -/

/-- Leaving a nonterminal goes back to the level in front of it. -/
theorem Mirrors.leave {levels levels' a b : Nat} {cs cs' : List Char} {s s' : State} {o o' : Outcome}
    (hs : s.Before (levels + 1) cs) (hs' : s'.Before (levels' + 1) cs')
    (h : Mirrors a b cs s.enter.2 s'.enter.2 o o') :
    Mirrors a b cs s s' (o.mapState .leave) (o'.mapState .leave) := by
  rw [hs.enter.1, hs'.enter.1] at h
  cases h with
  | matched hcs hsame hdepth => exact .matched hcs hsame hdepth
  | failed => exact .failed
  | halted h =>
    refine .halted (h.imp_right fun hhalt => ?_)
    obtain ⟨why', t', rfl⟩ := hhalt
    exact ⟨_, _, rfl⟩

theorem calls_mirrors {body : ν → Rule ν} {allowed : ν → Bool} {tail : List Char}
    (hbody : ∀ name, allowed name = true → pairs allowed (body name) = true)
    (htail : OnlyCloses tail) : ∀ levels levels', levels ≤ levels' →
      MirrorsCalls levels levels' tail allowed (calls body levels) (calls body levels') := by
  intro levels
  induction levels with
  | zero =>
    intro levels' _
    exact ⟨htail, fun name _ _ _ _ _ _ => .halted (Or.inl ⟨_, rfl⟩)⟩
  | succ levels ih =>
    intro levels' hle
    obtain ⟨levels', rfl⟩ : ∃ n, levels' = n + 1 := ⟨levels' - 1, by omega⟩
    refine ⟨htail, fun name hname depth cs s s' hb => ?_⟩
    have hinside : Beside levels levels' depth cs tail s.enter.2 s'.enter.2 :=
      ⟨hb.short.enter.2, hb.long.enter.2, hb.closes⟩
    have hrun := run_mirrors (ih levels' (by omega)) (body name) (hbody name hname) hinside
    simp only [calls, runWithin_eq]
    exact hrun.leave hb.short hb.long

end LinkQuery.Rule
