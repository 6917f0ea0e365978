import LinkQuery.Rule.Basic
import LinkQuery.Rule.Lexeme
/-!
# Matching rules

`Rule.run` matches a rule against a state, with a way to match nonterminals. `Rule.runWithin` gives
nonterminals their rules from a grammar and lets them nest to a given number of levels, and
`Rule.matchAt` takes that number from the nesting limit of the state.
-/
namespace LinkQuery.Rule

variable {ν : Type}

/--
Repeats a step while it matches and consumes input, at most `n` times. `onStall` says what a match
that consumes nothing leads to.
-/
def iterate (onStall : State → Outcome) (step : State → Outcome) : Nat → State → Outcome
  | 0, s => .halted ⟨s.cursor, .stalled⟩ s
  | n + 1, s =>
    let before := s.cursor
    match step s with
    | .matched s => if s.cursor = before then onStall s else iterate onStall step n s
    | .failed s => .matched s
    | .halted why s => .halted why s

/-- Halts a list that goes on without consuming input. -/
def stall (s : State) : Outcome :=
  .halted ⟨s.cursor, .stalled⟩ s

/-- Demands a match: a failure halts behind white space. -/
def demand (expected : String) (o : Outcome) : Outcome :=
  o.orElse fun s => .halted ⟨s.skipBlanks.cursor, .required expected⟩ s

/-- The outcome of a look ahead from a mark. -/
def lookAhead (negate : Bool) (m : Mark) : Outcome → Outcome
  | .matched s => if negate then .failed (s.reset m) else .matched (s.reset m)
  | .failed s => if negate then .matched (s.reset m) else .failed (s.reset m)
  | .halted why s => .halted why s

/-- Where the best alternative so far stands in its list and where it ended. -/
structure Best where
  index : Nat
  cursor : Nat

/-- The better of the best so far and an alternative that ended at a cursor. -/
def Best.improve (best : Option Best) (index cursor : Nat) : Option Best :=
  match best with
  | none => some ⟨index, cursor⟩
  | some old => if old.cursor < cursor then some ⟨index, cursor⟩ else some old

mutual

/-- Matches a rule, with `call` to match nonterminals. -/
def run (call : ν → State → Outcome) : Rule ν → State → Outcome
  | .literal text logged, s => s.literal text logged
  | .keyword text, s => s.keyword text
  | .word, s => s.name
  | .number, s => s.number
  | .quoted, s => s.quotedText
  | .choice rules, s => runFirst call rules s
  | .longest rules, s =>
    match runEach call s.mark rules 0 none s with
    | .error (why, s) => .halted why s
    | .ok (none, s) => .failed s
    | .ok (some best, s) => runNth call rules best.index s
  | .sequence rules, s => runAll call s.mark rules s
  | .list item separator, s =>
    (run call item s).andThen fun s =>
      iterate stall
        (fun s =>
          let m := s.mark
          (run call separator s).andThen fun s =>
            (run call item s).orElse fun s => .failed (s.reset m))
        (s.remaining + 1) s
  | .optional rule, s => (run call rule s).orElse .matched
  | .many rule, s => iterate .matched (run call rule) (s.remaining + 1) s
  | .peek rule negate, s =>
    let m := s.mark
    lookAhead negate m (run call rule s)
  | .required rule expected, s => demand expected (run call rule s)
  | .silent rule, s =>
    let m := s.mark
    (run call rule s).andThen fun s => .matched (s.discardSince m)
  | .action m, s => .matched (s.pushMarker m)
  | .nonterminal name, s => call name s

/-- Matches the first alternative that does. -/
def runFirst (call : ν → State → Outcome) : List (Rule ν) → State → Outcome
  | [], s => .failed s
  | rule :: rest, s => (run call rule s).orElse (runFirst call rest)

/-- Tries every alternative from the mark and finds the one that ends farthest. -/
def runEach (call : ν → State → Outcome) (m : Mark) :
    List (Rule ν) → Nat → Option Best → State → Except (Halt × State) (Option Best × State)
  | [], _, best, s => .ok (best, s)
  | rule :: rest, index, best, s =>
    match run call rule s with
    | .matched s =>
      let best := Best.improve best index s.cursor
      runEach call m rest (index + 1) best (s.reset m)
    | .failed s => runEach call m rest (index + 1) best (s.reset m)
    | .halted why s => .error (why, s)

/-- Matches the alternative at an index. -/
def runNth (call : ν → State → Outcome) : List (Rule ν) → Nat → State → Outcome
  | [], _, s => .failed s
  | rule :: _, 0, s => run call rule s
  | _ :: rest, n + 1, s => runNth call rest n s

/-- Matches all rules in order, and goes back to the mark when one of them fails. -/
def runAll (call : ν → State → Outcome) (m : Mark) : List (Rule ν) → State → Outcome
  | [], s => .matched s
  | rule :: rest, s =>
    match run call rule s with
    | .matched s => runAll call m rest s
    | .failed s => .failed (s.reset m)
    | .halted why s => .halted why s

end

/-- Refuses to enter a nonterminal. -/
def refuse (s : State) : Outcome :=
  .halted ⟨s.cursor, .nestingLimit s.maxDepth⟩ s.enter.2

/-- Matches a rule of a grammar, nonterminals nesting to at most the given number of levels. -/
def runWithin (body : ν → Rule ν) : Nat → Rule ν → State → Outcome
  | 0 => run fun _ s => refuse s
  | levels + 1 => run fun name s => (runWithin body levels (body name) s.enter.2).mapState .leave

/-- Matches a rule of a grammar within the nesting limit of the state. -/
def matchAt (body : ν → Rule ν) (rule : Rule ν) (s : State) : Outcome :=
  runWithin body (s.maxDepth - s.depth) rule s

end LinkQuery.Rule
