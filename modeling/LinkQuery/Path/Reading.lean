import LinkQuery.Path.Basic
import LinkQuery.QueryError
import LinkQuery.Text.Whole
/-!
# Reading paths from a log

A path stands in the log between its start and its end marker. Words are its segments; what follows
a word belongs to it. The segments between the markers of a quantifier share that quantifier.

- `Block.take?_length`, `Path.segmentsFrom_length`, `Path.read_length`: reading leaves less of the
  log.
-/
namespace LinkQuery

namespace Block

/-- Reads on to the end of a block, with `depth` further blocks open inside it. -/
def takeWithin (depth : Nat) (body : List Token) : List Token → Option (List Token × List Token)
  | [] => none
  | t :: rest =>
    if t.isMarker .whereStart then takeWithin (depth + 1) (t :: body) rest
    else if t.isMarker .whereEnd then
      match depth with
      | 0 => some (body.reverse, rest)
      | depth + 1 => takeWithin depth (t :: body) rest
    else takeWithin depth (t :: body) rest

/-- The tokens of the block that a log begins inside of, and what follows the block. -/
def take? (tokens : List Token) : Option (List Token × List Token) :=
  takeWithin 0 [] tokens

theorem takeWithin_length {depth : Nat} {body tokens block rest : List Token}
    (h : takeWithin depth body tokens = some (block, rest)) : rest.length < tokens.length := by
  induction tokens generalizing depth body with
  | nil => simp [takeWithin] at h
  | cons t tokens ih =>
    unfold takeWithin at h
    split at h
    · exact Nat.lt_succ_of_lt (ih h)
    · split at h
      · cases depth with
        | zero =>
          simp only [Option.some.injEq, Prod.mk.injEq] at h
          simp [h.2]
        | succ depth => exact Nat.lt_succ_of_lt (ih h)
      · exact Nat.lt_succ_of_lt (ih h)

/-- A block takes up part of the log. -/
theorem take?_length {tokens block rest : List Token} (h : take? tokens = some (block, rest)) :
    rest.length < tokens.length :=
  takeWithin_length h

end Block

namespace Path

/-- An open quantifier of a path, with the segments in front of it, the last one first. -/
structure Frame where
  quantifier : Quantifier
  outside : List Segment

/-- The segments behind the end of a quantifier, which holds for those inside it. -/
def Frame.close (frame : Frame) (inside : List Segment) : List Segment :=
  inside.map (·.quantifiedBy frame.quantifier) ++ frame.outside

/-- Reads the limit on the number of steps along a link. -/
def depthLimit (t : Token) : Except QueryError Nat :=
  match Text.unsigned? 32 t.value with
  | some depth => .ok depth
  | none => invalid (.transitiveDepth t.value)

/--
Reads segments up to the end of a path. `frames` are the open quantifiers, the innermost first, and
`read` the segments of the innermost of them so far, the last one first.
-/
def segmentsFrom (frames : List Frame) (read : List Segment) (tokens : List Token) :
    Except QueryError (List Segment × List Token) :=
  match tokens with
  | [] => internal .unterminatedPath
  | t :: rest =>
    match t.kind with
    | .word => segmentsFrom frames (.named t.value t.position :: read) rest
    | .marker .pathEnd =>
      match frames with
      | [] => .ok (read.reverse, rest)
      | _ :: _ => internal (.tokenInPath t)
    | .marker .quantEnd =>
      match frames with
      | [] => internal (.tokenInPath t)
      | frame :: frames =>
        segmentsFrom frames (frame.close read) rest
    | .marker .transitive =>
      match read with
      | [] => internal (.beforeSegment t)
      | last :: before =>
        match rest with
        | [] => segmentsFrom frames (last.repeated none :: before) []
        | limit :: after =>
          if limit.kind = .number then
            match depthLimit limit with
            | .error why => .error why
            | .ok depth => segmentsFrom frames (last.repeated (some depth) :: before) after
          else segmentsFrom frames (last.repeated none :: before) (limit :: after)
    | .marker .whereStart =>
      match _h : Block.take? rest with
      | none => internal .unterminatedBlock
      | some (block, after) =>
        match read with
        | [] => internal (.beforeSegment t)
        | last :: before => segmentsFrom frames (last.filteredBy block :: before) after
    | .keyword =>
      match Quantifier.ofKeyword? t.value, rest with
      | none, _ => internal (.keywordInPath t.value)
      | some _, [] => internal (.loneQuantifier t.value)
      | some quantifier, next :: after =>
        if next.isMarker .quantStart then segmentsFrom (⟨quantifier, read⟩ :: frames) [] after
        else if next.isMarker .whereStart then
          match _h : Block.take? after with
          | none => internal .unterminatedBlock
          | some (block, after) =>
            match read with
            | [] => internal (.beforeSegment t)
            | last :: before =>
              if last.condition.isSome then invalid (.repeatedCondition last.name)
              else
                segmentsFrom frames ({ last with condition := some ⟨quantifier, block⟩ } :: before)
                  after
        else internal (.loneQuantifier t.value)
    | _ => internal (.tokenInPath t)
termination_by tokens.length
decreasing_by
  all_goals grind [→ Block.take?_length]

/-- Reads a path behind its start marker, and gives what follows its end marker. -/
def read (tokens : List Token) : Except QueryError (Path × List Token) :=
  match segmentsFrom [] [] tokens with
  | .error why => .error why
  | .ok (segments, rest) =>
    match ofSegments? segments with
    | none => internal .emptyPath
    | some path => .ok (path, rest)

theorem segmentsFrom_length {frames : List Frame} {read segments : List Segment}
    {tokens rest : List Token} (h : segmentsFrom frames read tokens = .ok (segments, rest)) :
    rest.length < tokens.length := by
  fun_induction segmentsFrom frames read tokens <;> grind [internal, invalid, → Block.take?_length]

/-- A path takes up part of the log. -/
theorem read_length {tokens rest : List Token} {path : Path}
    (h : read tokens = .ok (path, rest)) : rest.length < tokens.length := by
  unfold read at h
  split at h
  · simp at h
  · rename_i found
    split at h
    · simp [internal] at h
    · simp only [Except.ok.injEq, Prod.mk.injEq] at h
      exact h.2 ▸ segmentsFrom_length found

end Path

end LinkQuery
