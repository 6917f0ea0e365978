import LinkQuery.Path.Reading
/-!
# Field nodes

The log of a field set as a forest: each node names a field, with its limit, its filters and the
nodes below it.
-/
namespace LinkQuery

/-- A field with what belongs to it. -/
inductive FieldNode where
  | node (name : String) (position : Nat) (limit : Option Nat) (filters : List (List Token))
      (children : List FieldNode)
deriving Inhabited

namespace FieldNode

/-- The name of the field. -/
def name : FieldNode → String
  | .node name _ _ _ _ => name

/-- A name and nothing more. -/
def named (name : String) (position : Nat) : FieldNode :=
  .node name position none [] []

/-- The node with this limit. -/
def limitedTo (limit : Nat) : FieldNode → FieldNode
  | .node name position _ filters children => .node name position (some limit) filters children

/-- The node with one more filter. -/
def filteredBy (filter : List Token) : FieldNode → FieldNode
  | .node name position limit filters children =>
    .node name position limit (filters ++ [filter]) children

/-- The node with more nodes below it. -/
def withChildren (more : List FieldNode) : FieldNode → FieldNode
  | .node name position limit filters children =>
    .node name position limit filters (children ++ more)

/-- An open list of nodes, with the nodes in front of it, the last one first. -/
structure Frame where
  opening : Token
  outside : List FieldNode

/--
Reads nodes to the end of the log. `frames` are the open lists, the innermost first, and `read` the
nodes of the innermost of them so far, the last one first.
-/
def collect (frames : List Frame) (read : List FieldNode) (tokens : List Token) :
    Except QueryError (List FieldNode) :=
  match tokens with
  | [] => if frames.isEmpty then .ok read.reverse else internal .unterminatedChildren
  | t :: rest =>
    if t.isSymbol "," then collect frames read rest
    else if t.isSymbol "*" || t.kind = .word then
      collect frames (.named t.value t.position :: read) rest
    else if t.kind = .number then
      match read with
      | [] => internal (.beforeSegment t)
      | last :: before =>
        match Text.unsigned? 64 t.value with
        | none => invalid (.fieldLimit t.value last.name)
        | some limit => collect frames (last.limitedTo limit :: before) rest
    else if t.isMarker .whereStart then
      match _h : Block.take? rest with
      | none => internal .unterminatedBlock
      | some (block, after) =>
        match read with
        | [] => internal (.beforeSegment t)
        | last :: before => collect frames (last.filteredBy block :: before) after
    else if t.isMarker .childrenStart then collect (⟨t, read⟩ :: frames) [] rest
    else if t.isMarker .childrenEnd then
      match frames with
      | [] => internal (.tokenInFieldSet t)
      | frame :: frames =>
        match frame.outside with
        | [] => internal (.beforeSegment frame.opening)
        | last :: before => collect frames (last.withChildren read.reverse :: before) rest
    else internal (.tokenInFieldSet t)
termination_by tokens.length
decreasing_by
  all_goals first
    | exact Nat.lt_succ_of_lt (Block.take?_length _h)
    | simp

/-- The nodes of a log. -/
def ofTokens (tokens : List Token) : Except QueryError (List FieldNode) :=
  collect [] [] tokens

end FieldNode

end LinkQuery
