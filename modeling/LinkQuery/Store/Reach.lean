import LinkQuery.Query.Basic
import LinkQuery.Schema.Groups
import LinkQuery.Store.Basic
/-!
# Following links through a store

The stored objects behind a link of an object, the objects that repeated steps along a link reach,
and the values at the end of a path.

- `View.linked`: the objects behind a link, each once.
- `View.reached`: the objects at one or more steps along a link, the nearest first.
- `View.pathValues`: the values at the end of a path.
-/
namespace LinkQuery

/-- Why a tree cannot be evaluated. -/
inductive EvalError where
  | unknownObject (table id : String)
  | notALink (table field : String)
  /-- Only comparisons and intervals can be tested for each value of a field. -/
  | quantifiedTree (inner : Query)
  /-- A count contains nothing. -/
  | containsOnCount

/-- A schema with a store of its objects. -/
structure View where
  schema : Schema
  store : Store

/-- An object with the table it belongs to. -/
structure Located where
  table : String
  object : StoredObject

namespace Located

/-- Both are the same object of the same table. -/
def same (a b : Located) : Bool :=
  a.table == b.table && a.object.id == b.object.id

end Located

namespace View

/-! ## One step -/

/-- The links that a name stands for in a table. -/
def linksOf (v : View) (table name : String) : Except EvalError (List String) :=
  match v.schema.fieldKind table name with
  | .link | .crossLink => .ok [name]
  | .group => .ok (v.schema.groupLinks table name)
  | _ => .error (.notALink table name)

/-- The stored objects behind a single link. -/
def behindLink (v : View) (start : Located) (link : String) : List Located :=
  match v.schema.linkTarget? start.table link with
  | none => []
  | some target =>
    (start.object.linkedIds link).filterMap fun id => (v.store.find? target id).map (⟨target, ·⟩)

/-- The stored objects behind a link, or behind the links of a group, each once. -/
def linked (v : View) (start : Located) (name : String) : Except EvalError (List Located) := do
  let links ← v.linksOf start.table name
  return (links.flatMap (v.behindLink start)).eraseDupsBy Located.same

/-! ## Repeated steps -/

/-- The objects that are not seen yet, each once, with the identities that stay unseen. -/
def fresh (unseen : List String) : List Located → List Located × List String
  | [] => ([], unseen)
  | found :: rest =>
    if found.object.id ∈ unseen then
      let (new, left) := fresh (unseen.erase found.object.id) rest
      (found :: new, left)
    else fresh unseen rest

theorem fresh_length (unseen : List String) (found : List Located) :
    (fresh unseen found).1.length + (fresh unseen found).2.length = unseen.length := by
  induction found generalizing unseen with
  | nil => simp [fresh]
  | cons first rest ih =>
    unfold fresh
    split
    · rename_i h
      have := ih (unseen.erase first.object.id)
      have := List.length_erase_of_mem h
      have := List.length_pos_of_mem h
      simp only [List.length_cons]
      omega
    · exact ih unseen

/--
The objects reached from a queue of objects with the steps made so far, in the order in which they
are met. `limit` bounds the steps, and `unseen` holds the identities not met yet.
-/
def reachedFrom (v : View) (link : String) (limit : Option Nat) (unseen : List String)
    (queue : List (Located × Nat)) : Except EvalError (List Located) :=
  match queue with
  | [] => .ok []
  | (start, steps) :: queue =>
    if limit.any (· ≤ steps) then v.reachedFrom link limit unseen queue
    else
      match v.linked start link with
      | .error why => .error why
      | .ok found =>
        let new := (fresh unseen found).1
        let left := (fresh unseen found).2
        (v.reachedFrom link limit left (queue ++ new.map (·, steps + 1))).map (new ++ ·)
termination_by unseen.length + queue.length
decreasing_by
  · simp
  · have := fresh_length unseen found
    simp only [List.length_append, List.length_map, List.length_cons]
    omega

/-- The objects at one or more steps along a link, at most `limit`, the start left out. -/
def reached (v : View) (start : Located) (link : String) (limit : Option Nat) :
    Except EvalError (List Located) :=
  v.reachedFrom link limit (v.store.ids.erase start.object.id) [(start, 0)]

/-! ## Paths -/

/-- The objects behind a link of any of the objects, each once. -/
def linkedFromAll (v : View) (starts : List Located) (name : String) :
    Except EvalError (List Located) := do
  let found ← starts.mapM (v.linked · name)
  return found.flatten.eraseDupsBy Located.same

/-- The first of the objects has a link or a group of this name. -/
def isStep (v : View) (starts : List Located) (name : String) : Bool :=
  match starts.head? with
  | none => false
  | some first =>
    let kind := v.schema.fieldKind first.table name
    kind.isLink || kind == .group

/-- The values at the end of a path: identities behind a link, and else values, each once. -/
def pathValues (v : View) (starts : List Located) : List String → Except EvalError (List Literal)
  | [] => .ok []
  | name :: rest =>
    if v.isStep starts name then do
      let found ← v.linkedFromAll starts name
      if rest.isEmpty then return found.map fun o => .text o.object.id
      else v.pathValues found rest
    else .ok (starts.flatMap (·.object.valuesOf name)).eraseDups

end View

end LinkQuery
