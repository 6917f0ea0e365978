import LinkQuery.Schema.Basic
/-!
# Groups of fields

A group may hold other groups, itself among them. Expanding it walks its members in order and opens
each nested group once, at the place where the walk first meets it.

- `Schema.groupMembers`: the fields in a group and in the groups inside it.
- `Schema.firstLink?`: the first link among them that leads to a table.
- `Schema.groupLinks`: the links that stand for a group when it is followed.
- `Schema.groupCycle?`: the first group that contains itself.
-/
namespace LinkQuery.Schema

/--
The names met by a walk over `names` that are not groups, in order and with repeats. `unopened`
holds the groups that the walk may still open.
-/
def expand (members : String → List String) (isGroup : String → Bool) (unopened : List String)
    (names : List String) : List String :=
  match names with
  | [] => []
  | name :: rest =>
    if isGroup name then
      if name ∈ unopened then
        expand members isGroup (unopened.erase name) (members name ++ rest)
      else expand members isGroup unopened rest
    else name :: expand members isGroup unopened rest
termination_by names.length + (unopened.flatMap fun name => name :: members name).length
decreasing_by
  · rename_i h
    have := ((List.perm_cons_erase h).flatMap_right fun name => name :: members name).length_eq
    simp only [List.flatMap_cons, List.length_append, List.length_cons] at this
    simp only [List.length_append, List.length_cons]
    omega
  · simp
  · simp

/-- The groups of a table. -/
def groupNames (s : Schema) (table : String) : List String :=
  ((s.tables.find? table).map (·.fields.names)).getD [] |>.filter fun name =>
    s.fieldKind table name == .group

/-- The fields met by a walk over a group, nested groups opened. -/
def groupWalk (s : Schema) (table group : String) : List String :=
  expand (s.nestedFields table) (fun name => s.fieldKind table name == .group)
    ((s.groupNames table).erase group) (s.nestedFields table group)

/-- The fields in a group and in the groups inside it, each once, in the order of the walk. -/
def groupMembers (s : Schema) (table group : String) : List String :=
  (s.groupWalk table group).eraseDups

/-- A link of a table with the table it leads to. -/
def followable? (s : Schema) (table name : String) : Option (String × String) :=
  if (s.fieldKind table name).isLink then
    (s.linkTarget? table name).map fun target => (name, target)
  else none

/-- The first link of the walk over a group that leads to a table, with that table. -/
def firstLink? (s : Schema) (table group : String) : Option (String × String) :=
  (s.groupWalk table group).findSome? (s.followable? table)

/-- A list without the elements that repeat their left neighbour. -/
def dropRepeats : List String → List String
  | [] => []
  | [name] => [name]
  | name :: next :: rest =>
    if name = next then dropRepeats (next :: rest) else name :: dropRepeats (next :: rest)

/-- The link that a member of a group stands for. -/
def memberLink? (s : Schema) (table member : String) : Option String :=
  match s.fieldKind table member with
  | .link | .crossLink => some member
  | .group => (s.firstLink? table member).map (·.1)
  | _ => none

/-- The links of a group: its own, and the first link of each group in it. -/
def groupLinks (s : Schema) (table group : String) : List String :=
  dropRepeats ((s.nestedFields table group).filterMap (s.memberLink? table))

/-! ## Groups that contain themselves -/

/-- The walk over `names` meets the name `wanted`. Groups in `unopened` are opened on the way. -/
def meets (members : String → List String) (wanted : String) (unopened : List String)
    (names : List String) : Bool :=
  match names with
  | [] => false
  | name :: rest =>
    if name = wanted then true
    else if name ∈ unopened then meets members wanted (unopened.erase name) (members name ++ rest)
    else meets members wanted unopened rest
termination_by (unopened.length, names.length)
decreasing_by
  · rename_i h
    have := List.length_erase_of_mem h
    have := List.length_pos_of_mem h
    simp_wf
    omega
  · simp_wf
    omega

/-- The members that a field declares. -/
def declaredMembers (table : TableDef) (name : String) : List String :=
  ((table.fields.find? name).map (·.nested)).getD []

/-- The names of the fields that are declared as groups. -/
def declaredGroups (table : TableDef) : List String :=
  (table.fields.entries.filter fun entry => entry.2.type == .group).map (·.1)

/-- The group leads back to itself through groups of its table. -/
def containsItself (table : TableDef) (group : String) : Bool :=
  meets (declaredMembers table) group (declaredGroups table) (declaredMembers table group)

/-- The first group, by table and then by name, that contains itself. -/
def groupCycle? (s : Schema) : Option (String × String) :=
  s.tables.entries.findSome? fun (name, table) =>
    ((declaredGroups table).find? (containsItself table)).map fun group => (name, group)

end LinkQuery.Schema
