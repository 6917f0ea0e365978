/-!
# Maps from names

A map from names to values as a list of entries sorted by name. Inserting replaces the entry of the
same name.

- `find?_insert_self`, `find?_insert_ne`: what is found after an insertion.
-/
namespace LinkQuery

/-- Entries sorted by name, one for each name. -/
structure NameMap (α : Type) where
  entries : List (String × α)
deriving Repr

namespace NameMap

variable {α : Type}

/-- The map without entries. -/
def empty : NameMap α := ⟨[]⟩

instance : Inhabited (NameMap α) := ⟨empty⟩

/-- Insertion into sorted entries. -/
def insertEntry (name : String) (value : α) : List (String × α) → List (String × α)
  | [] => [(name, value)]
  | (other, old) :: rest =>
    if name = other then (name, value) :: rest
    else if name < other then (name, value) :: (other, old) :: rest
    else (other, old) :: insertEntry name value rest

/-- The map with a value for a name. -/
def insert (m : NameMap α) (name : String) (value : α) : NameMap α :=
  ⟨insertEntry name value m.entries⟩

/-- The value of a name. -/
def find? (m : NameMap α) (name : String) : Option α :=
  m.entries.lookup name

/-- The map has a value for the name. -/
def contains (m : NameMap α) (name : String) : Bool :=
  (m.find? name).isSome

/-- The map of a list of entries, later ones replacing earlier ones of the same name. -/
def ofList (entries : List (String × α)) : NameMap α :=
  entries.foldl (fun m entry => m.insert entry.1 entry.2) empty

/-- The names in order. -/
def names (m : NameMap α) : List String :=
  m.entries.map (·.1)

/-- The values in the order of their names. -/
def values (m : NameMap α) : List α :=
  m.entries.map (·.2)

theorem lookup_insertEntry_self (name : String) (value : α) (entries : List (String × α)) :
    (insertEntry name value entries).lookup name = some value := by
  induction entries with
  | nil => simp [insertEntry]
  | cons entry rest ih =>
    obtain ⟨key, held⟩ := entry
    unfold insertEntry
    split
    · simp
    · rename_i h
      split
      · simp
      · simpa [List.lookup_cons, beq_eq_false_iff_ne.mpr h] using ih

theorem lookup_insertEntry_ne {name other : String} (h : other ≠ name) (value : α)
    (entries : List (String × α)) :
    (insertEntry name value entries).lookup other = entries.lookup other := by
  induction entries with
  | nil => simp [insertEntry, List.lookup_cons, beq_eq_false_iff_ne.mpr h]
  | cons entry rest ih =>
    obtain ⟨key, held⟩ := entry
    unfold insertEntry
    split
    · rename_i same
      subst same
      simp [List.lookup_cons, beq_eq_false_iff_ne.mpr h]
    · split
      · simp [List.lookup_cons, beq_eq_false_iff_ne.mpr h]
      · simp [List.lookup_cons, ih]

/-- A name just inserted is found. -/
theorem find?_insert_self (m : NameMap α) (name : String) (value : α) :
    (m.insert name value).find? name = some value :=
  lookup_insertEntry_self name value m.entries

/-- Other names are found as before. -/
theorem find?_insert_ne (m : NameMap α) {name other : String} (h : other ≠ name) (value : α) :
    (m.insert name value).find? other = m.find? other :=
  lookup_insertEntry_ne h value m.entries

end NameMap

end LinkQuery
