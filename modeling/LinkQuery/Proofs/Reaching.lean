import LinkQuery.Store.Reach
import Mathlib.Tactic.ByContra
/-!
# Objects at a distance along a link

A link of a stored object leads to stored objects of its target. The distance between two objects
is the least number of such steps from one to the other.

Main statements:
- `View.mem_linked`: the objects behind a link are the stored objects that it names.
- `View.exists_distance`: objects with a walk between them are at a distance.
-/
namespace LinkQuery

/-! ## Stores -/

/-- Every object is stored under its own identity. -/
def Store.Keyed (s : Store) : Prop :=
  ∀ table id o, s.find? table id = some o → o.id = id

theorem Store.keyed_empty : Store.empty.Keyed := by
  intro table id o h
  cases h

/-- An object just inserted is found. -/
theorem Store.find?_insert_self (s : Store) (table : String) (o : StoredObject) :
    (s.insert table o).find? table o.id = some o := by
  simp [Store.insert, Store.find?, NameMap.find?_insert_self]

/-- Inserting objects keeps a store keyed. -/
theorem Store.Keyed.insert {s : Store} (h : s.Keyed) (table : String) (o : StoredObject) :
    (s.insert table o).Keyed := by
  intro other id found hfound
  by_cases htable : other = table
  · subst htable
    simp only [Store.insert, Store.find?, NameMap.find?_insert_self, Option.bind_some] at hfound
    by_cases hid : id = o.id
    · subst hid
      rw [NameMap.find?_insert_self] at hfound
      exact Option.some.inj hfound ▸ rfl
    · rw [NameMap.find?_insert_ne _ hid] at hfound
      refine h other id found ?_
      cases hold : s.tables.find? other with
      | none =>
        rw [hold] at hfound
        cases hfound
      | some objects =>
        rw [hold] at hfound
        simpa [Store.find?, hold] using hfound
  · simp only [Store.insert, Store.find?, NameMap.find?_insert_ne _ htable] at hfound
    exact h other id found hfound

theorem NameMap.mem_of_find? {α : Type} {m : NameMap α} {name : String} {value : α}
    (h : m.find? name = some value) : name ∈ m.names ∧ value ∈ m.values := by
  obtain ⟨front, back, hentries, _⟩ := List.lookup_eq_some_iff.mp h
  simp [names, values, hentries]

theorem Store.mem_ids {s : Store} {table id : String} {o : StoredObject}
    (h : s.find? table id = some o) : id ∈ s.ids := by
  obtain ⟨objects, htable, hid⟩ := Option.bind_eq_some_iff.mp h
  refine List.mem_eraseDups.mpr (List.mem_flatMap.mpr ⟨objects, ?_, ?_⟩)
  · exact (NameMap.mem_of_find? htable).2
  · exact (NameMap.mem_of_find? hid).1

/-! ## Lists without repeats -/

/-- Nothing is lost when only equal elements count as the same. -/
theorem mem_eraseDupsBy {α : Type} {same : α → α → Bool} {as : List α} {a : α}
    (h : ∀ x ∈ as, ∀ y ∈ as, same x y = true → x = y) : a ∈ as.eraseDupsBy same ↔ a ∈ as := by
  induction hlength : as.length using Nat.strongRecOn generalizing as with
  | ind n ih =>
    cases as with
    | nil => simp
    | cons first rest =>
      subst hlength
      rw [List.eraseDupsBy_cons, List.mem_cons, List.mem_cons]
      have hrest : a ∈ (rest.filter fun b => same b first = false).eraseDupsBy same ↔
          a ∈ rest.filter fun b => same b first = false :=
        ih _ (Nat.lt_succ_of_le (List.length_filter_le _ rest))
          (fun x hx y hy => h x (.tail _ (List.mem_filter.mp hx).1) y
            (.tail _ (List.mem_filter.mp hy).1)) rfl
      rw [hrest, List.mem_filter]
      constructor
      · rintro (rfl | ⟨hmem, _⟩)
        · exact Or.inl rfl
        · exact Or.inr hmem
      · rintro (rfl | hmem)
        · exact Or.inl rfl
        · cases hsame : same a first with
          | true => exact Or.inl (h a (.tail _ hmem) first (.head _) hsame)
          | false => exact Or.inr ⟨hmem, by simp⟩

theorem mem_of_mem_eraseDupsBy {α : Type} {same : α → α → Bool} {as : List α} {a : α}
    (h : a ∈ as.eraseDupsBy same) : a ∈ as := by
  induction hlength : as.length using Nat.strongRecOn generalizing as with
  | ind n ih =>
    cases as with
    | nil => simp at h
    | cons first rest =>
      subst hlength
      rw [List.eraseDupsBy_cons, List.mem_cons] at h
      rcases h with rfl | h
      · exact .head _
      · have hrest := ih _ (Nat.lt_succ_of_le (List.length_filter_le _ rest)) h rfl
        exact .tail _ (List.mem_filter.mp hrest).1

/-- An element that is not kept counts as the same as one that is. -/
theorem exists_mem_eraseDupsBy {α : Type} {same : α → α → Bool} (hself : ∀ a, same a a = true)
    {as : List α} {a : α} (h : a ∈ as) : ∃ kept ∈ as.eraseDupsBy same, same a kept = true := by
  induction hlength : as.length using Nat.strongRecOn generalizing as with
  | ind n ih =>
    cases as with
    | nil => cases h
    | cons first rest =>
      subst hlength
      rw [List.eraseDupsBy_cons]
      cases hsame : same a first with
      | true => exact ⟨first, .head _, hsame⟩
      | false =>
        have hrest : a ∈ rest := by
          rcases List.mem_cons.mp h with rfl | hrest
          · rw [hself] at hsame
            cases hsame
          · exact hrest
        have hleft : a ∈ rest.filter fun b => same b first = false :=
          List.mem_filter.mpr ⟨hrest, by simp [hsame]⟩
        obtain ⟨kept, hkept, hsame⟩ :=
          ih _ (Nat.lt_succ_of_le (List.length_filter_le _ rest)) hleft rfl
        exact ⟨kept, .tail _ hkept, hsame⟩

/-- No element that is kept counts as the same as one in front of it. -/
theorem pairwise_eraseDupsBy {α : Type} (same : α → α → Bool) (as : List α) :
    (as.eraseDupsBy same).Pairwise fun a b => same b a = false := by
  induction hlength : as.length using Nat.strongRecOn generalizing as with
  | ind n ih =>
    cases as with
    | nil => exact List.Pairwise.nil
    | cons first rest =>
      subst hlength
      rw [List.eraseDupsBy_cons, List.pairwise_cons]
      refine ⟨fun b hb => ?_, ih _ (Nat.lt_succ_of_le (List.length_filter_le _ rest)) _ rfl⟩
      simpa using (List.mem_filter.mp (mem_of_mem_eraseDupsBy hb)).2

/-- No element is kept twice. -/
theorem nodup_eraseDupsBy {α : Type} {same : α → α → Bool} (hself : ∀ a, same a a = true)
    (as : List α) : (as.eraseDupsBy same).Nodup := by
  refine (pairwise_eraseDupsBy same as).imp fun {a b} hother heq => ?_
  rw [heq, hself] at hother
  cases hother

theorem nodup_eraseDups (names : List String) : names.eraseDups.Nodup :=
  nodup_eraseDupsBy (fun _ => beq_self_eq_true _) names

/-! ## Steps and walks -/

/-- So many steps of a relation lead from one to another. -/
inductive Walk {α : Type} (R : α → α → Prop) : Nat → α → α → Prop where
  | here (a : α) : Walk R 0 a a
  | step {k : Nat} {a b c : α} (first : R a b) (rest : Walk R k b c) : Walk R (k + 1) a c

theorem Walk.mono {α : Type} {R S : α → α → Prop} (h : ∀ a b, R a b → S a b) {k : Nat} {a b : α}
    (hwalk : Walk R k a b) : Walk S k a b := by
  induction hwalk with
  | here a => exact .here a
  | step first rest ih => exact .step (h _ _ first) ih

namespace View

variable {v : View} {a b c : Located} {link : String}

/-- The object is stored in its table. -/
def Stores (v : View) (o : Located) : Prop :=
  v.store.find? o.table o.object.id = some o.object

/-- A link leads from an object to a stored object of its target. -/
def Follows (v : View) (link : String) (a b : Located) : Prop :=
  v.schema.linkTarget? a.table link = some b.table ∧
    ∃ id ∈ a.object.linkedIds link, v.store.find? b.table id = some b.object

theorem mem_behindLink : b ∈ v.behindLink a link ↔ v.Follows link a b := by
  unfold behindLink Follows
  cases htarget : v.schema.linkTarget? a.table link with
  | none => simp
  | some target =>
    simp only [List.mem_filterMap, Option.map_eq_some_iff, Option.some.injEq]
    constructor
    · rintro ⟨id, hid, o, ho, rfl⟩
      exact ⟨rfl, id, hid, ho⟩
    · rintro ⟨rfl, id, hid, ho⟩
      exact ⟨id, hid, b.object, ho, rfl⟩

theorem Follows.stores (hstore : v.store.Keyed) (h : v.Follows link a b) : v.Stores b := by
  obtain ⟨_, id, _, hfind⟩ := h
  unfold Stores
  rw [hstore _ _ _ hfind]
  exact hfind

/-- Stored objects of one table with one identity are the same. -/
theorem Stores.ext (ha : v.Stores a) (hb : v.Stores b) (htable : a.table = b.table)
    (hid : a.object.id = b.object.id) : a = b := by
  obtain ⟨table, o⟩ := a
  obtain ⟨table', o'⟩ := b
  obtain rfl : table = table' := htable
  have hsame : some o = some o' := by
    rw [← ha, ← hb]
    exact congrArg (v.store.find? table) hid
  rw [Option.some.inj hsame]

/-- The objects behind several links of an object, each once. -/
theorem mem_linked_of_linksOf (hstore : v.store.Keyed) {name : String} {links : List String}
    (hlinks : v.linksOf a.table name = .ok links) :
    ∃ found, v.linked a name = .ok found ∧ ∀ b, b ∈ found ↔ ∃ link ∈ links, v.Follows link a b := by
  refine ⟨_, by rw [linked, hlinks]; rfl, fun b => ?_⟩
  rw [mem_eraseDupsBy]
  · simp only [List.mem_flatMap, mem_behindLink]
  · intro x hx y hy hsame
    simp only [List.mem_flatMap, mem_behindLink] at hx hy
    obtain ⟨_, _, hx⟩ := hx
    obtain ⟨_, _, hy⟩ := hy
    simp only [Located.same, Bool.and_eq_true, beq_iff_eq] at hsame
    exact (hx.stores hstore).ext (hy.stores hstore) hsame.1 hsame.2

/-- The objects behind a link are the stored objects that it names. -/
theorem mem_linked (hstore : v.store.Keyed)
    (hlink : (v.schema.fieldKind a.table link).isLink = true) :
    ∃ found, v.linked a link = .ok found ∧ ∀ b, b ∈ found ↔ v.Follows link a b := by
  have hlinks : v.linksOf a.table link = .ok [link] := by
    unfold linksOf
    cases hkind : v.schema.fieldKind a.table link <;> rw [hkind] at hlink <;> first | rfl | cases hlink
  obtain ⟨found, hfound, hmem⟩ := mem_linked_of_linksOf hstore hlinks
  exact ⟨found, hfound, fun b => by simp [hmem]⟩

/-! ## Distances -/

/-- The limit allows so many steps. -/
def Allows (limit : Option Nat) (steps : Nat) : Prop :=
  ∀ most ∈ limit, steps ≤ most

/-- The least number of steps along a link that lead from one object to another. -/
def AtDistance (v : View) (link : String) (k : Nat) (a b : Located) : Prop :=
  Walk (v.Follows link) k a b ∧ ∀ j < k, ¬Walk (v.Follows link) j a b

theorem exists_distance {k : Nat} (h : Walk (v.Follows link) k a b) :
    ∃ least, v.AtDistance link least a b ∧ least ≤ k := by
  induction k using Nat.strongRecOn with
  | ind k ih =>
    by_cases hshorter : ∃ j < k, Walk (v.Follows link) j a b
    · obtain ⟨j, hj, hwalk⟩ := hshorter
      obtain ⟨least, hdistance, hle⟩ := ih j hj hwalk
      exact ⟨least, hdistance, Nat.le_trans hle (Nat.le_of_lt hj)⟩
    · exact ⟨k, ⟨h, fun j hj hwalk => hshorter ⟨j, hj, hwalk⟩⟩, Nat.le_refl k⟩

/-- Two objects are at one distance only. -/
theorem AtDistance.unique {j k : Nat} (hj : v.AtDistance link j a b) (hk : v.AtDistance link k a b) :
    j = k := by
  have hle : ¬j < k := fun hlt => hk.2 j hlt hj.1
  have hge : ¬k < j := fun hlt => hj.2 k hlt hk.1
  omega

/-- A walk of one step or more ends at a stored object of the table. -/
theorem walk_stores (hstore : v.store.Keyed)
    (htarget : v.schema.linkTarget? a.table link = some a.table) {k : Nat} (hk : 1 ≤ k)
    (h : Walk (v.Follows link) k a b) : v.Stores b ∧ b.table = a.table := by
  induction h with
  | here a => cases hk
  | @step k a b c first rest ih =>
    have htable : b.table = a.table := Option.some.inj (first.1.symm.trans htarget)
    cases k with
    | zero =>
      cases rest
      exact ⟨first.stores hstore, htable⟩
    | succ k =>
      obtain ⟨hstores, hc⟩ := ih (by rw [htable]; exact htarget) (Nat.succ_pos k)
      exact ⟨hstores, hc.trans htable⟩

end View

end LinkQuery
