import LinkQuery.Proofs.Reaching
/-!
# Breadth-first search along a link

The search for the objects that repeated steps along a link reach keeps a queue sorted by steps.
What a state of it still finds are the ends of walks that begin in the queue and visit unseen
objects only; it finds each of them once, and those within fewer steps first.

Main statements:
- `View.reachedFrom_found`: what the search finds from a queue, and in which order.
- `View.mem_reached`: the objects at a distance of one or more within the limit.
- `View.reached_breadth_first`: each of them once, the nearest first.
-/
namespace LinkQuery.View

variable {v : View} {a b c : Located} {link : String}

/-! ## One round of the search -/

section Fresh

variable {unseen : List String} {found : List Located}

/-- The new objects are the found ones that are unseen. -/
theorem mem_fresh (hunseen : unseen.Nodup)
    (hfound : ∀ x ∈ found, ∀ y ∈ found, x.object.id = y.object.id → x = y) :
    (∀ y, y ∈ (fresh unseen found).1 ↔ y ∈ found ∧ y.object.id ∈ unseen) ∧
      (∀ id, id ∈ (fresh unseen found).2 ↔
        id ∈ unseen ∧ ∀ y ∈ (fresh unseen found).1, y.object.id ≠ id) ∧
      (fresh unseen found).2.Nodup := by
  induction found generalizing unseen with
  | nil => simp [fresh, hunseen]
  | cons first rest ih =>
    have hrest : ∀ x ∈ rest, ∀ y ∈ rest, x.object.id = y.object.id → x = y :=
      fun x hx y hy => hfound x (.tail _ hx) y (.tail _ hy)
    unfold fresh
    split
    · rename_i hfirst
      obtain ⟨hnew, hleft, hnodup⟩ := ih (hunseen.erase first.object.id) hrest
      refine ⟨fun y => ?_, fun id => ?_, hnodup⟩
      · simp only [List.mem_cons, hnew, hunseen.mem_erase_iff]
        constructor
        · rintro (rfl | ⟨hy, _, hid⟩)
          · exact ⟨Or.inl rfl, hfirst⟩
          · exact ⟨Or.inr hy, hid⟩
        · rintro ⟨rfl | hy, hid⟩
          · exact Or.inl rfl
          · by_cases hsame : y.object.id = first.object.id
            · exact Or.inl (hfound y (.tail _ hy) first (.head _) hsame)
            · exact Or.inr ⟨hy, hsame, hid⟩
      · simp only [hleft, hunseen.mem_erase_iff, List.mem_cons, forall_eq_or_imp]
        constructor
        · rintro ⟨⟨hne, hid⟩, hother⟩
          exact ⟨hid, fun h => hne h.symm, hother⟩
        · rintro ⟨hid, hne, hother⟩
          exact ⟨⟨fun h => hne h.symm, hid⟩, hother⟩
    · rename_i hfirst
      obtain ⟨hnew, hleft, hnodup⟩ := ih hunseen hrest
      refine ⟨fun y => ?_, hleft, hnodup⟩
      rw [hnew, List.mem_cons]
      constructor
      · rintro ⟨hy, hid⟩
        exact ⟨Or.inr hy, hid⟩
      · rintro ⟨rfl | hy, hid⟩
        · exact absurd hid hfirst
        · exact ⟨hy, hid⟩

/-- Each new object has an identity that was unseen, and none of them occurs twice. -/
theorem nodup_fresh (hunseen : unseen.Nodup) :
    ((fresh unseen found).1.map (·.object.id)).Nodup ∧
      ∀ y ∈ (fresh unseen found).1, y.object.id ∈ unseen := by
  induction found generalizing unseen with
  | nil => simp [fresh]
  | cons first rest ih =>
    unfold fresh
    split
    · rename_i hfirst
      obtain ⟨hnodup, hmem⟩ := ih (hunseen.erase first.object.id)
      refine ⟨?_, fun y hy => ?_⟩
      · simp only [List.map_cons, List.nodup_cons, List.mem_map, not_exists, not_and]
        exact ⟨fun y hy hid => (hunseen.mem_erase_iff.mp (hmem y hy)).1 hid, hnodup⟩
      · rcases List.mem_cons.mp hy with rfl | hy
        · exact hfirst
        · exact List.mem_of_mem_erase (hmem y hy)
    · exact ih hunseen

end Fresh

/-! ## What the search finds -/

/-- A step along a link to an object that is unseen. -/
def FollowsUnseen (v : View) (link : String) (unseen : List String) (a b : Located) : Prop :=
  v.Follows link a b ∧ b.object.id ∈ unseen

/-- What a state of the search finds: ends of walks from its queue through unseen objects. -/
def Finds (v : View) (link : String) (limit : Option Nat) (unseen : List String)
    (queue : List (Located × Nat)) (b : Located) : Prop :=
  ∃ a steps, (a, steps) ∈ queue ∧ ∃ k, Walk (v.FollowsUnseen link unseen) (k + 1) a b ∧
    Allows limit (steps + k + 1)

/-- The queue is sorted by steps, and the last object is at most one step farther than the first. -/
structure Layered (queue : List (Located × Nat)) : Prop where
  sorted : queue.Pairwise fun a b => a.2 ≤ b.2
  close : ∀ a ∈ queue.head?, ∀ b ∈ queue, b.2 ≤ a.2 + 1

theorem Layered.tail {entry : Located × Nat} {queue : List (Located × Nat)}
    (h : Layered (entry :: queue)) : Layered queue := by
  obtain ⟨hsorted, hclose⟩ := h
  obtain ⟨hfirst, hsorted⟩ := List.pairwise_cons.mp hsorted
  refine ⟨hsorted, fun a ha b hb => ?_⟩
  have hab := hclose entry rfl b (.tail _ hb)
  have ha := hfirst a (List.mem_of_mem_head? ha)
  omega

/-- Behind the first object come the objects one step farther. -/
theorem Layered.append {a : Located} {steps : Nat} {queue : List (Located × Nat)}
    (h : Layered ((a, steps) :: queue)) (new : List Located) :
    Layered (queue ++ new.map (·, steps + 1)) := by
  obtain ⟨hsorted, hclose⟩ := h
  obtain ⟨hfirst, hsorted⟩ := List.pairwise_cons.mp hsorted
  have hlast : ∀ b ∈ queue ++ new.map (·, steps + 1), steps ≤ b.2 ∧ b.2 ≤ steps + 1 := by
    intro b hb
    rcases List.mem_append.mp hb with hb | hb
    · exact ⟨hfirst b hb, hclose _ rfl b (.tail _ hb)⟩
    · obtain ⟨_, _, rfl⟩ := List.mem_map.mp hb
      exact ⟨Nat.le_succ _, Nat.le_refl _⟩
  refine ⟨List.pairwise_append.mpr ⟨hsorted, ?_, fun x hx y hy => ?_⟩, fun x hx y hy => ?_⟩
  · exact List.pairwise_map.mpr (List.pairwise_of_forall fun _ _ => Nat.le_refl _)
  · obtain ⟨_, _, rfl⟩ := List.mem_map.mp hy
    exact hclose _ rfl x (.tail _ hx)
  · have hx := hlast x (List.mem_of_mem_head? hx)
    have hy := hlast y hy
    omega

/-- An object is found from a longer queue as well. -/
theorem Finds.cons {limit : Option Nat} {unseen : List String} {queue : List (Located × Nat)}
    {entry : Located × Nat} (h : v.Finds link limit unseen queue b) :
    v.Finds link limit unseen (entry :: queue) b := by
  obtain ⟨x, far, hx, hwalk⟩ := h
  exact ⟨x, far, .tail _ hx, hwalk⟩

theorem unseen_end {unseen : List String} {k : Nat}
    (h : Walk (v.FollowsUnseen link unseen) (k + 1) a b) : b.object.id ∈ unseen := by
  induction k generalizing a with
  | zero =>
    cases h with
    | step first rest =>
      cases rest
      exact first.2
  | succ k ih =>
    cases h with
    | step first rest => exact ih rest

/-- A round of the search from an object: the new objects, each once, and what stays unseen. -/
structure Round (v : View) (link : String) (unseen : List String) (start : Located)
    (new : List Located) (left : List String) : Prop where
  mem_new : ∀ x, x ∈ new ↔ v.Follows link start x ∧ x.object.id ∈ unseen
  mem_left : ∀ id, id ∈ left ↔ id ∈ unseen ∧ ∀ x ∈ new, x.object.id ≠ id
  once : (new.map (·.object.id)).Nodup
  left_once : left.Nodup

/-- What the search finds from a queue: each object once, those within fewer steps first. -/
structure Found (v : View) (link : String) (limit : Option Nat) (unseen : List String)
    (queue : List (Located × Nat)) (found : List Located) : Prop where
  mem : ∀ b, b ∈ found ↔ v.Finds link limit unseen queue b
  once : (found.map (·.object.id)).Nodup
  nearest : found.Pairwise fun a b => ∀ n, v.Finds link (some n) unseen queue b →
    v.Finds link (some n) unseen queue a

theorem Found.nil {limit : Option Nat} {unseen : List String} :
    v.Found link limit unseen [] [] := by
  refine ⟨fun b => ?_, List.nodup_nil, .nil⟩
  simp [Finds]

/-- An object that may not be stepped from adds nothing. -/
theorem Found.behindLimit {limit : Option Nat} {unseen : List String} {start : Located}
    {steps : Nat} {queue : List (Located × Nat)} {found : List Located}
    (hlimit : limit.any (· ≤ steps) = true) (h : v.Found link limit unseen queue found) :
    v.Found link limit unseen ((start, steps) :: queue) found := by
  obtain ⟨most, hmost, hle⟩ := (Option.any_eq_true _ _).mp hlimit
  have hle : most ≤ steps := of_decide_eq_true hle
  refine ⟨fun b => (h.mem b).trans ⟨Finds.cons, ?_⟩, h.once, ?_⟩
  · rintro ⟨x, far, hx, k, hwalk, hfar⟩
    rcases List.mem_cons.mp hx with hentry | hx
    · cases hentry
      have := hfar most hmost
      omega
    · exact ⟨x, far, hx, k, hwalk, hfar⟩
  · refine h.nearest.imp_of_mem fun {a b} _ hb hab n hn => (hab n ?_).cons
    obtain ⟨x, far, hx, k, hwalk, hfar⟩ := hn
    rcases List.mem_cons.mp hx with hentry | hx
    · -- Steps from the object itself exceed the limit, within which `b` is found anyway.
      cases hentry
      have hfar := hfar n rfl
      obtain ⟨y, near, hy, j, hwalk', hnear⟩ := (h.mem b).mp hb
      have hnear := hnear most hmost
      refine ⟨y, near, hy, j, hwalk', fun m hm => ?_⟩
      obtain rfl : n = m := by simpa using hm
      omega
    · exact ⟨x, far, hx, k, hwalk, hfar⟩

/-- The objects behind an object give a round of the search. -/
theorem round_of_linked {unseen : List String} {start : Located} {found : List Located}
    (hstore : v.store.Keyed) (hunseen : unseen.Nodup)
    (hmem : ∀ b, b ∈ found ↔ v.Follows link start b) :
    v.Round link unseen start (fresh unseen found).1 (fresh unseen found).2 := by
  have hsame : ∀ x ∈ found, ∀ y ∈ found, x.object.id = y.object.id → x = y := by
    intro x hx y hy hid
    have hx := (hmem x).mp hx
    have hy := (hmem y).mp hy
    refine (hx.stores hstore).ext (hy.stores hstore) ?_ hid
    exact Option.some.inj (hx.1.symm.trans hy.1)
  obtain ⟨hnew, hleft, hleftOnce⟩ := mem_fresh hunseen hsame
  exact ⟨fun x => (hnew x).trans (by rw [hmem]), hleft, (nodup_fresh hunseen).1, hleftOnce⟩

section Search

variable {table : String} {limit : Option Nat} (hstore : v.store.Keyed)
  (hlink : (v.schema.fieldKind table link).isLink = true)
  (htarget : v.schema.linkTarget? table link = some table)

include hstore htarget

section Rounds

variable {unseen left : List String} {start : Located} {new : List Located}
  (hround : v.Round link unseen start new left) (hstart : start.table = table)

include hround hstart

omit hstore in
theorem new_table : ∀ x ∈ new, x.table = table := by
  intro x hx
  have hfollows := ((hround.mem_new x).mp hx).1
  exact Option.some.inj (hfollows.1.symm.trans (hstart ▸ htarget))

/-- A stored object whose identity is not left is a new one. -/
theorem mem_new_of_seen {x : Located} (hx : v.Stores x) (htable : x.table = table)
    (hunseen : x.object.id ∈ unseen) (hleft : x.object.id ∉ left) : x ∈ new := by
  by_contra hother
  refine hleft ((hround.mem_left _).mpr ⟨hunseen, fun y hy hid => hother ?_⟩)
  have hstored := (((hround.mem_new y).mp hy).1).stores hstore
  have hytable := new_table htarget hround hstart y hy
  rwa [hx.ext hstored (htable.trans hytable.symm) hid.symm]

/-- A walk through unseen objects avoids the new ones or goes on from the last of them. -/
theorem walk_around {k : Nat} (ha : a.table = table)
    (h : Walk (v.FollowsUnseen link unseen) k a b) :
    Walk (v.FollowsUnseen link left) k a b ∨
      ∃ c ∈ new, ∃ j, j + 1 ≤ k ∧ Walk (v.FollowsUnseen link left) j c b := by
  induction h with
  | here a => exact Or.inl (.here a)
  | @step k a b c first rest ih =>
    obtain ⟨hfirst, hunseen⟩ := first
    have htable : b.table = table := Option.some.inj (hfirst.1.symm.trans (ha ▸ htarget))
    rcases ih htable with hrest | ⟨d, hd, j, hj, hrest⟩
    · by_cases hb : b.object.id ∈ left
      · exact Or.inl (.step ⟨hfirst, hb⟩ hrest)
      · have hnew := mem_new_of_seen hstore htarget hround hstart (hfirst.stores hstore) htable
          hunseen hb
        exact Or.inr ⟨b, hnew, k, Nat.le_refl _, hrest⟩
    · exact Or.inr ⟨d, hd, j, Nat.le_succ_of_le hj, hrest⟩

variable {steps : Nat} {queue : List (Located × Nat)}
  (hqueue : ∀ entry ∈ queue, entry.1.table = table) (hlayered : Layered ((start, steps) :: queue))

include hqueue hlayered

/-- One round: the new objects are found, and what the queue finds with them behind it. -/
theorem finds_round (hallows : Allows limit (steps + 1)) :
    v.Finds link limit unseen ((start, steps) :: queue) b ↔
      b ∈ new ∨ v.Finds link limit left (queue ++ new.map (·, steps + 1)) b := by
  have hback : ∀ {k : Nat} {x y : Located}, Walk (v.FollowsUnseen link left) k x y →
      Walk (v.FollowsUnseen link unseen) k x y := fun hwalk =>
    hwalk.mono fun _ _ hstep => ⟨hstep.1, ((hround.mem_left _).mp hstep.2).1⟩
  constructor
  · rintro ⟨x, far, hmem, k, hwalk, hfar⟩
    have hx : x.table = table ∧ steps ≤ far := by
      rcases List.mem_cons.mp hmem with hentry | hmem
      · cases hentry
        exact ⟨hstart, Nat.le_refl _⟩
      · exact ⟨hqueue _ hmem, (List.pairwise_cons.mp hlayered.sorted).1 _ hmem⟩
    obtain ⟨htable, hsteps⟩ := hx
    rcases walk_around hstore htarget hround hstart htable hwalk with hwalk | ⟨z, hz, j, hj, hwalk⟩
    · -- A walk from the object itself would begin with a new one.
      rcases List.mem_cons.mp hmem with hentry | hmem
      · cases hentry
        cases hwalk with
        | step first rest =>
          obtain ⟨hid, hother⟩ := (hround.mem_left _).mp first.2
          exact absurd rfl (hother _ ((hround.mem_new _).mpr ⟨first.1, hid⟩))
      · exact Or.inr ⟨x, far, List.mem_append_left _ hmem, k, hwalk, hfar⟩
    · cases j with
      | zero =>
        cases hwalk
        exact Or.inl hz
      | succ j =>
        refine Or.inr ⟨z, steps + 1,
          List.mem_append_right _ (List.mem_map.mpr ⟨z, hz, rfl⟩), j, hwalk, ?_⟩
        intro most hmost
        have := hfar most hmost
        omega
  · rintro (hb | ⟨x, far, hmem, k, hwalk, hfar⟩)
    · exact ⟨start, steps, .head _, 0, .step ((hround.mem_new b).mp hb) (.here b), hallows⟩
    · rcases List.mem_append.mp hmem with hmem | hmem
      · exact ⟨x, far, .tail _ hmem, k, hback hwalk, hfar⟩
      · obtain ⟨z, hz, hentry⟩ := List.mem_map.mp hmem
        cases hentry
        refine ⟨start, steps, .head _, k + 1, .step ((hround.mem_new x).mp hz) (hback hwalk), ?_⟩
        intro most hmost
        have := hfar most hmost
        omega

omit hstore htarget hround hstart hqueue in
/-- Nothing is found within the steps made to the first object of the queue. -/
theorem allows_of_finds {n : Nat}
    (h : v.Finds link (some n) unseen ((start, steps) :: queue) b) : Allows (some n) (steps + 1) := by
  obtain ⟨x, far, hmem, k, -, hfar⟩ := h
  have hsteps : steps ≤ far := by
    rcases List.mem_cons.mp hmem with hentry | hmem
    · cases hentry
      exact Nat.le_refl _
    · exact (List.pairwise_cons.mp hlayered.sorted).1 _ hmem
  intro most hmost
  have := hfar most hmost
  omega

/-- The new objects are nearer than what is found behind them. -/
theorem Found.round {rest : List Located} (hallows : Allows limit (steps + 1))
    (h : v.Found link limit left (queue ++ new.map (·, steps + 1)) rest) :
    v.Found link limit unseen ((start, steps) :: queue) (new ++ rest) := by
  have hfinds : ∀ {limit : Option Nat} {b : Located}, Allows limit (steps + 1) →
      (v.Finds link limit unseen ((start, steps) :: queue) b ↔
        b ∈ new ∨ v.Finds link limit left (queue ++ new.map (·, steps + 1)) b) :=
    finds_round hstore htarget hround hstart hqueue hlayered
  have hrest : ∀ b ∈ rest, b.object.id ∈ left := by
    intro b hb
    obtain ⟨x, far, -, k, hwalk, -⟩ := (h.mem b).mp hb
    exact unseen_end hwalk
  refine ⟨fun b => ?_, ?_, ?_⟩
  · rw [List.mem_append, h.mem]
    exact (hfinds hallows).symm
  · rw [List.map_append, List.nodup_append]
    refine ⟨hround.once, h.once, fun id hnew other hother hsame => ?_⟩
    obtain ⟨x, hx, rfl⟩ := List.mem_map.mp hnew
    obtain ⟨y, hy, rfl⟩ := List.mem_map.mp hother
    exact ((hround.mem_left _).mp (hrest y hy)).2 x hx hsame
  · rw [List.pairwise_append]
    refine ⟨?_, ?_, ?_⟩
    · have hall : new.Pairwise fun _ _ => True := List.pairwise_of_forall fun _ _ => trivial
      exact hall.imp_of_mem fun ha _ _ n hn =>
        (hfinds (allows_of_finds hlayered hn)).mpr (Or.inl ha)
    · refine h.nearest.imp_of_mem fun {a b} _ hb hab n hn => ?_
      have hallows := allows_of_finds hlayered hn
      refine (hfinds hallows).mpr (Or.inr (hab n ?_))
      refine ((hfinds hallows).mp hn).resolve_left fun hnew => ?_
      exact ((hround.mem_left _).mp (hrest b hb)).2 b hnew rfl
    · exact fun a ha b _ n hn => (hfinds (allows_of_finds hlayered hn)).mpr (Or.inl ha)

end Rounds

include hlink

/-- The search finds the ends of the walks from its queue through unseen objects. -/
theorem reachedFrom_found {unseen : List String} {queue : List (Located × Nat)}
    (hqueue : ∀ entry ∈ queue, entry.1.table = table) (hlayered : Layered queue)
    (hunseen : unseen.Nodup) :
    ∃ found, v.reachedFrom link limit unseen queue = .ok found ∧
      v.Found link limit unseen queue found := by
  induction unseen, queue using reachedFrom.induct v link limit with
  | case1 unseen => exact ⟨[], by rw [reachedFrom], .nil⟩
  | case2 unseen start steps queue hlimit ih =>
    obtain ⟨found, hfound, hin⟩ :=
      ih (fun entry h => hqueue entry (.tail _ h)) hlayered.tail hunseen
    exact ⟨found, by rw [reachedFrom, if_pos hlimit, hfound], hin.behindLimit hlimit⟩
  | case3 unseen start steps queue hlimit why hwhy =>
    have hstart : start.table = table := hqueue _ (.head _)
    obtain ⟨found, hfound, _⟩ := mem_linked (a := start) hstore (hstart ▸ hlink)
    rw [hfound] at hwhy
    cases hwhy
  | case4 unseen start steps queue hlimit found hfound new left ih =>
    have hstart : start.table = table := hqueue _ (.head _)
    have hqueue := fun entry h => hqueue entry (.tail _ h)
    obtain ⟨found', hfound', hmem⟩ := mem_linked (a := start) hstore (hstart ▸ hlink)
    obtain rfl : found' = found := Except.ok.inj (hfound'.symm.trans hfound)
    have hround : v.Round link unseen start new left :=
      round_of_linked hstore hunseen hmem
    have hallows : Allows limit (steps + 1) := by
      intro most hmost
      by_contra hle
      exact hlimit ((Option.any_eq_true _ _).mpr ⟨most, hmost, decide_eq_true (by omega)⟩)
    have hqueue' : ∀ entry ∈ queue ++ new.map (·, steps + 1), entry.1.table = table := by
      intro entry hentry
      rcases List.mem_append.mp hentry with hentry | hentry
      · exact hqueue entry hentry
      · obtain ⟨x, hx, rfl⟩ := List.mem_map.mp hentry
        exact new_table htarget hround hstart x hx
    obtain ⟨rest, hrest, hin⟩ := ih hqueue' (hlayered.append new) hround.left_once
    refine ⟨new ++ rest, ?_, hin.round hstore htarget hround hstart hqueue hlayered hallows⟩
    rw [reachedFrom, if_neg hlimit, hfound]
    dsimp only
    rw [hrest]
    rfl

/-! ## Distances -/

omit hlink in
/-- A walk that comes back to its start has a shorter one behind it. -/
theorem walk_unseen {start : Located} {k : Nat} (hstart : v.Stores start)
    (hstarttable : start.table = table) (ha : a.table = table) (h : Walk (v.Follows link) k a b)
    (hleast : ∀ j < k, ¬Walk (v.Follows link) j start b) :
    Walk (v.FollowsUnseen link (v.store.ids.erase start.object.id)) k a b := by
  induction h with
  | here a => exact .here a
  | @step k a b c first rest ih =>
    have htable : b.table = table := Option.some.inj (first.1.symm.trans (ha ▸ htarget))
    have hb := first.stores hstore
    refine .step ⟨first, ?_⟩ (ih htable fun j hj => hleast j (Nat.lt_succ_of_lt hj))
    refine (nodup_eraseDups _).mem_erase_iff.mpr ⟨fun hid => hleast k (Nat.lt_succ_self k) ?_, Store.mem_ids hb⟩
    rwa [← hb.ext hstart (htable.trans hstarttable.symm) hid]

omit hlink in
/-- From a stored object the search finds the objects at a distance of one or more. -/
theorem finds_from_start {start : Located} (hstart : v.Stores start) (ha : start.table = table) :
    v.Finds link limit (v.store.ids.erase start.object.id) [(start, 0)] b ↔
      ∃ k, 1 ≤ k ∧ Allows limit k ∧ v.AtDistance link k start b := by
  constructor
  · rintro ⟨x, far, hentry, k, hwalk, hfar⟩
    obtain ⟨rfl, rfl⟩ : x = start ∧ far = 0 := by simpa using hentry
    have hother : b ≠ x := by
      rintro rfl
      exact (nodup_eraseDups _).not_mem_erase (unseen_end hwalk)
    obtain ⟨least, hdistance, hle⟩ := exists_distance (hwalk.mono fun _ _ h => h.1)
    refine ⟨least, ?_, fun most hmost => ?_, hdistance⟩
    · cases least with
      | zero =>
        cases hdistance.1
        exact absurd rfl hother
      | succ least => exact Nat.succ_le_succ (Nat.zero_le _)
    · have := hfar most hmost
      omega
  · rintro ⟨k, hk, hfar, hwalk, hleast⟩
    obtain ⟨k, rfl⟩ := Nat.exists_eq_add_of_le' hk
    refine ⟨start, 0, .head _, k, walk_unseen hstore htarget hstart ha ha hwalk hleast, ?_⟩
    simpa using hfar

/-- From a stored object the search finds objects of its table, each once, the nearest first. -/
theorem reached_found {start : Located} (ha : start.table = table) :
    ∃ found, v.reached start link limit = .ok found ∧
      v.Found link limit (v.store.ids.erase start.object.id) [(start, 0)] found := by
  have hlayered : Layered [(start, 0)] := ⟨List.pairwise_singleton _ _, by simp⟩
  exact reachedFrom_found hstore hlink htarget (by simpa using ha) hlayered
    ((nodup_eraseDups _).erase _)

/-- The objects reached are the ones at a distance of one or more within the limit. -/
theorem mem_reached {start : Located} (hstart : v.Stores start) (ha : start.table = table) :
    ∃ found, v.reached start link limit = .ok found ∧
      ∀ b, b ∈ found ↔ ∃ k, 1 ≤ k ∧ Allows limit k ∧ v.AtDistance link k start b := by
  obtain ⟨found, hfound, hin⟩ := reached_found hstore hlink htarget ha
  exact ⟨found, hfound, fun b => (hin.mem b).trans (finds_from_start hstore htarget hstart ha)⟩

end Search

/--
Repeated steps along a link that leads back to its table reach each object at most once, the nearest
first: the stored objects other than the start whose distance is within the limit.
-/
theorem reached_breadth_first {start : Located} {limit : Option Nat} (hstore : v.store.Keyed)
    (hlink : (v.schema.fieldKind start.table link).isLink = true)
    (htarget : v.schema.linkTarget? start.table link = some start.table)
    (hstart : v.Stores start) :
    ∃ found, v.reached start link limit = .ok found ∧ (found.map (·.object.id)).Nodup ∧
      (found.Pairwise fun a b => ∀ j k, v.AtDistance link j start a →
        v.AtDistance link k start b → j ≤ k) ∧
      ∀ b, b ∈ found ↔ v.Stores b ∧ b ≠ start ∧
        ∃ k, 1 ≤ k ∧ Allows limit k ∧ v.AtDistance link k start b := by
  obtain ⟨found, hfound, hin⟩ : ∃ found, v.reached start link limit = .ok found ∧
      v.Found link limit (v.store.ids.erase start.object.id) [(start, 0)] found :=
    reached_found hstore hlink htarget rfl
  have hfinds : ∀ {limit : Option Nat} {b : Located},
      v.Finds link limit (v.store.ids.erase start.object.id) [(start, 0)] b ↔
        ∃ k, 1 ≤ k ∧ Allows limit k ∧ v.AtDistance link k start b :=
    finds_from_start hstore htarget hstart rfl
  refine ⟨found, hfound, hin.once, ?_, fun b => ?_⟩
  · refine hin.nearest.imp_of_mem fun {a b} _ hb hab j k hj hk => ?_
    -- Within the distance of the later object the earlier one is found too.
    obtain ⟨k', hpos, -, hk'⟩ := hfinds.mp ((hin.mem b).mp hb)
    have hsame : k' = k := hk'.unique hk
    obtain ⟨j', -, hle, hj'⟩ := hfinds.mp (hab k (hfinds.mpr ⟨k, hsame ▸ hpos, by simp [Allows], hk⟩))
    rw [hj.unique hj']
    exact hle k rfl
  · rw [hin.mem, hfinds]
    constructor
    · rintro ⟨k, hpos, hfar, hdistance⟩
      refine ⟨(walk_stores hstore htarget hpos hdistance.1).1, ?_, k, hpos, hfar, hdistance⟩
      rintro rfl
      exact hdistance.2 0 hpos (.here _)
    · rintro ⟨-, -, hreached⟩
      exact hreached

/-- A person who is known by a person she knows, whom she names twice. -/
def ann : StoredObject :=
  ⟨"a", .empty, .ofList [("Knows", ["b", "x", "b", "c"])]⟩

/-- Three persons who know each other in circles. -/
def circle : View :=
  ⟨⟨.ofList [("Person", ⟨.ofList [("Knows", .link "Person")]⟩)]⟩,
    ((Store.empty.insert "Person" ⟨"b", .empty, .ofList [("Knows", ["a", "c"])]⟩).insert
      "Person" ⟨"c", .empty, .ofList [("Knows", ["c", "b"])]⟩).insert "Person" ann⟩

/-- The persons at one or two steps from ann. -/
theorem reached_breadth_first_circle : ∃ found,
    circle.reached ⟨"Person", ann⟩ "Knows" (some 2) = .ok found ∧
    (found.map (·.object.id)).Nodup ∧
    (found.Pairwise fun a b => ∀ j k, circle.AtDistance "Knows" j ⟨"Person", ann⟩ a →
      circle.AtDistance "Knows" k ⟨"Person", ann⟩ b → j ≤ k) ∧
    ∀ b, b ∈ found ↔ circle.Stores b ∧ b ≠ ⟨"Person", ann⟩ ∧
      ∃ k, 1 ≤ k ∧ Allows (some 2) k ∧ circle.AtDistance "Knows" k ⟨"Person", ann⟩ b :=
  reached_breadth_first
    (((Store.keyed_empty.insert _ _).insert _ _).insert _ _) (by decide +kernel)
    (by decide +kernel) (Store.find?_insert_self _ _ ann)

end LinkQuery.View
