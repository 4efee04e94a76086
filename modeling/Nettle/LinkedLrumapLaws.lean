-- The LRU map with pointers is a list of bindings in the order of their last
-- use: its table knows where each key is, its queue in which order they stand,
-- and its pool what is left.
import Nettle.HashmapRuns
import Nettle.LinkedLrumap
import Nettle.RecencyList

open in_place nettle.hashmap nettle.list

namespace nettle.linked

variable {κ β : Type}

/-! ## The two lists -/

/-- The pool has the entries `free`, the queue the entries `used`, and none is in both. -/
structure Lists (heap : links lrumap_cell) (free used : List Nat) : Prop where
  pool : Chained heap pool (free.map .entry)
  queue : Chained heap queue (used.map .entry)
  nodup : (free ++ used).Nodup

section

variable {heap : links lrumap_cell} {free used : List Nat} {e : Nat}

theorem entry_mem_map {is : List Nat} : lrumap_cell.entry e ∈ is.map lrumap_cell.entry ↔ e ∈ is :=
  List.mem_map_of_injective (fun _ _ => lrumap_cell.entry.inj)

theorem entry_not_mem_pool (h : e ∉ free) :
    lrumap_cell.entry e ∉ whole pool (free.map lrumap_cell.entry) := by
  simp [whole, pool, entry_mem_map, h]

theorem entry_not_mem_queue (h : e ∉ used) :
    lrumap_cell.entry e ∉ whole queue (used.map lrumap_cell.entry) := by
  simp [whole, queue, entry_mem_map, h]

theorem pool_apart (h : ∀ i ∈ free, i ∉ used) :
    ∀ p ∈ whole pool (free.map lrumap_cell.entry), p ∉ whole queue (used.map lrumap_cell.entry) := by
  intro p hp
  simp only [whole, pool, List.mem_cons, List.mem_append, List.mem_map, List.not_mem_nil,
    or_false] at hp
  obtain rfl | ⟨i, hi, rfl⟩ | rfl := hp
  · simp [whole, queue]
  · exact entry_not_mem_queue (h i hi)
  · simp [whole, queue]

theorem queue_apart (h : ∀ i ∈ free, i ∉ used) :
    ∀ p ∈ whole queue (used.map lrumap_cell.entry), p ∉ whole pool (free.map lrumap_cell.entry) :=
  fun p hp hp' => pool_apart h p hp' hp

theorem Lists.apart (h : Lists heap free used) : ∀ i ∈ free, i ∉ used := fun i hi hi' =>
  (List.nodup_append.mp h.nodup).2.2 i hi i hi' rfl

/-- The last free entry is taken out of the pool. -/
theorem take_free (h : Lists heap (free ++ [e]) used) : ∃ heap',
    list_pop_back heap pool = some (.entry e, heap') ∧ Lists heap' free used := by
  have hpool := h.pool
  rw [List.map_append, List.map_cons, List.map_nil] at hpool
  obtain ⟨heap', hpop, hchained, hapart⟩ := list_pop_back_spec hpool
  have hnodup := h.nodup
  rw [List.append_assoc] at hnodup
  refine ⟨heap', hpop, hchained, h.queue.frame hapart fun p hp => ?_,
    hnodup.sublist (List.sublist_append_right [e] used |>.append_left free)⟩
  have hnot := queue_apart h.apart p hp
  rwa [List.map_append, List.map_cons, List.map_nil] at hnot

theorem drop_used {newer older : List Nat} (h : Lists heap free (newer ++ e :: older)) : ∃ heap',
    list_remove heap (.entry e) = some heap' ∧ Lists heap' free (newer ++ older) := by
  have hqueue := h.queue
  rw [List.map_append, List.map_cons] at hqueue
  obtain ⟨heap', hremove, hchained, hapart⟩ := list_remove_spec hqueue
  refine ⟨heap', hremove, h.pool.frame hapart fun p hp => ?_, by rwa [List.map_append],
    h.nodup.sublist ?_⟩
  · have hnot := pool_apart h.apart p hp
    rwa [List.map_append, List.map_cons] at hnot
  · exact (List.sublist_cons_self e older |>.append_left newer).append_left free

theorem add_newest (h : Lists heap free used) (he : e ∉ free ++ used) : ∃ heap',
    list_push_front heap queue (.entry e) = some heap' ∧ Lists heap' free (e :: used) := by
  rw [List.mem_append, not_or] at he
  obtain ⟨heap', hpush, hchained, hapart⟩ := list_push_front_spec h.queue (entry_not_mem_queue he.2)
  refine ⟨heap', hpush, h.pool.frame hapart fun p hp hmem => ?_, hchained, ?_⟩
  · rcases List.mem_cons.mp hmem with rfl | hmem
    · exact entry_not_mem_pool he.1 hp
    · exact pool_apart h.apart p hp hmem
  · exact (List.perm_middle (a := e)).nodup_iff.mpr
      (List.nodup_cons.mpr ⟨by simpa using he, h.nodup⟩)

theorem add_eldest (h : Lists heap free used) (he : e ∉ free ++ used) : ∃ heap',
    list_push_back heap queue (.entry e) = some heap' ∧ Lists heap' free (used ++ [e]) := by
  rw [List.mem_append, not_or] at he
  obtain ⟨heap', hpush, hchained, hapart⟩ := list_push_back_spec h.queue (entry_not_mem_queue he.2)
  refine ⟨heap', hpush, h.pool.frame hapart fun p hp hmem => ?_, by rwa [List.map_append], ?_⟩
  · rcases List.mem_cons.mp hmem with rfl | hmem
    · exact entry_not_mem_pool he.1 hp
    · exact pool_apart h.apart p hp hmem
  · rw [← List.append_assoc]
    exact (List.perm_append_singleton e _).nodup_iff.mpr
      (List.nodup_cons.mpr ⟨by simpa using he, h.nodup⟩)

theorem add_free (h : Lists heap free used) (he : e ∉ free ++ used) : ∃ heap',
    list_push_front heap pool (.entry e) = some heap' ∧ Lists heap' (e :: free) used := by
  rw [List.mem_append, not_or] at he
  obtain ⟨heap', hpush, hchained, hapart⟩ := list_push_front_spec h.pool (entry_not_mem_pool he.1)
  refine ⟨heap', hpush, hchained, h.queue.frame hapart fun p hp hmem => ?_,
    List.nodup_cons.mpr ⟨by simpa using he, h.nodup⟩⟩
  rcases List.mem_cons.mp hmem with rfl | hmem
  · exact entry_not_mem_queue he.2 hp
  · exact queue_apart h.apart p hp hmem

end

/-! ## The invariant -/

section

variable {equal : κ → κ → Bool}

/-- The used entries with their bindings, the newest first, and the free ones. -/
structure Holds (map : lrumap_t κ β) (index : FiniteMap κ Nat equal) (free : List Nat)
    (used : List (Nat × κ × β)) : Prop where
  table : Stands map.map index
  index : index.bindings.Perm (used.map fun u => (u.2.1, u.1))
  lists : Lists map.heap free (used.map Prod.fst)
  split : (free ++ used.map Prod.fst).Perm (List.range map.capacity)
  entries : map.entries.length = map.capacity
  bound : ∀ u ∈ used, map.entries.getD u.1 none = some u.2

/-- The map keeps these bindings, the newest first. -/
def Keeps (map : lrumap_t κ β) (equal : κ → κ → Bool) (capacity : Nat) (bs : List (κ × β)) : Prop :=
  map.capacity = capacity ∧ ∃ (index : FiniteMap κ Nat equal) (free : List Nat)
    (used : List (Nat × κ × β)), Holds map index free used ∧ used.map Prod.snd = bs

variable {map : lrumap_t κ β} {index : FiniteMap κ Nat equal} {free : List Nat}
  {used : List (Nat × κ × β)} {key : κ}

theorem Holds.size (h : Holds map index free used) : map.map.size = used.length := by
  rw [h.table.size, finite_map.size, h.index.length_eq, List.length_map]

theorem Holds.length (h : Holds map index free used) : free.length + used.length = map.capacity := by
  have := h.split.length_eq
  rwa [List.length_append, List.length_range, List.length_map] at this

theorem Holds.lrumap_size (h : Holds map index free used) : lrumap_size map = some used.length := by
  have := h.length
  rw [nettle.linked.lrumap_size, h.size, if_pos (by omega)]

/-- A key without a binding is not in the table. -/
theorem Holds.absent (h : Holds map index free used)
    (hfind : recency.find equal (used.map Prod.snd) key = none) : finite_map.find index key = none := by
  refine finite_map.find_eq_none.mpr fun b hb => ?_
  obtain ⟨u, hu, rfl⟩ := List.mem_map.mp (h.index.mem_iff.mp hb)
  exact recency.find_eq_none.mp hfind u.2 (List.mem_map_of_mem hu)

/-- The table leads from the key of a binding to its entry. -/
theorem Holds.present (h : Holds map index free used) {b : κ × β}
    (hfind : recency.find equal (used.map Prod.snd) key = some b) : ∃ newer u older,
    used = newer ++ u :: older ∧ u.2 = b ∧ finite_map.find index key = some (b.1, u.1) ∧
      recency.without equal (used.map Prod.snd) key = (newer ++ older).map Prod.snd := by
  obtain ⟨newer, older, hsplit, hequal, hwithout⟩ := recency.find_split hfind
  obtain ⟨newer', rest, rfl, rfl, hrest⟩ := List.map_eq_append_iff.mp hsplit
  obtain ⟨u, older', rfl, rfl, rfl⟩ := List.map_eq_cons_iff.mp hrest
  refine ⟨newer', u, older', rfl, rfl, ?_, by rw [hwithout, List.map_append]⟩
  exact finite_map.find_of_mem h.table.equivalence
    (h.index.mem_iff.mpr (List.mem_map_of_mem (by simp))) hequal

theorem Holds.fst_lt (h : Holds map index free used) {e : Nat} (he : e ∈ free ++ used.map Prod.fst) :
    e < map.entries.length := by
  rw [h.entries, ← List.mem_range, ← h.split.mem_iff]
  exact he

/-! ## The operations -/

variable {capacity : Nat} {bs : List (κ × β)}

theorem put_keeps (h : Keeps map equal capacity bs) (hnew : recency.find equal bs key = none)
    (value : β) : ∃ map', lrumap_put map key value = some ((recency.put capacity bs key value).1, map') ∧
      Keeps map' equal capacity (recency.put capacity bs key value).2 := by
  obtain ⟨rfl, index, free, used, hold, rfl⟩ := h
  have hsize := hold.lrumap_size
  have hlen := hold.length
  unfold lrumap_put recency.put
  rw [List.length_map]
  by_cases hfull : used.length = map.capacity
  · rw [if_pos hfull]
    simp only [hsize, hfull, if_true, Option.bind_eq_bind, Option.bind_some]
    exact ⟨map, rfl, rfl, index, free, used, hold, rfl⟩
  · rw [if_neg hfull]
    obtain ⟨free, e, rfl⟩ : ∃ free' e, free = free' ++ [e] := by
      rcases List.eq_nil_or_concat free with rfl | ⟨free', e, hconcat⟩
      · rw [List.length_nil] at hlen
        omega
      · exact ⟨free', e, by simpa only [List.concat_eq_append] using hconcat⟩
    have hnodup := hold.lists.nodup
    have hlt : e < map.entries.length := hold.fst_lt (by simp)
    have hperm : (free ++ [e] ++ used.map Prod.fst).Perm (e :: (free ++ used.map Prod.fst)) := by
      rw [List.append_assoc]
      exact List.perm_middle
    have hnot : e ∉ free ++ used.map Prod.fst :=
      (List.nodup_cons.mp (hperm.nodup_iff.mp hnodup)).1
    obtain ⟨heap₁, hpop, hlists₁⟩ := take_free hold.lists
    obtain ⟨heap₂, hpush, hlists₂⟩ := add_newest hlists₁ hnot
    have habsent := hold.absent hnew
    obtain ⟨table, hput, hstands⟩ := hold.table.put_if_absent key e 0
    rw [finite_map.put_if_absent_absent habsent] at hput hstands
    refine ⟨{ map with
        map := table
        heap := heap₂
        entries := map.entries.set e (some (key, value)) }, ?_, rfl,
      finite_map.add index key e habsent, free, (e, key, value) :: used,
      ⟨hstands, hold.index.cons _, hlists₂, ?_, List.length_set.trans hold.entries, ?_⟩, rfl⟩
    · simp only [hsize, hfull, if_false, hpop, lrumap_entry_from_super, hput, hpush, if_true,
        Option.bind_eq_bind, Option.bind_some]
      rfl
    · exact (List.perm_middle.trans hperm.symm).trans hold.split
    · intro u hu
      rcases List.mem_cons.mp hu with rfl | hu
      · exact getD_set_self hlt
      · have hne : e ≠ u.1 := fun heq => hnot
          (List.mem_append_right _ (heq ▸ List.mem_map_of_mem hu))
        rw [getD_set_ne hne, hold.bound u hu]

/-- An entry that moves in the queue is taken out and linked in again. -/
theorem Holds.moved {newer older used' : List (Nat × κ × β)} {u : Nat × κ × β}
    (h : Holds map index free (newer ++ u :: older)) {heap : links lrumap_cell}
    (hperm : used'.Perm (u :: (newer ++ older))) (hlists : Lists heap free (used'.map Prod.fst)) :
    Holds { map with heap } index free used' := by
  have hmiddle : used'.Perm (newer ++ u :: older) := hperm.trans List.perm_middle.symm
  exact ⟨h.table, h.index.trans (hmiddle.symm.map _), hlists,
    ((hmiddle.map _).append_left free).trans h.split, h.entries,
    fun u' hu' => h.bound u' (hmiddle.mem_iff.mp hu')⟩

theorem Holds.dropped {newer older : List (Nat × κ × β)} {u : Nat × κ × β}
    (h : Holds map index free (newer ++ u :: older)) :
    (∃ heap, list_remove map.heap (.entry u.1) = some heap ∧
      Lists heap free ((newer ++ older).map Prod.fst)) ∧
    u.1 ∉ free ++ (newer ++ older).map Prod.fst := by
  have hlists := h.lists
  rw [List.map_append, List.map_cons] at hlists
  obtain ⟨heap, hremove, hlists'⟩ := drop_used hlists
  refine ⟨⟨heap, hremove, by rwa [List.map_append]⟩, ?_⟩
  have hperm : (free ++ (newer.map Prod.fst ++ u.1 :: older.map Prod.fst)).Perm
      (u.1 :: (free ++ (newer ++ older).map Prod.fst)) := by
    rw [List.map_append]
    exact (List.perm_middle.append_left free).trans List.perm_middle
  exact (List.nodup_cons.mp (hperm.nodup_iff.mp hlists.nodup)).1

theorem get_keeps (h : Keeps map equal capacity bs) (key : κ) :
    ∃ map', lrumap_get map key = some ((recency.get equal bs key).1, map') ∧
      Keeps map' equal capacity (recency.get equal bs key).2 := by
  obtain ⟨rfl, index, free, used, hold, rfl⟩ := h
  unfold lrumap_get recency.get
  rw [hold.table.get]
  cases hfind : recency.find equal (used.map Prod.snd) key with
  | none =>
    rw [hold.absent hfind]
    exact ⟨map, rfl, rfl, index, free, used, hold, rfl⟩
  | some b =>
    obtain ⟨newer, u, older, rfl, rfl, hindex, hwithout⟩ := hold.present hfind
    obtain ⟨⟨heap₁, hremove, hlists₁⟩, hnot⟩ := hold.dropped
    obtain ⟨heap₂, hpush, hlists₂⟩ := add_newest hlists₁ hnot
    refine ⟨{ map with heap := heap₂ }, ?_, rfl, index, free, u :: (newer ++ older),
      hold.moved (List.Perm.refl _) hlists₂, by rw [hwithout]; rfl⟩
    simp only [hindex, hremove, hpush, hold.bound u (by simp), Option.bind_eq_bind, Option.bind_some]
    rfl

theorem make_eldest_keeps (h : Keeps map equal capacity bs) (key : κ) :
    ∃ map', lrumap_make_eldest map key = some ((recency.make_eldest equal bs key).1, map') ∧
      Keeps map' equal capacity (recency.make_eldest equal bs key).2 := by
  obtain ⟨rfl, index, free, used, hold, rfl⟩ := h
  unfold lrumap_make_eldest recency.make_eldest
  rw [hold.table.get]
  cases hfind : recency.find equal (used.map Prod.snd) key with
  | none =>
    rw [hold.absent hfind]
    exact ⟨map, rfl, rfl, index, free, used, hold, rfl⟩
  | some b =>
    obtain ⟨newer, u, older, rfl, rfl, hindex, hwithout⟩ := hold.present hfind
    obtain ⟨⟨heap₁, hremove, hlists₁⟩, hnot⟩ := hold.dropped
    obtain ⟨heap₂, hpush, hlists₂⟩ := add_eldest hlists₁ hnot
    refine ⟨{ map with heap := heap₂ }, ?_, rfl, index, free, newer ++ older ++ [u],
      hold.moved (List.perm_append_singleton u _) (by rwa [List.map_append]),
      by rw [hwithout, List.map_append]; rfl⟩
    simp only [hindex, hremove, hpush, Option.bind_eq_bind, Option.bind_some]
    rfl

theorem remove_keeps (h : Keeps map equal capacity bs) (key : κ) :
    ∃ map', lrumap_remove map key = some ((recency.remove equal bs key).1, map') ∧
      Keeps map' equal capacity (recency.remove equal bs key).2 := by
  obtain ⟨rfl, index, free, used, hold, rfl⟩ := h
  unfold lrumap_remove recency.remove
  obtain ⟨table, hremove, hstands⟩ := hold.table.remove key
  rw [hremove]
  cases hfind : recency.find equal (used.map Prod.snd) key with
  | none =>
    rw [finite_map.remove_absent (hold.absent hfind)] at hstands ⊢
    exact ⟨{ map with map := table }, rfl, rfl, index, free, used,
      ⟨hstands, hold.index, hold.lists, hold.split, hold.entries, hold.bound⟩, rfl⟩
  | some b =>
    obtain ⟨newer, u, older, rfl, rfl, hindex, hwithout⟩ := hold.present hfind
    obtain ⟨hremoved, hperm⟩ := finite_map.remove_present hindex
    obtain ⟨⟨heap₁, hdrop, hlists₁⟩, hnot⟩ := hold.dropped
    obtain ⟨heap₂, hpush, hlists₂⟩ := add_free hlists₁ hnot
    have hmiddle : (newer ++ u :: older).Perm (u :: (newer ++ older)) := List.perm_middle
    refine ⟨{ map with map := table, heap := heap₂ }, ?_, rfl, _, u.1 :: free, newer ++ older,
      ⟨hstands, ?_, hlists₂, ?_, hold.entries, fun u' hu' => ?_⟩, hwithout.symm⟩
    · simp only [hremoved, hdrop, hpush, Option.bind_eq_bind, Option.bind_some]
      rfl
    · exact (hperm.symm.trans (hold.index.trans (hmiddle.map _))).cons_inv
    · exact (List.perm_middle.symm.trans ((hmiddle.map Prod.fst).symm.append_left free)).trans hold.split
    · exact hold.bound u' (hmiddle.mem_iff.mpr (List.mem_cons_of_mem u hu'))

theorem peek_keeps (h : Keeps map equal capacity bs) : lrumap_peek map = some (recency.peek bs) := by
  obtain ⟨rfl, index, free, used, hold, rfl⟩ := h
  unfold lrumap_peek recency.peek
  rcases List.eq_nil_or_concat used with rfl | ⟨newer, u, rfl⟩
  · simp only [hold.lrumap_size, List.length_nil, if_true, Option.bind_eq_bind, Option.bind_some]
    rfl
  · have hqueue := hold.lists.queue
    simp only [List.concat_eq_append, List.map_append, List.map_cons, List.map_nil] at hqueue
    simp only [hold.lrumap_size, List.length_concat, Nat.add_one_ne_zero, if_false,
      list_peek_back_spec hqueue, lrumap_entry_from_super, hold.bound u (by simp),
      Option.bind_eq_bind, Option.bind_some]
    simp

end

/-! ## Iteration -/

section

variable {equal : κ → κ → Bool} {map : lrumap_t κ β} {index : FiniteMap κ Nat equal}
  {free : List Nat}

/-- A cell points back to the newer one, the newest to the head. -/
theorem prev_of_cell {heap : links lrumap_cell} {before after : List lrumap_cell}
    {cell : lrumap_cell} (h : Chained heap queue (before ++ cell :: after)) :
    heap.prev cell = (queue.head :: before).getLast? := by
  have hwhole : whole queue (before ++ cell :: after) =
      (queue.head :: before) ++ cell :: (after ++ [queue.tail]) := by simp [whole]
  have hsegment := h.segment
  rw [hwhole] at hsegment
  exact hsegment.neighbours.1.trans (if_neg (List.cons_ne_nil _ _))

theorem iterate_back {newer older : List (Nat × κ × β)} (h : Holds map index free (newer ++ older))
    {fuel : Nat} (hfuel : newer.length ≤ fuel) :
    lrumap_iterate map fuel
        (queue.head :: newer.map fun u => lrumap_cell.entry u.1).getLast? =
      some (newer.map Prod.snd).reverse := by
  induction newer using List.reverseRecOn generalizing older fuel with
  | nil =>
    unfold lrumap_iterate
    exact if_pos rfl
  | append_singleton newer u ih =>
    rw [List.append_assoc] at h
    obtain ⟨fuel, rfl⟩ : ∃ n, fuel = n + 1 := Nat.exists_eq_add_one.mpr (by simp at hfuel; omega)
    have hlast : (queue.head :: (newer ++ [u]).map fun u => lrumap_cell.entry u.1).getLast? =
        some (.entry u.1) := by
      rw [List.map_append, ← List.cons_append]
      exact List.getLast?_concat ..
    have hback : map.heap.prev (.entry u.1) =
        (queue.head :: newer.map fun u => lrumap_cell.entry u.1).getLast? := by
      have hqueue := h.lists.queue
      rw [List.map_map, List.map_append] at hqueue
      exact prev_of_cell hqueue
    have hrest := ih h (by simpa using hfuel)
    rw [hlast]
    unfold lrumap_iterate
    rw [if_neg (by simp [lrumap_end, queue])]
    simp only [lrumap_next, lrumap_entry_from_super, h.bound u (by simp), hback, hrest,
      Option.bind_eq_bind, Option.bind_some, Option.pure_def, List.map_append, List.reverse_append]
    rfl

end

/-! ## Calls, on the map and on the list -/

inductive lru_operation (κ β : Type) where
  | put (key : κ) (value : β)
  | get (key : κ)
  | remove (key : κ)
  | peek
  | make_eldest (key : κ)

/-- What a call gives back. -/
inductive lru_outcome (κ β : Type) where
  | done (success : Bool)
  | found (key_value : Option (κ × β))
deriving DecidableEq

def lrumap_call (map : lrumap_t κ β) :
    lru_operation κ β → Option (lru_outcome κ β × lrumap_t κ β)
  | .put key value => do
    let (success, map) ← lrumap_put map key value
    return (.done success, map)
  | .get key => do
    let (key_value, map) ← lrumap_get map key
    return (.found key_value, map)
  | .remove key => do
    let (success, map) ← lrumap_remove map key
    return (.done success, map)
  | .peek => do
    let key_value ← lrumap_peek map
    return (.found key_value, map)
  | .make_eldest key => do
    let (success, map) ← lrumap_make_eldest map key
    return (.done success, map)

def lrumap_run : List (lru_operation κ β) → lrumap_t κ β →
    Option (List (lru_outcome κ β) × lrumap_t κ β)
  | [], map => some ([], map)
  | call :: calls, map => do
    let (outcome, map) ← lrumap_call map call
    let (outcomes, map) ← lrumap_run calls map
    return (outcome :: outcomes, map)

section

variable (equal : κ → κ → Bool) (capacity : Nat)

def recency_call (bs : List (κ × β)) : lru_operation κ β → lru_outcome κ β × List (κ × β)
  | .put key value =>
    (.done (recency.put capacity bs key value).1, (recency.put capacity bs key value).2)
  | .get key => (.found (recency.get equal bs key).1, (recency.get equal bs key).2)
  | .remove key => (.done (recency.remove equal bs key).1, (recency.remove equal bs key).2)
  | .peek => (.found (recency.peek bs), bs)
  | .make_eldest key =>
    (.done (recency.make_eldest equal bs key).1, (recency.make_eldest equal bs key).2)

def recency_run : List (lru_operation κ β) → List (κ × β) →
    List (lru_outcome κ β) × List (κ × β)
  | [], bs => ([], bs)
  | call :: calls, bs =>
    let (outcome, bs) := recency_call equal capacity bs call
    let (outcomes, bs) := recency_run calls bs
    (outcome :: outcomes, bs)

/-- A key is put only when it is not there. -/
def puts_new (bs : List (κ × β)) : lru_operation κ β → Bool
  | .put key _ => (recency.find equal bs key).isNone
  | _ => true

def all_put_new : List (lru_operation κ β) → List (κ × β) → Bool
  | [], _ => true
  | call :: calls, bs =>
    puts_new equal bs call && all_put_new calls (recency_call equal capacity bs call).2

end

section

variable {equal : κ → κ → Bool} {map : lrumap_t κ β} {capacity : Nat} {bs : List (κ × β)}

theorem lrumap_call_keeps (h : Keeps map equal capacity bs) {call : lru_operation κ β}
    (hnew : puts_new equal bs call = true) : ∃ map',
      lrumap_call map call = some ((recency_call equal capacity bs call).1, map') ∧
      Keeps map' equal capacity (recency_call equal capacity bs call).2 := by
  cases call with
  | put key value =>
    obtain ⟨map', hput, hkeeps⟩ := put_keeps h (Option.isNone_iff_eq_none.mp hnew) value
    refine ⟨map', ?_, hkeeps⟩
    unfold lrumap_call
    simp only [hput, Option.bind_eq_bind, Option.bind_some]
    rfl
  | get key =>
    obtain ⟨map', hget, hkeeps⟩ := get_keeps h key
    refine ⟨map', ?_, hkeeps⟩
    unfold lrumap_call
    simp only [hget, Option.bind_eq_bind, Option.bind_some]
    rfl
  | remove key =>
    obtain ⟨map', hremove, hkeeps⟩ := remove_keeps h key
    refine ⟨map', ?_, hkeeps⟩
    unfold lrumap_call
    simp only [hremove, Option.bind_eq_bind, Option.bind_some]
    rfl
  | peek =>
    refine ⟨map, ?_, h⟩
    unfold lrumap_call
    simp only [peek_keeps h, Option.bind_eq_bind, Option.bind_some]
    rfl
  | make_eldest key =>
    obtain ⟨map', hmake, hkeeps⟩ := make_eldest_keeps h key
    refine ⟨map', ?_, hkeeps⟩
    unfold lrumap_call
    simp only [hmake, Option.bind_eq_bind, Option.bind_some]
    rfl

theorem lrumap_run_keeps (h : Keeps map equal capacity bs) {calls : List (lru_operation κ β)}
    (hnew : all_put_new equal capacity calls bs = true) : ∃ map',
      lrumap_run calls map = some ((recency_run equal capacity calls bs).1, map') ∧
      Keeps map' equal capacity (recency_run equal capacity calls bs).2 := by
  induction calls generalizing map bs with
  | nil => exact ⟨map, rfl, h⟩
  | cons call calls ih =>
    obtain ⟨hcall, hcalls⟩ := Bool.and_eq_true_iff.mp hnew
    obtain ⟨map₁, hstep, hkeeps⟩ := lrumap_call_keeps h hcall
    obtain ⟨map', hrun, hkeeps'⟩ := ih hkeeps hcalls
    refine ⟨map', ?_, hkeeps'⟩
    unfold lrumap_run
    simp only [hstep, hrun, Option.bind_eq_bind, Option.bind_some]
    rfl

/-- What is seen of a map: its size, its bindings in a loop over it, the eldest first, and its
entries, each in one of the two lists. -/
structure LruShows (map : lrumap_t κ β) (equal : κ → κ → Bool) (capacity : Nat)
    (bs : List (κ × β)) : Prop where
  size : lrumap_size map = some bs.length
  room : bs.length ≤ capacity
  apart : bs.Pairwise fun b b' => ¬equal b.1 b'.1
  visits : lrumap_iterate map bs.length (lrumap_begin map) = some bs.reverse
  split : ∃ free used : List Nat, Chained map.heap pool (free.map .entry) ∧
    Chained map.heap queue (used.map .entry) ∧ (free ++ used).Perm (List.range capacity)

theorem Keeps.shows (h : Keeps map equal capacity bs) : LruShows map equal capacity bs := by
  obtain ⟨rfl, index, free, used, hold, rfl⟩ := h
  have hlen := hold.length
  constructor
  case size => rw [hold.lrumap_size, List.length_map]
  case room =>
    rw [List.length_map]
    omega
  case apart =>
    have hpairwise := (hold.index.pairwise_iff fun {b b'} hne hequal =>
      hne (hold.table.equivalence.symm hequal)).mp index.apart
    rw [List.pairwise_map] at hpairwise ⊢
    exact hpairwise
  case visits =>
    have hback := iterate_back (by rwa [List.append_nil])
      (List.length_map (f := Prod.snd)).ge
    have hbegin : lrumap_begin map =
        (queue.head :: used.map fun u => lrumap_cell.entry u.1).getLast? := by
      have hqueue := hold.lists.queue
      rw [List.map_map] at hqueue
      exact hqueue.prev_tail
    rw [hbegin]
    exact hback
  case split => exact ⟨free, _, hold.lists.pool, hold.lists.queue, hold.split⟩

end

/-! ## From the first call on -/

/-- At first all entries are in the pool. -/
theorem init_lists (n : Nat) : ∃ heap,
    (List.range n).foldlM (fun heap i => list_push_front heap pool (.entry i))
      (list_init (list_init ⟨fun _ => none, fun _ => none⟩ pool) queue) = some heap ∧
    Lists heap (List.range n).reverse [] := by
  induction n with
  | zero =>
    have hpool : Chained (list_init ⟨fun _ => none, fun _ => none⟩ pool) pool [] :=
      chained_init (by simp [pool])
    have hnone : ∀ i ∈ ([] : List Nat), i ∉ ([] : List Nat) := nofun
    exact ⟨_, rfl, hpool.frame apart_init (pool_apart hnone), chained_init (by simp [queue]),
      List.nodup_nil⟩
  | succ n ih =>
    obtain ⟨heap, hfold, hlists⟩ := ih
    obtain ⟨heap', hpush, hlists'⟩ := add_free hlists (e := n) (by simp)
    refine ⟨heap', ?_, by rwa [List.range_succ, List.reverse_append]⟩
    rw [List.range_succ, List.foldlM_append, hfold]
    simp only [List.foldlM_cons, List.foldlM_nil, hpush, Option.bind_eq_bind, Option.bind_some]
    rfl

theorem lrumap_init1_keeps {hash_func : κ → Nat} {equal_func : κ → κ → Bool}
    (hlawful : Lawful hash_func equal_func) {capacity : Nat} (hcap : 2 ≤ capacity) :
    ∃ map : lrumap_t κ β, lrumap_init1 capacity hash_func equal_func = some map ∧
      Keeps map equal_func capacity [] := by
  obtain ⟨table, hinit, hstands⟩ := init1_stands (β := Nat) hlawful hcap
  obtain ⟨heap, hheap, hlists⟩ := init_lists capacity
  refine ⟨{ map := table, heap, capacity, entries := List.replicate capacity none }, ?_, rfl,
    finite_map.empty, _, [], ⟨hstands, List.Perm.refl _, hlists, ?_, List.length_replicate, nofun⟩,
    rfl⟩
  · unfold hashmap_init1 at hinit
    unfold lrumap_init1 lrumap_init
    simp only [hinit, hheap, Option.bind_eq_bind, Option.bind_some]
    rfl
  · simp

/-- Over any calls that put new keys only. -/
theorem lrumap_is_a_recency_list {hash_func : κ → Nat} {equal_func : κ → κ → Bool}
    (hlawful : Lawful hash_func equal_func) {capacity : Nat} (hcap : 2 ≤ capacity)
    (calls : List (lru_operation κ β)) (hnew : all_put_new equal_func capacity calls [] = true) :
    ∃ map map', lrumap_init1 capacity hash_func equal_func = some map ∧
      lrumap_run calls map = some ((recency_run equal_func capacity calls []).1, map') ∧
      LruShows map' equal_func capacity (recency_run equal_func capacity calls []).2 := by
  obtain ⟨map, hinit, hkeeps⟩ := lrumap_init1_keeps (β := β) hlawful hcap
  obtain ⟨map', hrun, hkeeps'⟩ := lrumap_run_keeps hkeeps hnew
  exact ⟨map, map', hinit, hrun, hkeeps'.shows⟩

/-- Three keys, one too many, and the eldest found again. -/
theorem lrumap_is_a_recency_list_two : ∃ map map',
    lrumap_init1 2 naive_hash_func naive_equal_func = some map ∧
      lrumap_run [.put 1 10, .put 2 20, .put 3 30, .get 1, .peek, .make_eldest 1] map =
        some ([.done true, .done true, .done false, .found (some (1, 10)),
          .found (some (2, 20)), .done true], map') ∧
      LruShows map' naive_equal_func 2 [(2, 20), (1, 10)] :=
  lrumap_is_a_recency_list lawful_naive (le_refl 2)
    [.put 1 10, .put 2 20, .put 3 30, .get 1, .peek, .make_eldest 1] (by decide)

end nettle.linked
