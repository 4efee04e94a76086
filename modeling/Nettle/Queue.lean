-- The ring queue of queue.c, the locked queue of conqueue.c around it, and
-- the pool of buffers of pool.c that keeps its free ones in such a queue. An
-- operation on a locked queue is one step for all other threads.
import Nettle.InPlace

open in_place

namespace nettle.queue

/-- At first no entry points to anything. -/
structure queue_t (α : Type) where
  capacity : Nat
  entry_num : Nat
  head : Nat
  tail : Nat
  entries : List (Option α)

variable {α : Type}

def queue_init (capacity : Nat) : queue_t α where
  capacity
  entry_num := capacity + 1
  head := 0
  tail := 0
  entries := List.replicate (capacity + 1) none

def queue_size (queue : queue_t α) : Nat :=
  (queue.entry_num + queue.tail - queue.head) % queue.entry_num

def queue_push (queue : queue_t α) (value : α) : Bool × queue_t α :=
  if queue_size queue ≥ queue.capacity then (false, queue)
  else (true, { queue with
    entries := queue.entries.set queue.tail (some value)
    tail := (queue.tail + 1) % queue.entry_num })

/-- `none` when the queue is empty, else what the entry at the head points to. -/
def queue_pop (queue : queue_t α) : Option (Option α × queue_t α) :=
  if queue_size queue = 0 then none
  else some (queue.entries.getD queue.head none,
    { queue with head := (queue.head + 1) % queue.entry_num })

def queue_begin (queue : queue_t α) : Nat := queue.head

def queue_end (queue : queue_t α) : Nat := queue.tail

/-- `none` when the `ensure` fails. The value is that of the entry at the head, whatever `iter` is. -/
def queue_next (queue : queue_t α) (iter : Nat) : Option (Option α × Nat) :=
  if iter = queue_end queue then none
  else some (queue.entries.getD queue.head none, (iter + 1) % queue.entry_num)

/-! ## First in, first out -/

/-- The entry `k` after the head. -/
def place (queue : queue_t α) (k : Nat) : Nat := (queue.head + k) % queue.entry_num

/-- The values in the queue, the next one to come out first. -/
def queue_values (queue : queue_t α) : List α :=
  (List.range (queue_size queue)).filterMap fun k => queue.entries.getD (place queue k) none

/-- The queue has these values, the next one to come out first. -/
structure Queued (queue : queue_t α) (values : List α) : Prop where
  entry_num : queue.entry_num = queue.capacity + 1
  entries : queue.entries.length = queue.entry_num
  head : queue.head < queue.entry_num
  tail : queue.tail = place queue values.length
  room : values.length ≤ queue.capacity
  stored : ∀ (k : Nat) (v : α), values[k]? = some v →
    queue.entries.getD (place queue k) none = some v

section

variable {queue : queue_t α} {values : List α}

theorem place_eq {k : Nat} (hhead : queue.head < queue.entry_num) (hk : k < queue.entry_num) :
    place queue k = if queue.head + k < queue.entry_num then queue.head + k
      else queue.head + k - queue.entry_num := by
  unfold place
  split
  · next hlt => exact Nat.mod_eq_of_lt hlt
  · next hge =>
    rw [Nat.mod_eq_sub_mod (Nat.not_lt.mp hge)]
    exact Nat.mod_eq_of_lt (by omega)

theorem place_inj {j k : Nat} (hhead : queue.head < queue.entry_num) (hj : j < queue.entry_num)
    (hk : k < queue.entry_num) (h : place queue j = place queue k) : j = k := by
  rw [place_eq hhead hj, place_eq hhead hk] at h
  split at h <;> split at h <;> omega

theorem Queued.size (h : Queued queue values) : queue_size queue = values.length := by
  have hentry_num := h.entry_num
  have hhead := h.head
  have hroom := h.room
  unfold queue_size
  rw [h.tail, place_eq hhead (by omega)]
  split
  · rw [show queue.entry_num + (queue.head + values.length) - queue.head =
      values.length + queue.entry_num by omega, Nat.add_mod_right]
    exact Nat.mod_eq_of_lt (by omega)
  · rw [show queue.entry_num + (queue.head + values.length - queue.entry_num) - queue.head =
      values.length by omega]
    exact Nat.mod_eq_of_lt (by omega)

theorem filterMap_range_getElem? : ∀ values : List α,
    (List.range values.length).filterMap (values[·]?) = values
  | [] => rfl
  | value :: values => by
    rw [List.length_cons, List.range_succ_eq_map, List.filterMap_cons]
    simp only [List.getElem?_cons_zero, List.filterMap_map]
    exact congrArg _ (filterMap_range_getElem? values)

theorem Queued.values_eq (h : Queued queue values) : queue_values queue = values := by
  have hstored : ∀ k ∈ List.range values.length,
      queue.entries.getD (place queue k) none = values[k]? := fun k hk => by
    have hget := List.getElem?_eq_getElem (List.mem_range.mp hk)
    rw [hget, h.stored k _ hget]
  unfold queue_values
  rw [h.size, List.filterMap_congr hstored]
  exact filterMap_range_getElem? values

theorem queued_init (capacity : Nat) : Queued (queue_init capacity : queue_t α) [] :=
  ⟨rfl, List.length_replicate, Nat.zero_lt_succ _, (Nat.zero_mod _).symm, Nat.zero_le _, nofun⟩

theorem push_full (h : Queued queue values) (hfull : values.length = queue.capacity) (value : α) :
    queue_push queue value = (false, queue) :=
  if_pos (h.size.trans hfull).ge

theorem push_room (h : Queued queue values) (hroom : values.length < queue.capacity) (value : α) :
    ∃ queue', queue_push queue value = (true, queue') ∧ Queued queue' (values ++ [value]) ∧
      queue'.capacity = queue.capacity := by
  have hentry_num := h.entry_num
  have htail : queue.tail < queue.entries.length := by
    rw [h.tail, h.entries]
    exact Nat.mod_lt _ (by omega)
  refine ⟨_, if_neg (by rw [h.size]; omega), ⟨hentry_num, List.length_set.trans h.entries, h.head, ?_,
    ?_, fun k v hv => ?_⟩, rfl⟩
  · rw [List.length_append, h.tail]
    unfold place
    rw [Nat.mod_add_mod, Nat.add_assoc]
    rfl
  · rw [List.length_append]
    exact hroom
  · change (queue.entries.set queue.tail (some value)).getD (place queue k) none = some v
    by_cases hk : k < values.length
    · rw [List.getElem?_append_left hk] at hv
      have hne : queue.tail ≠ place queue k := fun heq => by
        rw [h.tail] at heq
        have := place_inj h.head (by omega) (by omega) heq
        omega
      rw [getD_set_ne hne]
      exact h.stored k v hv
    · obtain ⟨hlt, -⟩ := List.getElem?_eq_some_iff.mp hv
      rw [List.length_append, List.length_singleton] at hlt
      obtain rfl : k = values.length := by omega
      obtain rfl : value = v := by simpa using hv
      rw [← h.tail]
      exact getD_set_self htail

theorem pop_empty (h : Queued queue []) : queue_pop queue = none := if_pos h.size

theorem pop_first {value : α} (h : Queued queue (value :: values)) :
    ∃ queue', queue_pop queue = some (some value, queue') ∧ Queued queue' values ∧
      queue'.capacity = queue.capacity := by
  have hentry_num := h.entry_num
  have hhead := h.head
  have hroom := h.room
  rw [List.length_cons] at hroom
  have hfirst := h.stored 0 value rfl
  have hplace : place queue 0 = queue.head := Nat.mod_eq_of_lt hhead
  have hnext : ∀ k, place { queue with head := (queue.head + 1) % queue.entry_num } k =
      place queue (k + 1) := fun k => by
    unfold place
    rw [Nat.mod_add_mod, Nat.add_assoc, Nat.add_comm 1 k]
  refine ⟨{ queue with head := (queue.head + 1) % queue.entry_num }, ?_, ⟨hentry_num, h.entries,
    Nat.mod_lt _ (by omega), ?_, by change values.length ≤ queue.capacity; omega,
    fun k v hv => ?_⟩, rfl⟩
  · unfold queue_pop
    rw [if_neg (by rw [h.size, List.length_cons]; omega), ← hfirst, hplace]
  · rw [hnext]
    exact h.tail
  · rw [hnext]
    exact h.stored (k + 1) v hv

end

/-! ## Pools -/

/-- The free buffers of a pool, which are numbered. -/
abbrev pool_t := queue_t Nat

/-- The loop pushes all buffers; no push fails. -/
def pool_init (capacity : Nat) : pool_t :=
  (List.range capacity).foldl (fun pool i => (queue_push pool i).2) (queue_init capacity)

def pool_new (pool : pool_t) : Option (Option Nat × pool_t) := queue_pop pool

/-- `none` when the `ensure` fails. -/
def pool_free (pool : pool_t) (buffer : Nat) : Option pool_t :=
  match queue_push pool buffer with
  | (true, pool) => some pool
  | (false, _) => none

theorem pool_init_spec (capacity : Nat) :
    Queued (pool_init capacity) (List.range capacity) ∧ (pool_init capacity).capacity = capacity := by
  have hloop : ∀ n ≤ capacity, ∃ pool,
      (List.range n).foldl (fun pool i => (queue_push pool i).2) (queue_init capacity) = pool ∧
        Queued pool (List.range n) ∧ pool.capacity = capacity := by
    intro n
    induction n with
    | zero => exact fun _ => ⟨_, rfl, queued_init capacity, rfl⟩
    | succ n ih =>
      intro hn
      obtain ⟨pool, hpool, hqueued, hcapacity⟩ := ih (Nat.le_of_succ_le hn)
      obtain ⟨pool', hpush, hqueued', hcapacity'⟩ := push_room hqueued
        (by rw [List.length_range]; omega) n
      refine ⟨pool', ?_, by rwa [List.range_succ], hcapacity'.trans hcapacity⟩
      rw [List.range_succ, List.foldl_append, hpool, List.foldl_cons, List.foldl_nil, hpush]
  obtain ⟨pool, hpool, hqueued, hcapacity⟩ := hloop capacity le_rfl
  unfold pool_init
  rw [hpool]
  exact ⟨hqueued, hcapacity⟩

theorem pool_free_spec {pool : pool_t} {free : List Nat} (h : Queued pool free)
    (hroom : free.length < pool.capacity) (buffer : Nat) : ∃ pool',
      pool_free pool buffer = some pool' ∧ Queued pool' (free ++ [buffer]) ∧
        pool'.capacity = pool.capacity := by
  obtain ⟨pool', hpush, hqueued, hcapacity⟩ := push_room h hroom buffer
  refine ⟨pool', ?_, hqueued, hcapacity⟩
  unfold pool_free
  rw [hpush]

end nettle.queue
