-- The laws of the ring queue (queue.c): it is a bounded queue, whatever calls are made, and
-- an iteration over it ends. The iteration gives the first value each time.
import Nettle.BoundedQueue
import Nettle.Queue

open bounded_queue

namespace nettle.queue

variable {α : Type}

/-! ## Calls -/

/-- `none` when an entry that points to nothing is handed out. -/
def queue_call (queue : queue_t α) : Op α → Option (Answer α × queue_t α)
  | .push value =>
    let (accepted, queue) := queue_push queue value
    some (.pushed accepted, queue)
  | .pop =>
    match queue_pop queue with
    | none => some (.popped none, queue)
    | some (none, _) => none
    | some (some value, queue) => some (.popped (some value), queue)

def queue_run (queue : queue_t α) : List (Op α) → Option (List (Answer α) × queue_t α)
  | [] => some ([], queue)
  | op :: ops => do
    let (answer, queue) ← queue_call queue op
    let (answers, queue) ← queue_run queue ops
    return (answer :: answers, queue)

/-- The slots of the values that are stored are what they were. -/
def Undisturbed (queue queue' : queue_t α) : Prop :=
  ∀ k < queue_size queue, queue'.entries[place queue k]? = queue.entries[place queue k]?

/-- In `size_t` arithmetic no sum is too large and no difference is below zero. -/
structure NoWrap (queue : queue_t α) : Prop where
  sum : queue.entry_num + queue.tail < 2 ^ 64
  difference : queue.head ≤ queue.entry_num + queue.tail
  forward_tail : queue.tail + 1 < 2 ^ 64
  forward_head : queue.head + 1 < 2 ^ 64

section

variable {queue : queue_t α} {values : List α}

theorem Queued.tail_lt (h : Queued queue values) : queue.tail < queue.entry_num := by
  rw [h.tail]
  exact Nat.mod_lt _ (by have := h.entry_num; omega)

theorem Queued.no_wrap (h : Queued queue values) (hfits : 8 * (queue.capacity + 1) ≤ 2 ^ 64) :
    NoWrap queue := by
  have hentry_num := h.entry_num
  have hhead := h.head
  have htail := h.tail_lt
  constructor <;> omega

theorem Queued.undisturbed_push (h : Queued queue values) (value : α) :
    Undisturbed queue (queue_push queue value).2 := by
  intro k hk
  rw [h.size] at hk
  have hentry_num := h.entry_num
  have hroom := h.room
  unfold queue_push
  split
  · rfl
  · refine List.getElem?_set_ne fun heq => ?_
    rw [h.tail] at heq
    have := place_inj h.head (by omega) (by omega) heq
    omega

theorem queue_pop_entries {value : Option α} {queue' : queue_t α}
    (hpop : queue_pop queue = some (value, queue')) : queue'.entries = queue.entries := by
  unfold queue_pop at hpop
  split at hpop
  · cases hpop
  · obtain ⟨-, rfl⟩ := Prod.mk.inj (Option.some.inj hpop)
    rfl

/-- What one call does: it answers as the bounded queue does, and disturbs no slot in use. -/
theorem queue_call_spec (h : Queued queue values) (op : Op α) :
    ∃ answer queue' values', queue_call queue op = some (answer, queue') ∧
      Queued queue' values' ∧ queue'.capacity = queue.capacity ∧
      Step queue.capacity values op answer values' ∧ Undisturbed queue queue' := by
  cases op with
  | push value =>
    have hsame := h.undisturbed_push value
    rcases h.room.lt_or_eq with hroom | hfull
    · obtain ⟨queue', hpush, hqueued, hcapacity⟩ := push_room h hroom value
      rw [hpush] at hsame
      exact ⟨.pushed true, queue', values ++ [value], by simp [queue_call, hpush], hqueued,
        hcapacity, .accept hroom, hsame⟩
    · rw [push_full h hfull] at hsame
      exact ⟨.pushed false, queue, values, by simp [queue_call, push_full h hfull], h, rfl,
        .refuse hfull, hsame⟩
  | pop =>
    cases values with
    | nil =>
      exact ⟨.popped none, queue, [], by simp [queue_call, pop_empty h], h, rfl, .pop_empty,
        fun k hk => rfl⟩
    | cons value values =>
      obtain ⟨queue', hpop, hqueued, hcapacity⟩ := pop_first h
      refine ⟨.popped (some value), queue', values, by simp [queue_call, hpop], hqueued, hcapacity,
        .pop, fun k hk => ?_⟩
      rw [queue_pop_entries hpop]

theorem queue_run_spec (h : Queued queue values) (ops : List (Op α)) :
    ∃ answers queue' values', queue_run queue ops = some (answers, queue') ∧
      Queued queue' values' ∧ queue'.capacity = queue.capacity ∧
      Run queue.capacity values ops answers values' := by
  induction ops generalizing queue values with
  | nil => exact ⟨[], queue, values, rfl, h, rfl, .nil⟩
  | cons op ops ih =>
    obtain ⟨answer, queue₁, values₁, hcall, h₁, hcapacity₁, hstep, -⟩ := queue_call_spec h op
    obtain ⟨answers, queue₂, values₂, hrun, h₂, hcapacity₂, hsteps⟩ := ih h₁
    rw [hcapacity₁] at hcapacity₂ hsteps
    exact ⟨answer :: answers, queue₂, values₂, by simp [queue_run, hcall, hrun], h₂, hcapacity₂,
      .cons hstep hsteps⟩

theorem Queued.push_refused_iff (h : Queued queue values) (value : α) :
    (queue_push queue value).1 = false ↔ queue_size queue = queue.capacity := by
  have hroom := h.room
  rw [← h.size] at hroom
  unfold queue_push
  split
  · exact iff_of_true rfl (by omega)
  · exact iff_of_false (by simp) (by omega)

theorem pop_refused_iff : queue_pop queue = none ↔ queue_size queue = 0 := by
  unfold queue_pop
  split <;> simp_all

end

/-- Every sequence of calls on a new queue runs to its end, and the answers are those of a bounded
queue. The values come out in the order in which they went in, none of them lost or doubled. -/
theorem the_queue_is_a_bounded_queue (capacity : Nat) (ops : List (Op α)) :
    ∃ answers queue, queue_run (queue_init capacity) ops = some (answers, queue) ∧
      Run capacity [] ops answers (queue_values queue) ∧
      pushed ops answers = popped answers ++ queue_values queue ∧
      queue_size queue = (queue_values queue).length ∧ queue_size queue ≤ capacity ∧
      (∀ value, (queue_push queue value).1 = false ↔ queue_size queue = capacity) ∧
      (queue_pop queue = none ↔ queue_size queue = 0) ∧
      (∀ op, ∃ answer queue', queue_call queue op = some (answer, queue') ∧
        Undisturbed queue queue') ∧
      (8 * (capacity + 1) ≤ 2 ^ 64 → NoWrap queue) := by
  obtain ⟨answers, queue, values, hrun, h, hcapacity, hsteps⟩ :=
    queue_run_spec (queued_init capacity) ops
  change queue.capacity = capacity at hcapacity
  have hroom := h.room
  rw [← h.size] at hroom
  rw [← h.values_eq] at hsteps
  refine ⟨answers, queue, hrun, hsteps, hsteps.balance, ?_, by omega, ?_, pop_refused_iff, ?_, ?_⟩
  · rw [h.values_eq, h.size]
  · intro value
    rw [← hcapacity]
    exact h.push_refused_iff value
  · intro op
    obtain ⟨answer, queue', -, hcall, -, -, -, hsame⟩ := queue_call_spec h op
    exact ⟨answer, queue', hcall, hsame⟩
  · rw [← hcapacity]
    exact h.no_wrap

/-! ## Iterations -/

/-- The loop of a caller that visits the queue from `iter` on; `none` when it does not come to the
end in `fuel` steps. -/
def queue_iterate (queue : queue_t α) : Nat → Nat → Option (List (Option α))
  | 0, iter => if iter = queue_end queue then some [] else none
  | fuel + 1, iter =>
    if iter = queue_end queue then some []
    else do
      let (value, iter) ← queue_next queue iter
      let visited ← queue_iterate queue fuel iter
      return value :: visited

/-- What successive calls of `queue_pop` hand out. -/
def queue_drain : Nat → queue_t α → List (Option α)
  | 0, _ => []
  | fuel + 1, queue =>
    match queue_pop queue with
    | none => []
    | some (value, queue) => value :: queue_drain fuel queue

section

variable {queue : queue_t α} {values : List α}

theorem queue_drain_spec (h : Queued queue values) :
    queue_drain (queue_size queue) queue = values.map some := by
  rw [h.size]
  induction values generalizing queue with
  | nil => rfl
  | cons value values ih =>
    obtain ⟨queue', hpop, h', -⟩ := pop_first h
    rw [List.length_cons, queue_drain, hpop, List.map_cons]
    exact congrArg _ (ih h')

/-- From `k` entries behind the head on, each step gives the value at the head. -/
theorem queue_iterate_spec (h : Queued queue values) (rest k : Nat)
    (hk : k + rest = values.length) :
    queue_iterate queue rest (place queue k) =
      some (List.replicate rest (queue.entries.getD queue.head none)) := by
  have hentry_num := h.entry_num
  have hroom := h.room
  induction rest generalizing k with
  | zero =>
    rw [queue_iterate, if_pos]
    · rfl
    · rw [queue_end, h.tail, ← hk, Nat.add_zero]
  | succ rest ih =>
    have hne : place queue k ≠ queue_end queue := by
      intro heq
      rw [queue_end, h.tail] at heq
      have := place_inj h.head (by omega) (by omega) heq
      omega
    have hnext : (place queue k + 1) % queue.entry_num = place queue (k + 1) := by
      unfold place
      rw [Nat.mod_add_mod, Nat.add_assoc]
    rw [queue_iterate, if_neg hne, queue_next, if_neg hne, hnext]
    simp only [Option.bind_eq_bind, Option.bind_some, ih (k + 1) (by omega)]
    rfl

theorem Queued.iterate (h : Queued queue values) :
    queue_iterate queue (queue_size queue) (queue_begin queue) =
      some (List.replicate values.length (queue.entries.getD queue.head none)) := by
  have hplace : place queue 0 = queue_begin queue := Nat.mod_eq_of_lt h.head
  rw [h.size, ← hplace]
  exact queue_iterate_spec h values.length 0 (Nat.zero_add _)

theorem Queued.iterate_iff (h : Queued queue values) :
    List.replicate values.length (queue.entries.getD queue.head none) = values.map some ↔
      ∀ v ∈ values, ∀ w ∈ values, v = w := by
  cases values with
  | nil => simp
  | cons value values =>
    have hplace : place queue 0 = queue.head := Nat.mod_eq_of_lt h.head
    have hfirst := h.stored 0 value rfl
    rw [hplace] at hfirst
    rw [hfirst, eq_comm, List.eq_replicate_iff]
    constructor
    · rintro ⟨-, hall⟩ v hv w hw
      have hv := hall _ (List.mem_map_of_mem hv)
      have hw := hall _ (List.mem_map_of_mem hw)
      exact Option.some.inj (hv.trans hw.symm)
    · intro hsame
      refine ⟨List.length_map _, fun v hv => ?_⟩
      obtain ⟨w, hw, rfl⟩ := List.mem_map.mp hv
      rw [hsame w hw value List.mem_cons_self]

end

/-- An iteration over a queue ends after as many steps as there are values. It gives them in the
order in which they would come out exactly if they are all the same. -/
theorem the_iteration_is_in_order_iff (capacity : Nat) (ops : List (Op α)) :
    ∃ answers queue visited, queue_run (queue_init capacity) ops = some (answers, queue) ∧
      queue_iterate queue (queue_size queue) (queue_begin queue) = some visited ∧
      visited.length = queue_size queue ∧
      queue_drain (queue_size queue) queue = (queue_values queue).map some ∧
      (visited = (queue_values queue).map some ↔
        ∀ v ∈ queue_values queue, ∀ w ∈ queue_values queue, v = w) := by
  obtain ⟨answers, queue, values, hrun, h, -, -⟩ := queue_run_spec (queued_init capacity) ops
  refine ⟨answers, queue, _, hrun, h.iterate, ?_, ?_, ?_⟩
  · rw [List.length_replicate, h.size]
  · rw [h.values_eq]
    exact queue_drain_spec h
  · rw [h.values_eq]
    exact h.iterate_iff

/-- Two values, and the first of them is visited twice. -/
theorem the_second_value_is_not_visited :
    ∃ answers queue, queue_run (queue_init 2) [Op.push 1, Op.push 2] = some (answers, queue) ∧
      queue_iterate queue (queue_size queue) (queue_begin queue) = some [some 1, some 1] ∧
      queue_drain (queue_size queue) queue = [some 1, some 2] :=
  ⟨_, _, rfl, by decide, by decide⟩

end nettle.queue
