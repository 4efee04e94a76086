-- Where the buffers of the listeners are. A buffer goes from the pool to the
-- handler, and from there back or into the message of a worker, which frees it
-- in the end; whatever the threads do in between, it is in one place.
import Nettle.Listeners
import Nettle.WorkerQueues

open nettle.nt_fec nettle.queue nettle.udp nettle.worker slots

namespace nettle.nt_listener

/-! ## The places of the buffers -/

def both {α : Type} (f : side → List α) : List α := f .api ++ f .tun

def buffers (s : side) (capacity : Nat) : List pool_buffer_t :=
  (List.range capacity).map (⟨s, ·⟩)

/-- The free queue of the pool. -/
def free (s : side) (l : nt_listener_t) : List pool_buffer_t :=
  (l.pool.elim [] queue_values).map (⟨s, ·⟩)

/-- A `worker_send` to worker `w` has pushed its message and goes on. -/
def told (l : nt_listener_t) (w : Nat) : Bool :=
  ((l.workers[w]?.bind fun worker => worker.senders[0]?).bind sender_unwritten).isSome

/-- What the running handler has, until its message is pushed. -/
def running (s : side) (l : nt_listener_t) : List pool_buffer_t :=
  match l.handler with
  | .outside => []
  | .receiving b => [⟨s, b⟩]
  | .sending b w => if told l w then [] else [⟨s, b⟩]
  | .freeing b => [⟨s, b⟩]

/-- The message that a worker processes, and those that wait in its queue. -/
def carried (w : worker_t pool_buffer_t worker_free_t) : List pool_buffer_t :=
  (in_process w ++ waiting w).map message_t.data

def outstanding (s : side) (l : nt_listener_t) : List pool_buffer_t :=
  running s l ++ l.workers.flatMap carried

/-! ## The invariant -/

/-- The message of the call of `worker_send` that a thread is in. -/
def sender_message {δ φ : Type} : sender_t δ φ → Option (message_t δ φ)
  | .outside => none
  | .filling message _ => some message
  | .pushing message _ => some message
  | .writing message => some message

structure Listens (s : side) (l : nt_listener_t) (capacity mq_capacity : Nat) : Prop where
  pool : ∃ pool free, l.pool = some pool ∧ Queued pool free ∧ pool.capacity = capacity
  workers : ∀ w ∈ l.workers, ∃ free queued, Holds w mq_capacity free queued
  sender : ∀ (i : Nat) (w : worker_t pool_buffer_t worker_free_t), l.workers[i]? = some w →
    ∃ sender, w.senders[0]? = some sender ∧ ∀ message, sender_message sender = some message →
      ∃ b, l.handler = .sending b i ∧ message = ⟨⟨s, b⟩, .pool_free⟩
  sending : ∀ b i, l.handler = .sending b i → i < l.workers.length
  last : l.workers ≠ [] → l.last_processor < l.workers.length

/-- All buffers are in their places but the `loose` ones, which a thread is about to free. -/
structure Owned (t : tunnel_t) (capacity : side → Nat) (mq_capacity : Nat)
    (loose : List pool_buffer_t) : Prop where
  listens : ∀ s, Listens s (t.listeners s) (capacity s) mq_capacity
  places : (loose ++ both fun s => free s (t.listeners s) ++ outstanding s (t.listeners s)).Perm
    (both fun s => buffers s (capacity s))
  taken : t.taken.Perm (t.freed ++ (loose ++ both fun s => outstanding s (t.listeners s)))

section

variable {t : tunnel_t} {capacity : side → Nat} {mq_capacity : Nat} {loose : List pool_buffer_t}
  {s : side}

theorem count_both_update (f : side → nt_listener_t → List pool_buffer_t)
    (listeners : side → nt_listener_t) (s : side) (l : nt_listener_t) (a : pool_buffer_t) :
    (both fun r => f r (Function.update listeners s l r)).count a + (f s (listeners s)).count a =
      (both fun r => f r (listeners r)).count a + (f s l).count a := by
  unfold both
  cases s <;> simp [List.count_append] <;> omega

/-- One listener is replaced, and what it had is accounted for. -/
theorem Owned.set (h : Owned t capacity mq_capacity loose) {l : nt_listener_t}
    (hlistens : Listens s l (capacity s) mq_capacity) {t' : tunnel_t} {loose' : List pool_buffer_t}
    (ht' : t'.listeners = Function.update t.listeners s l)
    (hplaces : ∀ a, loose'.count a + (free s l).count a + (outstanding s l).count a =
      loose.count a + (free s (t.listeners s)).count a + (outstanding s (t.listeners s)).count a)
    (htaken : ∀ a, t'.taken.count a + t.freed.count a + loose.count a +
        (outstanding s (t.listeners s)).count a =
      t.taken.count a + t'.freed.count a + loose'.count a + (outstanding s l).count a) :
    Owned t' capacity mq_capacity loose' := by
  refine ⟨fun r => ?_, List.perm_iff_count.mpr fun a => ?_, List.perm_iff_count.mpr fun a => ?_⟩
  · by_cases hr : r = s
    · rw [hr, ht', Function.update_self]
      exact hlistens
    · rw [ht', Function.update_of_ne hr]
      exact h.listens r
  · have hcount := h.places.count_eq a
    have hboth := count_both_update (fun r l => free r l ++ outstanding r l) t.listeners s l a
    have := hplaces a
    rw [ht', List.count_append]
    simp only [List.count_append] at hcount hboth ⊢
    omega
  · have hcount := h.taken.count_eq a
    have hboth := count_both_update outstanding t.listeners s l a
    have := htaken a
    rw [ht', List.count_append, List.count_append]
    simp only [List.count_append] at hcount
    omega

/-! ## Back into a pool -/

theorem buffers_nodup (s : side) (n : Nat) : (buffers s n).Nodup :=
  List.nodup_range.map fun _ _ heq => (pool_buffer_t.mk.inj heq).2

theorem both_buffers_nodup (capacity : side → Nat) :
    (both fun s => buffers s (capacity s)).Nodup := by
  refine List.nodup_append.mpr ⟨buffers_nodup _ _, buffers_nodup _ _, fun a ha b hb heq => ?_⟩
  obtain ⟨_, -, rfl⟩ := List.mem_map.mp ha
  obtain ⟨_, -, rfl⟩ := List.mem_map.mp hb
  cases heq

theorem count_both_ge (f : side → List pool_buffer_t) (s : side) (a : pool_buffer_t) :
    (f s).count a ≤ (both f).count a := by
  unfold both
  rw [List.count_append]
  cases s <;> omega

theorem mem_both_buffers {x : pool_buffer_t} :
    (x ∈ both fun s => buffers s (capacity s)) ↔ x.buffer < capacity x.pool := by
  obtain ⟨pool, b⟩ := x
  cases pool <;> simp [both, buffers]

theorem mem_both {f : side → List pool_buffer_t} (s : side) {a : pool_buffer_t} (h : a ∈ f s) :
    a ∈ both f := by
  unfold both
  cases s
  · exact List.mem_append_left _ h
  · exact List.mem_append_right _ h

/-- The pool of a loose buffer has room for it. -/
theorem Owned.room {r : side} {b : Nat} (h : Owned t capacity mq_capacity [⟨r, b⟩]) {pool : pool_t}
    {values : List Nat} (hpool : (t.listeners r).pool = some pool) (hqueued : Queued pool values) :
    values.length < capacity r := by
  have hfree : free r (t.listeners r) = values.map (⟨r, ·⟩) := by
    unfold free
    rw [hpool, Option.elim_some, hqueued.values_eq]
  have hnodup : ((b :: values).map (⟨r, ·⟩ : Nat → pool_buffer_t)).Nodup := by
    refine List.nodup_iff_count_le_one.mpr fun a => ?_
    have hcount := h.places.count_eq a
    have hle := count_both_ge (fun s => free s (t.listeners s) ++ outstanding s (t.listeners s)) r a
    have := List.nodup_iff_count_le_one.mp (both_buffers_nodup capacity) a
    rw [List.count_append] at hcount hle
    rw [List.map_cons, ← hfree, ← List.singleton_append, List.count_append]
    omega
  have hsubset : b :: values ⊆ List.range (capacity r) := fun v hv => by
    refine List.mem_range.mpr
      ((mem_both_buffers (x := ⟨r, v⟩)).mp (h.places.mem_iff.mp ?_))
    rcases List.mem_cons.mp hv with rfl | hv
    · exact List.mem_append_left _ List.mem_cons_self
    · refine List.mem_append_right _ (mem_both r (List.mem_append_left _ ?_))
      rw [hfree]
      exact List.mem_map.mpr ⟨v, hv, rfl⟩
  have hlen := (List.subperm_of_subset hnodup.of_map hsubset).length_le
  rwa [List.length_cons, List.length_range] at hlen

/-- A loose buffer goes back into its pool. -/
theorem buffer_free_step {x : pool_buffer_t} (h : Owned t capacity mq_capacity [x]) :
    ∃ t', buffer_free t x = some t' ∧ Owned t' capacity mq_capacity [] := by
  obtain ⟨r, b⟩ := x
  obtain ⟨⟨pool, values, hpool, hqueued, hcapacity⟩, hworkers, hsender, hsending, hlast⟩ := h.listens r
  obtain ⟨pool', hpush, hqueued', hcapacity'⟩ :=
    pool_free_spec hqueued (hcapacity ▸ h.room hpool hqueued) b
  refine ⟨set_listener { t with freed := t.freed ++ [⟨r, b⟩] } r
    { t.listeners r with pool := some pool' }, ?_,
    h.set (l := { t.listeners r with pool := some pool' })
    ⟨⟨pool', values ++ [b], rfl, hqueued', hcapacity'.trans hcapacity⟩, hworkers, hsender, hsending,
      hlast⟩ rfl (fun a => ?_) (fun a => ?_)⟩
  · unfold buffer_free
    simp only [hpool, hpush, Option.bind_eq_bind, Option.bind_some]
    rfl
  · have hfree : free r { t.listeners r with pool := some pool' } =
        free r (t.listeners r) ++ [⟨r, b⟩] := by
      unfold free
      rw [hpool, Option.elim_some, Option.elim_some, hqueued.values_eq, hqueued'.values_eq,
        List.map_append]
      rfl
    rw [hfree, List.count_append, List.count_nil]
    change _ + (outstanding r (t.listeners r)).count a = _
    omega
  · change t.taken.count a + t.freed.count a + _ + _ =
      t.taken.count a + (t.freed ++ [_]).count a + _ + (outstanding r (t.listeners r)).count a
    rw [List.count_append, List.count_nil]
    omega

end

/-! ## The handlers -/

section

variable {s : side} {l : nt_listener_t} {capacity mq_capacity : Nat}

/-- Nothing of a buffer is given away before `worker_send`. -/
structure Receives (l : nt_listener_t) (b : Nat) (l' : nt_listener_t) : Prop where
  pool : l'.pool = l.pool
  workers : l'.workers = l.workers
  last : l.workers ≠ [] → l'.last_processor < l.workers.length
  handler : l'.handler = .freeing b ∨ ∃ w < l.workers.length, l'.handler = .sending b w

theorem api_receives (hlast : l.workers ≠ [] → l.last_processor < l.workers.length) (perf : perf_t)
    (b : Nat) (buffer : List UInt8) (incoming : Except error_t (address_t × List UInt8)) :
    Receives l b (api_handle_read l perf b buffer incoming).2.2 := by
  have hfreeing : Receives l b { l with handler := .freeing b } := ⟨rfl, rfl, hlast, .inl rfl⟩
  unfold api_handle_read
  rcases incoming with err | ⟨src, datagram⟩
  · exact hfreeing
  · simp only
    split
    · exact hfreeing
    · by_cases hnull : l.workers = []
      · rw [if_pos hnull]
        exact hfreeing
      · rw [if_neg hnull]
        have hnext : (if (l.workers.map worker_message_count).getD l.last_processor 0 ≠ 0 then
            (l.last_processor + 1) % l.workers.length else l.last_processor) < l.workers.length := by
          split
          · exact Nat.mod_lt _ (List.length_pos_iff.mpr hnull)
          · exact hlast hnull
        exact ⟨rfl, rfl, fun _ => hnext, .inr ⟨_, hnext, rfl⟩⟩

theorem tun_receives (hlast : l.workers ≠ [] → l.last_processor < l.workers.length) (perf : perf_t)
    (b : Nat) (buffer : List UInt8) (incoming : Except error_t (address_t × List UInt8)) :
    Receives l b (tun_handle_read l perf b buffer incoming).2.2 := by
  have hfreeing : Receives l b { l with handler := .freeing b } := ⟨rfl, rfl, hlast, .inl rfl⟩
  unfold tun_handle_read
  rcases incoming with err | ⟨src, datagram⟩
  · exact hfreeing
  · simp only
    split
    · exact hfreeing
    · by_cases hnull : l.workers = []
      · rw [if_pos hnull]
        exact hfreeing
      · rw [if_neg hnull]
        exact ⟨rfl, rfl, hlast, .inr ⟨_, Nat.mod_lt _ (List.length_pos_iff.mpr hnull), rfl⟩⟩

theorem told_eq {i : Nat} {w : worker_t pool_buffer_t worker_free_t}
    {sender : sender_t pool_buffer_t worker_free_t} (hi : l.workers[i]? = some w)
    (hsender : w.senders[0]? = some sender) : told l i = (sender_unwritten sender).isSome := by
  unfold told
  rw [hi, Option.bind_some, hsender, Option.bind_some]

/-- While the handler is not in `worker_send`, no sender is. -/
theorem Listens.not_sending (h : Listens s l capacity mq_capacity)
    (hhandler : ∀ b i, l.handler ≠ .sending b i) {i : Nat}
    {w : worker_t pool_buffer_t worker_free_t} (hi : l.workers[i]? = some w) :
    w.senders[0]? = some .outside := by
  obtain ⟨sender, hsender, hmessage⟩ := h.sender i w hi
  cases sender with
  | outside => exact hsender
  | filling message m =>
    obtain ⟨b, hb, -⟩ := hmessage message rfl
    exact absurd hb (hhandler b i)
  | pushing message m =>
    obtain ⟨b, hb, -⟩ := hmessage message rfl
    exact absurd hb (hhandler b i)
  | writing message =>
    obtain ⟨b, hb, -⟩ := hmessage message rfl
    exact absurd hb (hhandler b i)

/-- Another handler state, while no sender is in `worker_send`. -/
theorem Listens.goto (h : Listens s l capacity mq_capacity) (hhandler : ∀ b i, l.handler ≠ .sending b i)
    {l' : nt_listener_t} (hpool : ∃ pool free, l'.pool = some pool ∧ Queued pool free ∧
      pool.capacity = capacity) (hworkers : l'.workers = l.workers)
    (hlast : l.workers ≠ [] → l'.last_processor < l.workers.length)
    (hsending : ∀ b i, l'.handler = .sending b i → i < l.workers.length) :
    Listens s l' capacity mq_capacity := by
  refine ⟨hpool, hworkers ▸ h.workers, fun i w hi => ?_, hworkers ▸ hsending, hworkers ▸ hlast⟩
  rw [hworkers] at hi
  exact ⟨.outside, h.not_sending hhandler hi, nofun⟩

/-- One worker is replaced. -/
theorem Listens.set_worker (h : Listens s l capacity mq_capacity) {i : Nat}
    {w' : worker_t pool_buffer_t worker_free_t} {handler' : handler_t}
    {sender' : sender_t pool_buffer_t worker_free_t}
    (hholds : ∃ free queued, Holds w' mq_capacity free queued)
    (hsender' : w'.senders[0]? = some sender')
    (hmessage' : ∀ message, sender_message sender' = some message →
      ∃ b, handler' = .sending b i ∧ message = ⟨⟨s, b⟩, .pool_free⟩)
    (hother : ∀ b j, j ≠ i → l.handler = .sending b j → handler' = .sending b j)
    (hsending : ∀ b j, handler' = .sending b j → j < l.workers.length) :
    Listens s { l with workers := l.workers.set i w', handler := handler' } capacity mq_capacity := by
  refine ⟨h.pool, fun w hw => ?_, fun j w hj => ?_, fun b j hj => ?_, fun hne => ?_⟩
  · rcases List.mem_or_eq_of_mem_set hw with hw | rfl
    · exact h.workers w hw
    · exact hholds
  · by_cases hji : j = i
    · subst hji
      have hlt := (List.getElem?_eq_some_iff.mp hj).1
      rw [List.length_set] at hlt
      rw [List.getElem?_set_self hlt] at hj
      obtain rfl := Option.some.inj hj
      exact ⟨sender', hsender', hmessage'⟩
    · rw [List.getElem?_set_ne (Ne.symm hji)] at hj
      obtain ⟨sender, hsender, hmessage⟩ := h.sender j w hj
      refine ⟨sender, hsender, fun message hm => ?_⟩
      obtain ⟨b, hb, hb'⟩ := hmessage message hm
      exact ⟨b, hother b j hji hb, hb'⟩
  · exact (hsending b j hj).trans_eq List.length_set.symm
  · change l.last_processor < (l.workers.set i w').length
    rw [List.length_set]
    refine h.last fun hnil => hne ?_
    change l.workers.set i w' = []
    rw [hnil]
    rfl

/-- A worker has the messages that were pushed to it and not yet released. -/
theorem carried_step {w w' : worker_t pool_buffer_t worker_free_t} {free queued free' queued' : List Nat}
    (h : Holds w mq_capacity free queued) (h' : Holds w' mq_capacity free' queued')
    {gone come : List (message_t pool_buffer_t worker_free_t)} (hpushed : w'.pushed = w.pushed ++ come)
    (hreleased : w'.released = w.released ++ gone) :
    gone.map message_t.data ++ carried w' = carried w ++ come.map message_t.data := by
  rw [h.pushed_eq, h'.pushed_eq, hreleased, List.append_assoc, List.append_assoc,
    List.append_cancel_left_eq] at hpushed
  unfold carried
  rw [← List.map_append, hpushed, List.map_append]

theorem outstanding_set_worker {i : Nat} {w w' : worker_t pool_buffer_t worker_free_t}
    (hi : l.workers[i]? = some w) {handler' : handler_t} {gone come : List pool_buffer_t}
    (hcarried : gone ++ carried w' = carried w ++ come) (a : pool_buffer_t)
    (hrunning : (running s { l with workers := l.workers.set i w', handler := handler' }).count a +
      come.count a = (running s l).count a) :
    gone.count a +
      (outstanding s { l with workers := l.workers.set i w', handler := handler' }).count a =
        (outstanding s l).count a := by
  have hset := (flatMap_set (f := carried) hi w').count_eq a
  have hcount := congrArg (List.count a) hcarried
  unfold outstanding
  simp only [List.count_append] at hset hcount ⊢
  omega

end

section

variable {t : tunnel_t} {capacity : side → Nat} {mq_capacity : Nat}

/-- What a handler does with the result of its send. -/
theorem handle_read_sending {s : side} {b i : Nat} {w w' : worker_t pool_buffer_t worker_free_t}
    {result : Option Bool} (hhandler : (t.listeners s).handler = .sending b i)
    (hi : (t.listeners s).workers[i]? = some w)
    (hsend : worker_send w 0 ⟨⟨s, b⟩, .pool_free⟩ = some (result, w'))
    (incoming : Except error_t (address_t × List UInt8)) :
    handle_read t s incoming = match result with
      | none => some (set_listener t s
        { t.listeners s with workers := (t.listeners s).workers.set i w' })
      | some true => some (set_listener t s
        { t.listeners s with workers := (t.listeners s).workers.set i w', handler := .outside })
      | some false => some (set_listener { t with perf := perf_inc t.perf (busy s) 1 } s
        { t.listeners s with workers := (t.listeners s).workers.set i w', handler := .freeing b }) := by
  unfold handle_read
  simp only [hhandler, hi, hsend, Option.bind_eq_bind, Option.bind_some]
  rcases result with _ | _ | _ <;> rfl

theorem sending_step (h : Owned t capacity mq_capacity []) (hcap : mq_capacity + 1 < 2 ^ 64)
    {s : side} {b i : Nat} (hhandler : (t.listeners s).handler = .sending b i)
    (incoming : Except error_t (address_t × List UInt8)) :
    ∃ t', handle_read t s incoming = some t' ∧ Owned t' capacity mq_capacity [] := by
  have hl := h.listens s
  have hlt := hl.sending b i hhandler
  obtain ⟨w, hi⟩ : ∃ w, (t.listeners s).workers[i]? = some w := ⟨_, List.getElem?_eq_getElem hlt⟩
  obtain ⟨sender, hsender, hmessage⟩ := hl.sender i w hi
  obtain ⟨free, queued, hholds⟩ := hl.workers w (List.mem_of_getElem? hi)
  obtain ⟨result, w', sender', pushes, free', queued', hsend, hholds', hstep, hsenders, hpushed,
    hreleased⟩ := send_step hholds hcap hsender ⟨⟨s, b⟩, .pool_free⟩
  have hsender' : w'.senders[0]? = some sender' := by
    rw [hsenders, List.getElem?_set_self (List.getElem?_eq_some_iff.mp hsender).1]
  have hcarried := carried_step hholds hholds' hpushed (hreleased.trans (List.append_nil _).symm)
  -- What is left for each step: who has the buffer before it and after it.
  have hgo : ∀ (perf : perf_t) (handler' : handler_t), (∀ message,
      sender_message sender' = some message →
        handler' = .sending b i ∧ message = ⟨⟨s, b⟩, .pool_free⟩) →
      (∀ b j, handler' = .sending b j → j = i) →
      running s { t.listeners s with workers := (t.listeners s).workers.set i w', handler := handler' } ++
        pushes.map message_t.data = running s (t.listeners s) →
      Owned (set_listener { t with perf } s { t.listeners s with
        workers := (t.listeners s).workers.set i w', handler := handler' }) capacity mq_capacity [] := by
    intro perf handler' hm hj hrunning
    have hcount := fun a => outstanding_set_worker (s := s) hi hcarried a
      (by rw [← hrunning, List.count_append])
    simp only [List.map_nil, List.count_nil, Nat.zero_add] at hcount
    refine h.set (hl.set_worker ⟨free', queued', hholds'⟩ hsender'
      (fun message hmessage' => ⟨b, hm message hmessage'⟩) (fun b' j hne hb' => ?_)
      (fun b' j hb' => hj b' j hb' ▸ hlt)) rfl (fun a => ?_) (fun a => ?_)
    · rw [hhandler] at hb'
      cases hb'
      exact absurd rfl hne
    · rw [hcount a]
      rfl
    · rw [hcount a]
      rfl
  have hset : ((t.listeners s).workers.set i w')[i]? = some w' := List.getElem?_set_self hlt
  have hbefore : running s (t.listeners s) =
      if (sender_unwritten sender).isSome then [] else [⟨s, b⟩] := by
    unfold running
    rw [hhandler]
    simp only [told_eq hi hsender]
  have hafter : running s { t.listeners s with
      workers := (t.listeners s).workers.set i w', handler := .sending b i } =
        if (sender_unwritten sender').isSome then [] else [⟨s, b⟩] := by
    unfold running
    simp only [told_eq (l := { t.listeners s with
      workers := (t.listeners s).workers.set i w', handler := .sending b i }) hset hsender']
  have hsame : { t.listeners s with workers := (t.listeners s).workers.set i w' } =
      { t.listeners s with
        workers := (t.listeners s).workers.set i w', handler := handler_t.sending b i } := by
    rw [← hhandler]
  have hread := handle_read_sending hhandler hi hsend incoming
  have hown : ∀ message, sender_message sender = some message →
      message = ⟨⟨s, b⟩, .pool_free⟩ := fun message hm => by
    obtain ⟨b', hb', hmessage'⟩ := hmessage message hm
    rw [hhandler] at hb'
    obtain ⟨rfl, -⟩ := handler_t.sending.inj hb'
    exact hmessage'
  have hstay := hgo t.perf (.sending b i)
  rw [← hsame] at hstay
  have hi_same : ∀ b' j, handler_t.sending b i = .sending b' j → j = i := fun _ _ heq =>
    (handler_t.sending.inj heq).2.symm
  cases hstep with
  | refused =>
    exact ⟨_, hread, hgo _ (.freeing b) nofun (fun _ _ => nofun) hbefore.symm⟩
  | began _ m =>
    refine ⟨_, hread, hstay (fun message hm => ⟨rfl, (Option.some.inj hm).symm⟩) hi_same ?_⟩
    rw [hsame, hbefore, hafter]
    rfl
  | filled message' _ m =>
    refine ⟨_, hread, hstay (fun message hm => ⟨rfl, hown message hm⟩) hi_same ?_⟩
    rw [hsame, hbefore, hafter]
    rfl
  | pushed message' _ m =>
    refine ⟨_, hread, hstay (fun message hm => ⟨rfl, hown message hm⟩) hi_same ?_⟩
    rw [hsame, hbefore, hafter, hown message' rfl]
    rfl
  | returned message' _ =>
    exact ⟨_, hread, hgo t.perf .outside nofun (fun _ _ => nofun) hbefore.symm⟩

/-- A handler that reads its datagram keeps the buffer. -/
theorem receiving_step (h : Owned t capacity mq_capacity []) {s : side} {b : Nat}
    (hhandler : (t.listeners s).handler = .receiving b)
    (incoming : Except error_t (address_t × List UInt8)) :
    ∃ t', handle_read t s incoming = some t' ∧ Owned t' capacity mq_capacity [] := by
  have hl := h.listens s
  have hnot : ∀ b' i, (t.listeners s).handler ≠ .sending b' i := fun b' i => by
    rw [hhandler]
    exact nofun
  obtain ⟨buffer, perf, l', hread, hreceives⟩ : ∃ buffer perf l',
      handle_read t s incoming = some (set_listener
        { t with memory := Function.update t.memory ⟨s, b⟩ buffer, perf } s l') ∧
      Receives (t.listeners s) b l' := by
    unfold handle_read
    simp only [hhandler]
    cases s with
    | api => exact ⟨_, _, _, rfl, api_receives hl.last _ _ _ _⟩
    | tun => exact ⟨_, _, _, rfl, tun_receives hl.last _ _ _ _⟩
  have hsending : ∀ b' i, l'.handler = .sending b' i → i < (t.listeners s).workers.length := by
    intro b' i hi
    rcases hreceives.handler with hfreeing | ⟨w, hw, hsending⟩
    · rw [hfreeing] at hi
      cases hi
    · rw [hsending] at hi
      obtain ⟨-, rfl⟩ := handler_t.sending.inj hi
      exact hw
  have hrunning : running s l' = running s (t.listeners s) := by
    unfold running
    rw [hhandler]
    rcases hreceives.handler with hfreeing | ⟨w, hw, hsending⟩
    · rw [hfreeing]
    · have hw' := (congrArg (·[w]?) hreceives.workers).trans (List.getElem?_eq_getElem hw)
      have hsender := hl.not_sending hnot (List.getElem?_eq_getElem hw)
      rw [hsending]
      simp only [told_eq hw' hsender]
      rfl
  have hfree : free s l' = free s (t.listeners s) := by
    unfold free
    rw [hreceives.pool]
  have houtstanding : outstanding s l' = outstanding s (t.listeners s) := by
    unfold outstanding
    rw [hrunning, hreceives.workers]
  refine ⟨_, hread, h.set (hl.goto hnot (hreceives.pool ▸ hl.pool) hreceives.workers hreceives.last
    hsending) rfl (fun a => ?_) (fun a => ?_)⟩
  · rw [hfree, houtstanding]
  · rw [houtstanding]
    rfl

/-- A handler takes a buffer out of the pool, if there is one. -/
theorem outside_step (h : Owned t capacity mq_capacity []) {s : side}
    (hhandler : (t.listeners s).handler = .outside)
    (incoming : Except error_t (address_t × List UInt8)) :
    ∃ t', handle_read t s incoming = some t' ∧ Owned t' capacity mq_capacity [] := by
  have hl := h.listens s
  have hnot : ∀ b' i, (t.listeners s).handler ≠ .sending b' i := fun b' i => by
    rw [hhandler]
    exact nofun
  obtain ⟨pool, values, hpool, hqueued, hcapacity⟩ := hl.pool
  cases values with
  | nil =>
    refine ⟨t, ?_, h⟩
    unfold handle_read pool_new
    simp only [hhandler, hpool, pop_empty hqueued, Option.bind_eq_bind, Option.bind_some]
    rfl
  | cons b values =>
    obtain ⟨pool', hpop, hqueued', hcapacity'⟩ := pop_first hqueued
    have hfree : free s (t.listeners s) =
        ⟨s, b⟩ :: free s { t.listeners s with pool := some pool', handler := .receiving b } := by
      unfold free
      rw [hpool, Option.elim_some, Option.elim_some, hqueued.values_eq, hqueued'.values_eq]
      rfl
    have houtstanding :
        outstanding s { t.listeners s with pool := some pool', handler := .receiving b } =
          ⟨s, b⟩ :: outstanding s (t.listeners s) := by
      unfold outstanding running
      rw [hhandler]
      rfl
    refine ⟨set_listener { t with taken := t.taken ++ [⟨s, b⟩] } s
      { t.listeners s with pool := some pool', handler := .receiving b }, ?_,
      h.set (l := { t.listeners s with pool := some pool', handler := .receiving b })
        (hl.goto hnot ⟨pool', values, rfl, hqueued', hcapacity'.trans hcapacity⟩ rfl hl.last
          (fun _ _ => nofun)) rfl (fun a => ?_) (fun a => ?_)⟩
    · unfold handle_read pool_new
      simp only [hhandler, hpool, hpop, Option.bind_eq_bind, Option.bind_some]
      rfl
    · rw [hfree, houtstanding, List.count_cons, List.count_cons]
      omega
    · change (t.taken ++ [_]).count a + t.freed.count a + _ + _ = t.taken.count a + t.freed.count a + _ + _
      simp only [houtstanding, List.count_append, List.count_cons, List.count_nil]
      omega

/-- A handler that gives its buffer back is done. -/
theorem freeing_step (h : Owned t capacity mq_capacity []) {s : side} {b : Nat}
    (hhandler : (t.listeners s).handler = .freeing b)
    (incoming : Except error_t (address_t × List UInt8)) :
    ∃ t', handle_read t s incoming = some t' ∧ Owned t' capacity mq_capacity [] := by
  have hl := h.listens s
  have hnot : ∀ b' i, (t.listeners s).handler ≠ .sending b' i := fun b' i => by
    rw [hhandler]
    exact nofun
  have houtstanding : outstanding s (t.listeners s) =
      ⟨s, b⟩ :: outstanding s { t.listeners s with handler := .outside } := by
    unfold outstanding running
    rw [hhandler]
    rfl
  have hloose : Owned (set_listener t s { t.listeners s with handler := .outside }) capacity
      mq_capacity [⟨s, b⟩] := by
    refine h.set (l := { t.listeners s with handler := .outside })
      (hl.goto hnot hl.pool rfl hl.last (fun _ _ => nofun)) rfl (fun a => ?_) (fun a => ?_)
    · change _ + (free s (t.listeners s)).count a + _ = _
      simp only [houtstanding, List.count_cons, List.count_nil]
      omega
    · change t.taken.count a + t.freed.count a + _ + _ = t.taken.count a + t.freed.count a + _ + _
      simp only [houtstanding, List.count_cons, List.count_nil]
      omega
  obtain ⟨t', hfree, howned⟩ := buffer_free_step hloose
  refine ⟨t', ?_, howned⟩
  unfold handle_read
  simp only [hhandler]
  exact hfree

theorem handle_read_step (h : Owned t capacity mq_capacity []) (hcap : mq_capacity + 1 < 2 ^ 64)
    (s : side) (incoming : Except error_t (address_t × List UInt8)) :
    ∃ t', handle_read t s incoming = some t' ∧ Owned t' capacity mq_capacity [] := by
  cases hhandler : (t.listeners s).handler with
  | outside => exact outside_step h hhandler incoming
  | receiving b => exact receiving_step h hhandler incoming
  | sending b w => exact sending_step h hcap hhandler incoming
  | freeing b => exact freeing_step h hhandler incoming

/-- A worker that releases a message frees the buffer of it. -/
theorem process_step (h : Owned t capacity mq_capacity []) (s : side) (i : Nat) (left : List UInt8) :
    ∃ t', process t s i left = some t' ∧ Owned t' capacity mq_capacity [] := by
  have hl := h.listens s
  unfold process
  cases hi : (t.listeners s).workers[i]? with
  | none => exact ⟨t, by simp only [hi], h⟩
  | some w =>
    have hlt := (List.getElem?_eq_some_iff.mp hi).1
    obtain ⟨sender, hsender, hmessage⟩ := hl.sender i w hi
    obtain ⟨free, queued, hholds⟩ := hl.workers w (List.mem_of_getElem? hi)
    obtain ⟨called, w', free', queued', hcallback, hholds', hsenders, hpushed, -, hreleased⟩ :=
      callback_step hholds
    have hcarried := carried_step hholds hholds' (hpushed.trans (List.append_nil _).symm) hreleased
    have hsender' : w'.senders[0]? = some sender := by rw [hsenders, hsender]
    have htold : told { t.listeners s with workers := (t.listeners s).workers.set i w' } =
        told (t.listeners s) := by
      funext j
      by_cases hji : j = i
      · rw [hji, told_eq hi hsender]
        exact told_eq (List.getElem?_set_self hlt) hsender'
      · unfold told
        simp only [List.getElem?_set_ne (Ne.symm hji)]
    have hrunning : running s { t.listeners s with workers := (t.listeners s).workers.set i w' } =
        running s (t.listeners s) := by
      unfold running
      rw [htold]
    have hcount : ∀ a, ((released_in called).map message_t.data).count a + (outstanding s
        { t.listeners s with workers := (t.listeners s).workers.set i w' }).count a =
          (outstanding s (t.listeners s)).count a := fun a =>
      outstanding_set_worker hi hcarried a (congrArg (List.count a) hrunning)
    have hloose : Owned (set_listener t s
        { t.listeners s with workers := (t.listeners s).workers.set i w' }) capacity mq_capacity
          ((released_in called).map message_t.data) := by
      refine h.set (l := { t.listeners s with workers := (t.listeners s).workers.set i w' })
        (hl.set_worker ⟨free', queued', hholds'⟩ hsender' hmessage (fun _ _ _ => id) hl.sending) rfl
        (fun a => ?_) (fun a => ?_)
      · have := hcount a
        change _ + (nt_listener.free s (t.listeners s)).count a + _ = _
        rw [List.count_nil]
        omega
      · have := hcount a
        change t.taken.count a + t.freed.count a + _ + _ = t.taken.count a + t.freed.count a + _ + _
        rw [List.count_nil]
        omega
    cases called with
    | none =>
      refine ⟨_, ?_, hloose⟩
      simp only [hi, hcallback, Option.bind_eq_bind, Option.bind_some]
      rfl
    | some call =>
      cases call with
      | on_message data =>
        refine ⟨{ set_listener t s { t.listeners s with workers := (t.listeners s).workers.set i w' } with
          memory := Function.update t.memory data left }, ?_, hloose.listens, hloose.places,
          hloose.taken⟩
        simp only [hi, hcallback, Option.bind_eq_bind, Option.bind_some]
        rfl
      | free message =>
        obtain ⟨data, ⟨⟩⟩ := message
        obtain ⟨t', hfree, howned⟩ := buffer_free_step hloose
        refine ⟨t', ?_, howned⟩
        simp only [hi, hcallback, Option.bind_eq_bind, Option.bind_some]
        exact hfree

end

/-! ## Any interleaving -/

theorem init_owned {pool_capacity : side → Nat} (hpool : ∀ s, 0 < pool_capacity s)
    (max_buffer_size : side → Nat) (processor_num mq_capacity : Nat)
    (memory : pool_buffer_t → List UInt8) :
    Owned (tunnel_init pool_capacity max_buffer_size processor_num mq_capacity memory) pool_capacity
      mq_capacity [] := by
  have hlistener : ∀ s, (tunnel_init pool_capacity max_buffer_size processor_num mq_capacity
      memory).listeners s =
        nt_listener_init (pool_capacity s) (max_buffer_size s) processor_num mq_capacity := fun _ => rfl
  have hfree : ∀ s, free s (nt_listener_init (pool_capacity s) (max_buffer_size s) processor_num
      mq_capacity) = buffers s (pool_capacity s) := fun s => by
    unfold free nt_listener_init
    rw [if_pos (hpool s), Option.elim_some, (pool_init_spec (pool_capacity s)).1.values_eq]
    rfl
  have hcarried : carried (worker_init mq_capacity 1) = [] := by
    have hpushed := (init_holds (δ := pool_buffer_t) (φ := worker_free_t) mq_capacity 1).pushed_eq
    unfold carried
    rw [(List.append_eq_nil_iff.mp hpushed.symm).2]
    rfl
  have houtstanding : ∀ s, outstanding s (nt_listener_init (pool_capacity s) (max_buffer_size s)
      processor_num mq_capacity) = [] := fun s => by
    refine List.flatMap_eq_nil_iff.mpr fun w hw => ?_
    rw [List.eq_of_mem_replicate hw, hcarried]
  refine ⟨fun s => ⟨⟨_, _, if_pos (hpool s), pool_init_spec (pool_capacity s)⟩, fun w hw => ?_,
    fun i w hi => ?_, fun b i => nofun, fun hne => List.length_pos_iff.mpr hne⟩, ?_, ?_⟩
  · rw [List.eq_of_mem_replicate hw]
    exact ⟨_, _, init_holds mq_capacity 1⟩
  · rw [List.eq_of_mem_replicate (List.mem_of_getElem? hi)]
    exact ⟨.outside, rfl, nofun⟩
  · simp only [hlistener, hfree, houtstanding, List.append_nil, List.nil_append]
    exact List.Perm.refl _
  · simp only [hlistener, houtstanding]
    exact List.Perm.refl _

theorem run_owned {t : tunnel_t} {capacity : side → Nat} {mq_capacity : Nat}
    (h : Owned t capacity mq_capacity []) (hcap : mq_capacity + 1 < 2 ^ 64) (threads : List thread) :
    ∃ t', tunnel_run threads t = some t' ∧ Owned t' capacity mq_capacity [] := by
  induction threads generalizing t with
  | nil => exact ⟨t, rfl, h⟩
  | cons thread threads ih =>
    obtain ⟨t₁, hturn, howned⟩ : ∃ t₁, tunnel_turn t thread = some t₁ ∧
        Owned t₁ capacity mq_capacity [] := by
      cases thread with
      | listener s incoming => exact handle_read_step h hcap s incoming
      | worker s w left => exact process_step h s w left
    obtain ⟨t', hrun, howned'⟩ := ih howned
    refine ⟨t', ?_, howned'⟩
    unfold tunnel_run at hrun ⊢
    rw [List.foldlM_cons, hturn]
    exact hrun

/-- Whatever the threads do, no `ensure` fails, each buffer is in one place, and a buffer that was
taken out of its pool has been freed as often, but for once while it is with the handler or a
worker. -/
theorem each_buffer_is_in_one_place {pool_capacity : side → Nat} (hpool : ∀ s, 0 < pool_capacity s)
    {mq_capacity : Nat} (hcap : mq_capacity + 1 < 2 ^ 64) (max_buffer_size : side → Nat)
    (processor_num : Nat) (memory : pool_buffer_t → List UInt8) (threads : List thread) :
    ∃ t, tunnel_run threads
        (tunnel_init pool_capacity max_buffer_size processor_num mq_capacity memory) = some t ∧
      (both fun s => free s (t.listeners s) ++ (running s (t.listeners s) ++
        (t.listeners s).workers.flatMap carried)).Perm (both fun s => buffers s (pool_capacity s)) ∧
      (both fun s => buffers s (pool_capacity s)).Nodup ∧
      t.taken.Perm (t.freed ++ both fun s => running s (t.listeners s) ++
        (t.listeners s).workers.flatMap carried) := by
  obtain ⟨t, hrun, howned⟩ := run_owned
    (init_owned hpool max_buffer_size processor_num mq_capacity memory) hcap threads
  exact ⟨t, hrun, howned.places, both_buffers_nodup pool_capacity, howned.taken⟩

/-- One datagram comes in on the API side and is refused, while the other listener waits. -/
theorem each_buffer_is_in_one_place_two : ∃ t,
    tunnel_run [.listener .api (.error 11), .listener .tun (.error 11), .listener .api (.error 11),
      .listener .api (.error 11)] (tunnel_init (fun _ => 2) (fun _ => 64) 1 2 fun _ => []) = some t ∧
    t.taken.Perm (t.freed ++ both fun s => running s (t.listeners s) ++
      (t.listeners s).workers.flatMap carried) := by
  obtain ⟨t, hrun, -, -, htaken⟩ := each_buffer_is_in_one_place
    (fun _ => Nat.zero_lt_two) (by norm_num : 2 + 1 < 2 ^ 64) (fun _ => 64) 1 (fun _ => [])
    [.listener .api (.error 11), .listener .tun (.error 11), .listener .api (.error 11),
      .listener .api (.error 11)]
  exact ⟨t, hrun, htaken⟩

end nettle.nt_listener
