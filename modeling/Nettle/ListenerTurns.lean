-- A handler of the API side that no other thread comes between. Its steps, one
-- after the other, do what `nt_api_handle_read` does as one function.
import Nettle.ListenerMessages

open nettle.nt_fec nettle.queue nettle.udp nettle.worker

namespace nettle.nt_listener

/-! ## What the function sees -/

def encoder_mq (worker : worker_t pool_buffer_t worker_free_t) : encoder_mq_t where
  message_count := worker_message_count worker
  free := queue_size worker.pool

def listener_context (listener : nt_listener_t) (perf : perf_t) : nt_fec_listener_context_t where
  processors := if listener.workers = [] then none else some (listener.workers.map encoder_mq)
  last_processor := listener.last_processor
  perf

/-- The buffer that comes out of the pool next. -/
def next_buffer (listener : nt_listener_t) : Option Nat := do
  let pool ← listener.pool
  let (b, _) ← pool_new pool
  b

/-- What has become of the workers when the function gives this back. -/
def Dispatches (t t' : tunnel_t) (b : Nat) : Option (Nat × List UInt8) → Prop
  | none => (t'.listeners .api).workers = (t.listeners .api).workers
  | some (i, message) => t'.memory ⟨.api, b⟩ = message ∧
    ∃ w w', (t.listeners .api).workers[i]? = some w ∧
      (t'.listeners .api).workers = (t.listeners .api).workers.set i w' ∧
      w'.pushed = w.pushed ++ [⟨⟨.api, b⟩, .pool_free⟩]

/-- The handler comes from one state to the other in some steps of its own. -/
inductive Alone (incoming : Except error_t (address_t × List UInt8)) : tunnel_t → tunnel_t → Prop where
  | done (t : tunnel_t) : Alone incoming t t
  | step {t t₁ t' : tunnel_t} : handle_read t .api incoming = some t₁ → Alone incoming t₁ t' →
      Alone incoming t t'

/-- A step of the handler before a run of its steps. -/
theorem run_step {incoming : Except error_t (address_t × List UInt8)} {t t₁ t' : tunnel_t} {n : Nat}
    (hread : handle_read t .api incoming = some t₁)
    (hrun : tunnel_run (List.replicate n (.listener .api incoming)) t₁ = some t') :
    tunnel_run (List.replicate (n + 1) (.listener .api incoming)) t = some t' := by
  unfold tunnel_run at hrun ⊢
  rw [List.replicate_succ, List.foldlM_cons]
  simp only [tunnel_turn, hread, Option.bind_eq_bind, Option.bind_some]
  exact hrun

theorem Alone.run {incoming : Except error_t (address_t × List UInt8)} {t t' : tunnel_t}
    (h : Alone incoming t t') :
    ∃ n, tunnel_run (List.replicate n (.listener .api incoming)) t = some t' := by
  induction h with
  | done t => exact ⟨0, rfl⟩
  | step hread hsteps ih =>
    obtain ⟨n, hrun⟩ := ih
    exact ⟨n + 1, run_step hread hrun⟩

/-! ## A message that is sent -/

section

variable {δ φ : Type} {w : worker_t δ φ} {capacity i : Nat} {free queued : List Nat}

/-- A call of `worker_send` that no other thread comes between. -/
theorem send_alone (h : Holds w capacity free queued) (hcap : capacity + 1 < 2 ^ 64)
    (hi : w.senders[i]? = some .outside) (hfree : 0 < queue_size w.pool) (message : message_t δ φ) :
    ∃ w₁ w₂ w₃ w', worker_send w i message = some (none, w₁) ∧
      worker_send w₁ i message = some (none, w₂) ∧ worker_send w₂ i message = some (none, w₃) ∧
      worker_send w₃ i message = some (some true, w') ∧
      worker_message_count w' = worker_message_count w + 1 ∧
      queue_size w'.pool = queue_size w.pool - 1 ∧ w'.pushed = w.pushed ++ [message] := by
  have hlt := (List.getElem?_eq_some_iff.mp hi).1
  have hlen := h.length
  have hcount := h.count
  rw [h.pool.size] at hfree
  obtain ⟨m, free, rfl⟩ := List.exists_cons_of_length_pos hfree
  rw [List.length_cons] at hlen
  obtain ⟨pool, hpop, hpool, -⟩ := pop_first h.pool
  obtain ⟨mq, hpush, hmq, -⟩ := push_room h.mq (by rw [h.mq_capacity]; omega) m
  have hevent : w.eventfd + 1 ≤ EVENTFD_MAX := by
    unfold EVENTFD_MAX
    omega
  have hset : ∀ sender : sender_t δ φ, (w.senders.set i sender)[i]? = some sender := fun sender =>
    List.getElem?_set_self hlt
  let w₁ : worker_t δ φ := { w with pool, senders := w.senders.set i (.filling message m) }
  let w₂ : worker_t δ φ := { w₁ with
    messages := w.messages.set m (some message), senders := w.senders.set i (.pushing message m) }
  let w₃ : worker_t δ φ := { w₂ with
    mq, pushed := w.pushed ++ [message], senders := w.senders.set i (.writing message) }
  let w' : worker_t δ φ := { w₃ with
    eventfd := w.eventfd + 1, senders := w.senders.set i .outside }
  refine ⟨w₁, w₂, w₃, w', ?_, ?_, ?_, ?_, ?_, ?_, rfl⟩
  · unfold worker_send pool_new
    simp only [hi, hpop, Option.bind_eq_bind, Option.bind_some]
    rfl
  · unfold worker_send
    simp only [w₁, hset, List.set_set]
    rfl
  · unfold worker_send
    simp only [w₂, w₁, hset, hpush, List.set_set]
    rfl
  · unfold worker_send
    simp only [w₃, w₂, w₁, hset, hevent, if_true, List.set_set]
    rfl
  · change queue_size mq = queue_size w.mq + 1
    rw [hmq.size, h.mq.size, List.length_append, List.length_singleton]
  · change queue_size pool = queue_size w.pool - 1
    rw [hpool.size, h.pool.size, List.length_cons, Nat.add_sub_cancel]

/-- Without a free message it gives up at once. -/
theorem send_refused (hi : w.senders[i]? = some .outside) (hfree : ¬0 < queue_size w.pool)
    (message : message_t δ φ) :
    worker_send w i message = some (some false, w) := by
  unfold worker_send pool_new
  rw [hi]
  simp only [show queue_pop w.pool = none from if_pos (by omega)]

end

/-! ## The handler -/

section

variable {t : tunnel_t} {capacity : side → Nat} {mq_capacity b : Nat}
  {incoming : Except error_t (address_t × List UInt8)}

theorem set_listener_twice (t : tunnel_t) (s : side) (l l' : nt_listener_t) :
    set_listener (set_listener t s l) s l' = set_listener t s l' := by
  unfold set_listener
  rw [Function.update_idem]

/-- A buffer that is freed leaves the rest as it was. -/
theorem freeing_alone (h : Owned t capacity mq_capacity [])
    (hhandler : (t.listeners .api).handler = .freeing b)
    (incoming : Except error_t (address_t × List UInt8)) :
    ∃ t', Alone incoming t t' ∧ (t'.listeners .api).handler = .outside ∧
      (t'.listeners .api).workers = (t.listeners .api).workers ∧
      (t'.listeners .api).last_processor = (t.listeners .api).last_processor ∧ t'.perf = t.perf := by
  obtain ⟨t', hread, -⟩ := freeing_step h hhandler incoming
  refine ⟨t', .step hread (.done t'), ?_⟩
  unfold handle_read at hread
  simp only [hhandler, buffer_free, set_listener_self, Option.bind_eq_bind,
    Option.bind_eq_some_iff] at hread
  obtain ⟨pool, -, pool', -, heq⟩ := hread
  obtain rfl := Option.some.inj heq
  rw [set_listener_self]
  exact ⟨rfl, rfl, rfl, rfl⟩

/-- The call of `worker_send`, and the buffer freed if that fails. -/
theorem sending_alone (h : Owned t capacity mq_capacity []) (hcap : mq_capacity + 1 < 2 ^ 64)
    {i : Nat} (hhandler : (t.listeners .api).handler = .sending b i)
    {w : worker_t pool_buffer_t worker_free_t} (hi : (t.listeners .api).workers[i]? = some w)
    (hsender : w.senders[0]? = some .outside)
    (incoming : Except error_t (address_t × List UInt8)) :
    ∃ t', Alone incoming t t' ∧ (t'.listeners .api).handler = .outside ∧
      (t'.listeners .api).last_processor = (t.listeners .api).last_processor ∧
      if 0 < queue_size w.pool then
        t'.perf = t.perf ∧ t'.memory = t.memory ∧ ∃ w',
          (t'.listeners .api).workers = (t.listeners .api).workers.set i w' ∧
          encoder_mq w' = ⟨worker_message_count w + 1, queue_size w.pool - 1⟩ ∧
          w'.pushed = w.pushed ++ [⟨⟨.api, b⟩, .pool_free⟩]
      else t'.perf = perf_inc t.perf .COUNTER_ENCODER_BUSY 1 ∧
        (t'.listeners .api).workers = (t.listeners .api).workers := by
  have hlt := (List.getElem?_eq_some_iff.mp hi).1
  have hsame : (t.listeners .api).workers.set i w = (t.listeners .api).workers := by
    obtain ⟨_, hget⟩ := List.getElem?_eq_some_iff.mp hi
    rw [← hget, List.set_getElem_self]
  obtain ⟨free, queued, hholds⟩ := (h.listens .api).workers w (List.mem_of_getElem? hi)
  by_cases hfree : 0 < queue_size w.pool
  · obtain ⟨w₁, w₂, w₃, w', hsend₁, hsend₂, hsend₃, hsend, hcount, hpool, hpushed⟩ :=
      send_alone hholds hcap hsender hfree ⟨⟨.api, b⟩, .pool_free⟩
    -- The listener with another worker at the place that the handler sends to.
    let at_worker (v : worker_t pool_buffer_t worker_free_t) : tunnel_t :=
      set_listener t .api { t.listeners .api with workers := (t.listeners .api).workers.set i v }
    have hnext : ∀ {v v' : worker_t pool_buffer_t worker_free_t},
        worker_send v 0 ⟨⟨.api, b⟩, .pool_free⟩ = some (none, v') →
          handle_read (at_worker v) .api incoming = some (at_worker v') := fun {v v'} hsend => by
      refine (handle_read_sending (i := i) (w := v) (b := b) ?_ ?_ hsend incoming).trans ?_
      · simp only [at_worker, set_listener_self, hhandler]
      · simp only [at_worker, set_listener_self]
        exact List.getElem?_set_self hlt
      · simp only [at_worker, set_listener_self, set_listener_twice, List.set_set]
    have hstart : at_worker w = t := by
      simp only [at_worker, hsame]
      exact congrArg (fun listeners => { t with listeners }) (Function.update_eq_self _ _)
    have hlast := handle_read_sending (t := at_worker w₃) (s := .api) (i := i) (w := w₃) (b := b)
      (by simp only [at_worker, set_listener_self, hhandler])
      (by simp only [at_worker, set_listener_self]; exact List.getElem?_set_self hlt) hsend incoming
    refine ⟨_, .step (hstart ▸ hnext hsend₁) (.step (hnext hsend₂) (.step (hnext hsend₃)
      (.step hlast (.done _)))), ?_⟩
    simp only [at_worker, set_listener_self, set_listener_twice, List.set_set, if_pos hfree]
    refine ⟨trivial, trivial, rfl, rfl, w', rfl, ?_, hpushed⟩
    rw [encoder_mq, hcount, hpool]
  · have hsend := send_refused hsender hfree (⟨⟨.api, b⟩, .pool_free⟩ : message_t _ _)
    have hread := handle_read_sending hhandler hi hsend incoming
    obtain ⟨t₁, hread', howned⟩ := sending_step h hcap hhandler incoming
    obtain rfl := Option.some.inj (hread.symm.trans hread')
    obtain ⟨t', hsteps, houtside, hworkers, hlast, hperf⟩ :=
      freeing_alone (b := b) howned (by rw [set_listener_self]) incoming
    rw [set_listener_self] at hworkers hlast
    refine ⟨t', .step hread hsteps, houtside, hlast, ?_⟩
    rw [if_neg hfree]
    exact ⟨hperf, hworkers.trans hsame⟩

/-- The worker that the handler chooses is the one that the function chooses. -/
theorem message_count_eq (workers : List (worker_t pool_buffer_t worker_free_t)) (i : Nat) :
    ((workers.map encoder_mq).getD i ⟨0, 0⟩).message_count =
      (workers.map worker_message_count).getD i 0 := by
  rw [List.getD_eq_getElem?_getD, List.getD_eq_getElem?_getD, List.getElem?_map, List.getElem?_map]
  cases workers[i]? <;> rfl

/-- A datagram is read, and its message dispatched or its buffer freed. -/
theorem receiving_alone (h : Owned t capacity mq_capacity []) (hcap : mq_capacity + 1 < 2 ^ 64)
    (hhandler : (t.listeners .api).handler = .receiving b)
    (incoming : Except error_t (address_t × List UInt8)) :
    ∃ t' context sent, nt_api_handle_read (listener_context (t.listeners .api) t.perf)
        (t.listeners .api).max_buffer_size (some (t.memory ⟨.api, b⟩)) incoming = (context, sent) ∧
      Alone incoming t t' ∧ (t'.listeners .api).handler = .outside ∧
      listener_context (t'.listeners .api) t'.perf = context ∧ Dispatches t t' b sent := by
  obtain ⟨t₁, hread, howned⟩ := receiving_step h hhandler incoming
  -- What the handler has read, the counters then and the listener, as they are in the next state.
  obtain ⟨buffer, perf, l, hstep⟩ : ∃ buffer perf l, api_handle_read (t.listeners .api) t.perf b
      (t.memory ⟨.api, b⟩) incoming = (buffer, perf, l) := ⟨_, _, _, rfl⟩
  have hnext : t₁ = set_listener
      { t with memory := Function.update t.memory ⟨.api, b⟩ buffer, perf } .api l := by
    unfold handle_read at hread
    simp only [hhandler, hstep] at hread
    exact (Option.some.inj hread).symm
  have hlistener : t₁.listeners .api = l := by rw [hnext, set_listener_self]
  have hperf : t₁.perf = perf := by rw [hnext]; rfl
  have hfailed : ∀ perf', perf' = perf → l = { t.listeners .api with handler := .freeing b } →
      ∃ t', Alone incoming t t' ∧ (t'.listeners .api).handler = .outside ∧
        listener_context (t'.listeners .api) t'.perf = listener_context (t.listeners .api) perf' ∧
        Dispatches t t' b none := by
    rintro _ rfl rfl
    obtain ⟨t', hsteps, houtside, hworkers, hlast, hperf'⟩ :=
      freeing_alone (b := b) howned (by rw [hlistener]) incoming
    rw [hlistener] at hworkers hlast
    refine ⟨t', .step hread hsteps, houtside, ?_, hworkers⟩
    unfold listener_context
    rw [hworkers, hlast, hperf', hperf]
  unfold api_handle_read at hstep
  unfold nt_api_handle_read
  rcases incoming with err | ⟨src, datagram⟩
  · obtain ⟨rfl, rfl, rfl⟩ : _ ∧ _ ∧ _ := by simpa only [Prod.mk.injEq] using hstep
    obtain ⟨t', ht'⟩ := hfailed _ rfl rfl
    exact ⟨t', _, _, rfl, ht'⟩
  · simp only at hstep ⊢
    cases haccept : api_accept (udp_recvfrom (t.memory ⟨.api, b⟩)
        (t.listeners .api).max_buffer_size datagram).1 src
        (udp_recvfrom (t.memory ⟨.api, b⟩) (t.listeners .api).max_buffer_size datagram).2 with
    | none =>
      rw [haccept] at hstep
      obtain ⟨rfl, rfl, rfl⟩ : _ ∧ _ ∧ _ := by simpa only [Prod.mk.injEq] using hstep
      obtain ⟨t', ht'⟩ := hfailed _ rfl rfl
      exact ⟨t', _, _, rfl, ht'⟩
    | some accepted =>
      obtain ⟨v1, message⟩ := accepted
      rw [haccept] at hstep
      simp only at hstep ⊢
      by_cases hnull : (t.listeners .api).workers = []
      · rw [if_pos hnull] at hstep
        obtain ⟨rfl, rfl, rfl⟩ : _ ∧ _ ∧ _ := by simpa only [Prod.mk.injEq] using hstep
        obtain ⟨t', ht'⟩ := hfailed _ rfl rfl
        refine ⟨t', _, _, ?_, ht'⟩
        simp only [listener_context, if_pos hnull]
      · rw [if_neg hnull] at hstep
        obtain ⟨rfl, rfl, rfl⟩ : _ ∧ _ ∧ _ := by simpa only [Prod.mk.injEq] using hstep
        simp only [listener_context, if_neg hnull, List.length_map]
        rw [message_count_eq _ (t.listeners .api).last_processor]
        generalize (if ((t.listeners .api).workers.map worker_message_count).getD
          (t.listeners .api).last_processor 0 ≠ 0 then ((t.listeners .api).last_processor + 1) %
            (t.listeners .api).workers.length else (t.listeners .api).last_processor) = i at hlistener ⊢
        have hsending : (t₁.listeners .api).handler = .sending b i := by rw [hlistener]
        have hlt := (howned.listens .api).sending b i hsending
        have hworkers : (t₁.listeners .api).workers = (t.listeners .api).workers := by rw [hlistener]
        obtain ⟨w, hw⟩ : ∃ w, (t₁.listeners .api).workers[i]? = some w :=
          ⟨_, List.getElem?_eq_getElem hlt⟩
        have hidle : ∀ b' j, (t.listeners .api).handler ≠ .sending b' j := by
          intro b' j
          simp [hhandler]
        have hsender := (h.listens .api).not_sending hidle (hworkers ▸ hw)
        obtain ⟨t', hsteps, houtside, hlast, hcases⟩ :=
          sending_alone howned hcap hsending hw hsender (.ok (src, datagram))
        have hmq : ((t.listeners .api).workers.map encoder_mq).getD i ⟨0, 0⟩ = encoder_mq w := by
          rw [List.getD_eq_getElem?_getD, List.getElem?_map, ← hworkers, hw]
          rfl
        rw [hmq]
        by_cases hfree : 0 < queue_size w.pool
        · rw [if_pos hfree] at hcases
          obtain ⟨hperf', hmemory, w', hset, hshows, hpushed⟩ := hcases
          rw [hworkers] at hset
          have hsome : (t'.listeners .api).workers ≠ [] := by
            apply List.ne_nil_of_length_pos
            rw [hset, List.length_set]
            exact List.length_pos_iff.mpr hnull
          refine ⟨t', _, _, if_pos hfree, .step hread hsteps, houtside, ?_, ?_, w, w', hworkers ▸ hw,
            hset, hpushed⟩
          · rw [if_neg hsome, hset, List.map_set, hshows, hlast, hlistener, hperf', hperf]
            rfl
          · rw [hmemory, hnext]
            exact Function.update_self _ _ _
        · rw [if_neg hfree] at hcases
          obtain ⟨hperf', hsame⟩ := hcases
          rw [hworkers] at hsame
          refine ⟨t', _, _, if_neg hfree, .step hread hsteps, houtside, ?_, hsame⟩
          rw [hsame, if_neg hnull, hlast, hlistener, hperf', hperf]

/-- From the pool to the worker, or back into the pool. -/
theorem outside_alone (h : Owned t capacity mq_capacity [])
    (hcap : mq_capacity + 1 < 2 ^ 64) (houtside : (t.listeners .api).handler = .outside)
    (incoming : Except error_t (address_t × List UInt8)) :
    ∃ n t' b context sent, nt_api_handle_read (listener_context (t.listeners .api) t.perf)
        (t.listeners .api).max_buffer_size
        ((next_buffer (t.listeners .api)).map fun b => t.memory ⟨.api, b⟩) incoming = (context, sent) ∧
      tunnel_run (List.replicate (n + 1) (.listener .api incoming)) t = some t' ∧
      (t'.listeners .api).handler = .outside ∧
      listener_context (t'.listeners .api) t'.perf = context ∧ Dispatches t t' b sent := by
  obtain ⟨t₁, hread, howned⟩ := outside_step h houtside incoming
  obtain ⟨pool, values, hpool, hqueued, -⟩ := (h.listens .api).pool
  have hstep := hread
  unfold handle_read pool_new at hstep
  cases values with
  | nil =>
    simp only [houtside, hpool, pop_empty hqueued, Option.bind_eq_bind, Option.bind_some] at hstep
    obtain rfl := Option.some.inj hstep
    have hnone : next_buffer (t.listeners .api) = none := by
      unfold next_buffer pool_new
      simp only [hpool, pop_empty hqueued, Option.bind_eq_bind, Option.bind_some]
      rfl
    rw [hnone]
    exact ⟨0, t, 0, _, _, rfl, run_step hread rfl, houtside, rfl, rfl⟩
  | cons b values =>
    obtain ⟨pool', hpop, -⟩ := pop_first hqueued
    simp only [houtside, hpool, hpop, Option.bind_eq_bind, Option.bind_some] at hstep
    have hsome : next_buffer (t.listeners .api) = some b := by
      unfold next_buffer pool_new
      simp only [hpool, hpop, Option.bind_eq_bind, Option.bind_some]
    rw [hsome]
    obtain rfl := Option.some.inj hstep
    obtain ⟨t', context, sent, heq, hsteps, houtside', hcontext, hsent⟩ :=
      receiving_alone (b := b) howned hcap (by rw [set_listener_self]) incoming
    obtain ⟨n, hrun⟩ := hsteps.run
    refine ⟨n, t', b, context, sent, ?_, run_step hread hrun, houtside', hcontext, ?_⟩
    · rw [set_listener_self] at heq
      exact heq
    · unfold Dispatches at hsent ⊢
      rw [set_listener_self] at hsent
      exact hsent

end

/-- After any interleaving, what the handler does with a datagram, if nothing comes between, is what
`nt_api_handle_read` does: it leaves the same counters, queues and place to go on from, and the message
of the function is in the buffer that its worker gets. -/
theorem the_handler_is_one_function {pool_capacity max_buffer_size : side → Nat}
    (hpool : ∀ s, 0 < pool_capacity s) {processor_num mq_capacity : Nat}
    (hcap : mq_capacity + 1 < 2 ^ 64) {memory : pool_buffer_t → List UInt8} {threads : List thread}
    {t : tunnel_t} (hrun : tunnel_run threads
      (tunnel_init pool_capacity max_buffer_size processor_num mq_capacity memory) = some t)
    (houtside : (t.listeners .api).handler = .outside)
    (incoming : Except error_t (address_t × List UInt8)) :
    ∃ n t' b context sent, nt_api_handle_read (listener_context (t.listeners .api) t.perf)
        (t.listeners .api).max_buffer_size
        ((next_buffer (t.listeners .api)).map fun b => t.memory ⟨.api, b⟩) incoming = (context, sent) ∧
      tunnel_run (List.replicate (n + 1) (.listener .api incoming)) t = some t' ∧
      (t'.listeners .api).handler = .outside ∧
      listener_context (t'.listeners .api) t'.perf = context ∧ Dispatches t t' b sent := by
  obtain ⟨t', hrun', howned⟩ := run_owned
    (init_owned hpool max_buffer_size processor_num mq_capacity memory) hcap threads
  obtain rfl := Option.some.inj (hrun.symm.trans hrun')
  exact outside_alone howned hcap houtside incoming

/-- A message of one byte is with the encoder when the handler is outside again. -/
theorem the_handler_is_one_function_one : ∃ n t',
    tunnel_run (List.replicate (n + 1) (.listener .api (.ok (.addr_in 5 6, [87, 0, 0, 0, 1, 0, 0, 0, 0,
      0, 0, 9, 0, 0, 0, 7, 0, 0, 1, 42])))) (tunnel_init (fun _ => 2) (fun _ => 64) 1 2 fun _ => []) =
        some t' ∧
      (t'.listeners .api).handler = .outside ∧ ∃ w b,
        (t'.listeners .api).workers = [w] ∧ w.pushed = [⟨⟨.api, b⟩, .pool_free⟩] ∧
        t'.memory ⟨.api, b⟩ = [87, 0, 0, 0, 1, 5, 0, 0, 0, 6, 0, 9, 0, 0, 0, 7, 0, 0, 1, 42] := by
  obtain ⟨n, t', b, context, sent, hread, hrun, houtside, -, hsent⟩ := the_handler_is_one_function
    (fun _ => Nat.two_pos) (by decide : 2 + 1 < 2 ^ 64)
    (show tunnel_run [] (tunnel_init (fun _ => 2) (fun _ => 64) 1 2 fun _ => []) = some _ from rfl) rfl
    (.ok (.addr_in 5 6, [87, 0, 0, 0, 1, 0, 0, 0, 0,
      0, 0, 9, 0, 0, 0, 7, 0, 0, 1, 42]))
  obtain rfl : some (0, [87, 0, 0, 0, 1, 5, 0, 0, 0, 6, 0, 9, 0, 0, 0, 7, 0, 0, 1, 42]) = sent :=
    Eq.trans (by decide +kernel) (congrArg Prod.snd hread)
  obtain ⟨hmemory, w, w', hw, hset, hpushed⟩ := hsent
  obtain rfl : worker_init 2 1 = w := Option.some.inj hw
  exact ⟨n, t', hrun, houtside, w', b, hset, hpushed, hmemory⟩

end nettle.nt_listener
