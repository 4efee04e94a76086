-- Where the datagrams of the listeners go. Every buffer that a handler takes is
-- counted once when it is filled, and then refused by a worker, which is counted
-- too, or pushed to it; the worker passes on what was pushed in its turn.
import Nettle.ListenerMessages

open nettle.nt_fec nettle.udp nettle.worker

namespace nettle.nt_listener

/-! ## The counters of a side -/

def received : side → counter
  | .api => .COUNTER_API_RECEIVED
  | .tun => .COUNTER_TUN_RECEIVED

def receive_error : side → counter
  | .api => .COUNTER_API_RECEIVE_ERROR
  | .tun => .COUNTER_TUN_RECEIVE_ERROR

def side_counters (s : side) : List counter := [received s, receive_error s, busy s]

/-- The counters of one side are none of the other. -/
theorem side_counters_apart {r s : side} (h : r ≠ s) {name : counter} (hname : name ∈ side_counters r) :
    name ∉ side_counters s := by
  revert hname
  cases r <;> cases s <;> cases name <;> simp_all [side_counters, received, receive_error, busy]

/-! ## The books of a side -/

/-- The buffers that were taken out of the pool of a side. -/
def taken_from (t : tunnel_t) (s : side) : Nat := t.taken.countP fun x => x.pool = s

/-- The handler is about to read a datagram. -/
def reading (l : nt_listener_t) : Nat :=
  match l.handler with
  | .receiving _ => 1
  | _ => 0

/-- The handler has a datagram that it has still to push. -/
def unsent (l : nt_listener_t) : Nat :=
  match l.handler with
  | .sending _ w => if told l w then 0 else 1
  | _ => 0

def pushes (l : nt_listener_t) : Nat := (l.workers.map fun w => w.pushed.length).sum

structure Counted (t : tunnel_t) (s : side) : Prop where
  workers : (t.listeners s).workers ≠ []
  taken : taken_from t s = t.perf (received s) + t.perf (receive_error s) + reading (t.listeners s)
  pushed : t.perf (received s) = t.perf (busy s) + pushes (t.listeners s) + unsent (t.listeners s)

/-- The books stay right when no counter changes, and no buffer is taken or filled. -/
theorem Counted.frame {t t' : tunnel_t} {s : side} (h : Counted t s)
    (hworkers : (t'.listeners s).workers.length = (t.listeners s).workers.length)
    (hreading : reading (t'.listeners s) = reading (t.listeners s))
    (hpushes : pushes (t'.listeners s) + unsent (t'.listeners s) =
      pushes (t.listeners s) + unsent (t.listeners s))
    (htaken : taken_from t' s = taken_from t s)
    (hperf : ∀ name ∈ side_counters s, t'.perf name = t.perf name) : Counted t' s := by
  have hreceived := hperf (received s) (by simp [side_counters])
  have herror := hperf (receive_error s) (by simp [side_counters])
  have hbusy := hperf (busy s) (by simp [side_counters])
  refine ⟨?_, ?_, ?_⟩
  · rw [← List.length_pos_iff, hworkers]
    exact List.length_pos_iff.mpr h.workers
  · rw [htaken, hreceived, herror, hreading, h.taken]
  · rw [hreceived, hbusy, Nat.add_assoc, hpushes, ← Nat.add_assoc, h.pushed]

/-- The books of a side do not change with what the other side does. -/
theorem Counted.other {t t' : tunnel_t} {s : side} (h : Counted t s)
    (hlistener : t'.listeners s = t.listeners s) (htaken : taken_from t' s = taken_from t s)
    (hperf : ∀ name ∈ side_counters s, t'.perf name = t.perf name) : Counted t' s :=
  h.frame (by rw [hlistener]) (by rw [hlistener]) (by rw [hlistener]) htaken hperf

/-! ## Reading a datagram -/

/-- What a handler counts when it reads, and how it goes on. -/
structure Reads (s : side) (l : nt_listener_t) (perf : perf_t) (b : Nat) (perf' : perf_t)
    (l' : nt_listener_t) : Prop where
  workers : l'.workers = l.workers
  others : ∀ name ∉ side_counters s, name ∈ side_counters .api ++ side_counters .tun →
    perf' name = perf name
  busy : perf' (busy s) = perf (busy s)
  goes_on : (l'.handler = .freeing b ∧ perf' (received s) = perf (received s) ∧
      perf' (receive_error s) = perf (receive_error s) + 1) ∨
    ((∃ w, l'.handler = .sending b w) ∧ perf' (received s) = perf (received s) + 1 ∧
      perf' (receive_error s) = perf (receive_error s))

theorem api_reads {l : nt_listener_t} (hworkers : l.workers ≠ []) (perf : perf_t) (b : Nat)
    (buffer : List UInt8) (incoming : Except error_t (address_t × List UInt8)) :
    Reads .api l perf b (api_handle_read l perf b buffer incoming).2.1
      (api_handle_read l perf b buffer incoming).2.2 := by
  have hfailure : Reads .api l perf b (perf_inc perf .COUNTER_API_RECEIVE_ERROR 1)
      { l with handler := .freeing b } := by
    refine ⟨rfl, fun name hname _ => ?_, rfl, .inl ⟨rfl, rfl, rfl⟩⟩
    exact Function.update_of_ne (fun h => hname (by simp [h, side_counters, receive_error])) _ _
  unfold api_handle_read
  rcases incoming with err | ⟨src, datagram⟩
  · exact hfailure
  · simp only
    split
    · exact hfailure
    · rw [if_neg hworkers]
      refine ⟨rfl, fun name hname hmem => ?_, ?_, .inr ⟨⟨_, rfl⟩, ?_, ?_⟩⟩
      · split <;> revert hname hmem <;> cases name <;>
          simp [side_counters, received, receive_error, busy, perf_inc]
      all_goals split <;> rfl

theorem tun_reads {l : nt_listener_t} (hworkers : l.workers ≠ []) (perf : perf_t) (b : Nat)
    (buffer : List UInt8) (incoming : Except error_t (address_t × List UInt8)) :
    Reads .tun l perf b (tun_handle_read l perf b buffer incoming).2.1
      (tun_handle_read l perf b buffer incoming).2.2 := by
  have hfailure : Reads .tun l perf b (perf_inc perf .COUNTER_TUN_RECEIVE_ERROR 1)
      { l with handler := .freeing b } := by
    refine ⟨rfl, fun name hname _ => ?_, rfl, .inl ⟨rfl, rfl, rfl⟩⟩
    exact Function.update_of_ne (fun h => hname (by simp [h, side_counters, receive_error])) _ _
  unfold tun_handle_read
  rcases incoming with err | ⟨src, datagram⟩
  · exact hfailure
  · simp only [if_neg hworkers]
    split
    · exact hfailure
    · refine ⟨rfl, fun name hname hmem => ?_, rfl, .inr ⟨⟨_, rfl⟩, rfl, rfl⟩⟩
      revert hname hmem
      cases name <;> simp [side_counters, received, receive_error, busy, perf_inc]

/-! ## One step -/

section

variable {t t' : tunnel_t} {capacity : side → Nat} {mq_capacity : Nat} {s : side}

theorem sum_set_add {xs : List Nat} {i x : Nat} (h : xs[i]? = some x) (y : Nat) :
    (xs.set i y).sum + x = xs.sum + y := by
  induction xs generalizing i with
  | nil => cases h
  | cons a xs ih =>
    cases i with
    | zero =>
      obtain rfl := Option.some.inj h
      simp only [List.set_cons_zero, List.sum_cons]
      omega
    | succ i =>
      have hrest := ih (i := i) h
      simp only [List.set_cons_succ, List.sum_cons]
      omega

theorem pushes_set {l : nt_listener_t} {i : Nat} {w : worker_t pool_buffer_t worker_free_t}
    (hi : l.workers[i]? = some w) (w' : worker_t pool_buffer_t worker_free_t) (handler : handler_t) :
    pushes { l with workers := l.workers.set i w', handler } + w.pushed.length =
      pushes l + w'.pushed.length := by
  unfold pushes
  simp only [List.map_set]
  refine sum_set_add ?_ _
  rw [List.getElem?_map, hi]
  rfl

/-- Where a buffer is freed does not matter. -/
theorem Counted.buffer_free (h : Counted t s) {x : pool_buffer_t}
    (hfree : buffer_free t x = some t') : Counted t' s := by
  simp only [nt_listener.buffer_free, Option.bind_eq_bind, Option.bind_eq_some_iff] at hfree
  obtain ⟨pool, -, pool', -, heq⟩ := hfree
  obtain rfl := Option.some.inj heq
  by_cases hs : s = x.pool
  · subst hs
    refine h.frame ?_ ?_ ?_ rfl fun _ _ => rfl <;> rw [set_listener_self] <;> rfl
  · exact h.other (set_listener_ne _ hs _) rfl fun _ _ => rfl

/-- A handler that has taken a buffer is going to read. -/
theorem counted_outside (h : ∀ r, Counted t r) (hhandler : (t.listeners s).handler = .outside)
    {incoming : Except error_t (address_t × List UInt8)} (hread : handle_read t s incoming = some t')
    (r : side) : Counted t' r := by
  unfold handle_read at hread
  simp only [hhandler, Option.bind_eq_bind, Option.bind_eq_some_iff] at hread
  obtain ⟨pool, -, hread⟩ := hread
  split at hread
  · obtain rfl := Option.some.inj hread
    exact h r
  · obtain ⟨b, -, heq⟩ := Option.bind_eq_some_iff.mp hread
    obtain rfl := Option.some.inj heq
    by_cases hr : r = s
    · subst hr
      obtain ⟨hworkers, htaken, hpushed⟩ := h r
      unfold taken_from reading at htaken
      unfold unsent at hpushed
      simp only [hhandler] at htaken hpushed
      refine ⟨?_, ?_, ?_⟩
      · rw [set_listener_self]
        exact hworkers
      · unfold taken_from reading
        simp only [set_listener_self]
        simp only [set_listener, List.countP_append, List.countP_singleton, decide_true, if_true, htaken]
      · unfold unsent
        simp only [set_listener_self]
        exact hpushed
    · refine (h r).other (set_listener_ne _ hr _) ?_ fun _ _ => rfl
      unfold taken_from set_listener
      simp [Ne.symm hr]

/-- A handler that has read its datagram counts it. -/
theorem counted_receiving (h : ∀ r, Counted t r) (howned : Owned t capacity mq_capacity []) {b : Nat}
    (hhandler : (t.listeners s).handler = .receiving b)
    {incoming : Except error_t (address_t × List UInt8)} (hread : handle_read t s incoming = some t')
    (r : side) : Counted t' r := by
  have hl := howned.listens s
  have hnot : ∀ b' k, (t.listeners s).handler ≠ .sending b' k := fun b' k hk => by
    rw [hhandler] at hk
    cases hk
  obtain ⟨buffer, perf, l', ht', hreads, hreceives⟩ : ∃ buffer perf l',
      handle_read t s incoming = some (set_listener { t with
        memory := Function.update t.memory ⟨s, b⟩ buffer, perf } s l') ∧
      Reads s (t.listeners s) t.perf b perf l' ∧ Receives (t.listeners s) b l' := by
    unfold handle_read
    simp only [hhandler]
    cases s with
    | api => exact ⟨_, _, _, rfl, api_reads (h .api).workers _ _ _ _, api_receives hl.last _ _ _ _⟩
    | tun => exact ⟨_, _, _, rfl, tun_reads (h .tun).workers _ _ _ _, tun_receives hl.last _ _ _ _⟩
  rw [ht', Option.some.injEq] at hread
  subst hread
  by_cases hr : r = s
  · subst hr
    obtain ⟨hworkers, htaken, hpushed⟩ := h r
    unfold reading at htaken
    unfold unsent at hpushed
    simp only [hhandler] at htaken hpushed
    have hpushes : pushes l' = pushes (t.listeners r) := by
      unfold pushes
      rw [hreads.workers]
    rcases hreads.goes_on with ⟨hfreeing, hreceived, herror⟩ | ⟨⟨w, hsending⟩, hreceived, herror⟩
    · refine ⟨?_, ?_, ?_⟩
      · rw [set_listener_self, hreads.workers]
        exact hworkers
      · unfold reading
        simp only [set_listener_self, hfreeing]
        exact htaken.trans (by rw [show (set_listener _ r l').perf = perf from rfl, hreceived, herror]; omega)
      · unfold unsent
        simp only [set_listener_self, hfreeing]
        rw [show (set_listener _ r l').perf = perf from rfl, hreceived, hreads.busy, hpushes]
        exact hpushed
    · have htold : told l' w = false := by
        rcases hreceives.handler with hfreeing | ⟨k, hk, hsending'⟩
        · rw [hfreeing] at hsending
          cases hsending
        · obtain ⟨-, rfl⟩ := handler_t.sending.inj (hsending'.symm.trans hsending)
          have hw := (congrArg (·[k]?) hreceives.workers).trans (List.getElem?_eq_getElem hk)
          rw [told_eq hw (hl.not_sending hnot (List.getElem?_eq_getElem hk))]
          rfl
      refine ⟨?_, ?_, ?_⟩
      · rw [set_listener_self, hreads.workers]
        exact hworkers
      · unfold reading
        simp only [set_listener_self, hsending]
        exact htaken.trans (by rw [show (set_listener _ r l').perf = perf from rfl, hreceived, herror]; omega)
      · unfold unsent
        simp only [set_listener_self, hsending, htold]
        rw [show (set_listener _ r l').perf = perf from rfl, hreceived, hreads.busy, hpushes, hpushed]
        rfl
  · refine (h r).other (set_listener_ne _ hr _) rfl fun name hname => ?_
    refine hreads.others name (side_counters_apart hr hname) ?_
    cases r <;> simp [hname]

/-- A handler that sends to a worker has its message pushed or counts that the worker is busy. -/
theorem counted_sending (h : ∀ r, Counted t r) (howned : Owned t capacity mq_capacity [])
    (hcap : mq_capacity + 1 < 2 ^ 64) {b i : Nat} (hhandler : (t.listeners s).handler = .sending b i)
    {incoming : Except error_t (address_t × List UInt8)} (hread : handle_read t s incoming = some t')
    (r : side) : Counted t' r := by
  have hl := howned.listens s
  have hlt := hl.sending b i hhandler
  obtain ⟨w, hi⟩ : ∃ w, (t.listeners s).workers[i]? = some w := ⟨_, List.getElem?_eq_getElem hlt⟩
  obtain ⟨sender, hsender, -⟩ := hl.sender i w hi
  obtain ⟨free, queued, hholds⟩ := hl.workers w (List.mem_of_getElem? hi)
  obtain ⟨result, w', sender', more, free', queued', hsend, -, hstep, hsenders, hpushed, -⟩ :=
    send_step hholds hcap hsender ⟨⟨s, b⟩, .pool_free⟩
  have hsender' : w'.senders[0]? = some sender' := by
    rw [hsenders, List.getElem?_set_self (List.getElem?_eq_some_iff.mp hsender).1]
  have hset : ((t.listeners s).workers.set i w')[i]? = some w' := List.getElem?_set_self hlt
  have hbefore : unsent (t.listeners s) = if (sender_unwritten sender).isSome then 0 else 1 := by
    unfold unsent
    simp only [hhandler, told_eq hi hsender]
  have hafter : unsent { t.listeners s with
      workers := (t.listeners s).workers.set i w', handler := .sending b i } =
        if (sender_unwritten sender').isSome then 0 else 1 := by
    unfold unsent
    simp only [told_eq (l := { t.listeners s with
      workers := (t.listeners s).workers.set i w', handler := .sending b i }) hset hsender']
  have hpushes := fun handler => pushes_set hi w' handler
  rw [hpushed] at hpushes
  simp only [List.length_append] at hpushes
  have hkeep : { t.listeners s with workers := (t.listeners s).workers.set i w' } =
      { t.listeners s with
        workers := (t.listeners s).workers.set i w', handler := handler_t.sending b i } := by
    rw [← hhandler]
  rw [handle_read_sending hhandler hi hsend incoming] at hread
  have hreading : reading (t.listeners s) = 0 := by
    unfold reading
    simp only [hhandler]
  -- What the handler does next, if it counts nothing.
  have hgo : ∀ handler' : handler_t, reading { t.listeners s with
        workers := (t.listeners s).workers.set i w', handler := handler' } = 0 →
      more.length + unsent { t.listeners s with
        workers := (t.listeners s).workers.set i w', handler := handler' } = unsent (t.listeners s) →
      Counted (set_listener t s { t.listeners s with
        workers := (t.listeners s).workers.set i w', handler := handler' }) r := by
    intro handler' hnone hsum
    by_cases hr : r = s
    · subst hr
      refine (h r).frame ?_ ?_ ?_ rfl fun _ _ => rfl <;> rw [set_listener_self]
      · exact List.length_set
      · rw [hnone, hreading]
      · have hmoved := hpushes handler'
        simp only at hmoved hsum ⊢
        omega
    · exact (h r).other (set_listener_ne _ hr _) rfl fun _ _ => rfl
  cases hstep with
  | refused =>
    cases hread
    by_cases hr : r = s
    · subst hr
      obtain ⟨hworkers, htaken, hsum⟩ := h r
      have hmoved := hpushes (.freeing b)
      have hone : unsent (t.listeners r) = 1 := hbefore
      refine ⟨?_, ?_, ?_⟩
      · rw [set_listener_self]
        exact List.ne_nil_of_length_pos (List.length_set.trans_gt (List.length_pos_iff.mpr hworkers))
      · rw [set_listener_self]
        refine htaken.trans ?_
        rw [hreading]
        cases r <;> rfl
      · rw [set_listener_self]
        have hcount : perf_inc t.perf (busy r) 1 (received r) = t.perf (received r) := by
          cases r <;> rfl
        have hbusy : perf_inc t.perf (busy r) 1 (busy r) = t.perf (busy r) + 1 :=
          Function.update_self ..
        rw [show (set_listener { t with perf := perf_inc t.perf (busy r) 1 } r _).perf =
          perf_inc t.perf (busy r) 1 from rfl, hcount, hbusy, hsum, hone]
        simp only [List.length_nil, unsent] at hmoved ⊢
        omega
    · refine (h r).other (set_listener_ne _ hr _) rfl fun name hname => ?_
      refine Function.update_of_ne (fun heq => side_counters_apart hr hname ?_) _ _
      simp [heq, side_counters]
  | began _ m =>
    cases hread
    rw [hkeep]
    refine hgo _ rfl ?_
    rw [hafter, hbefore]
    rfl
  | filled message' _ m =>
    cases hread
    rw [hkeep]
    refine hgo _ rfl ?_
    rw [hafter, hbefore]
    rfl
  | pushed message' _ m =>
    cases hread
    rw [hkeep]
    refine hgo _ rfl ?_
    rw [hafter, hbefore]
    rfl
  | returned message' _ =>
    cases hread
    refine hgo _ rfl ?_
    rw [hbefore]
    rfl

theorem counted_freeing (h : ∀ r, Counted t r) {b : Nat}
    (hhandler : (t.listeners s).handler = .freeing b)
    {incoming : Except error_t (address_t × List UInt8)} (hread : handle_read t s incoming = some t')
    (r : side) : Counted t' r := by
  unfold handle_read at hread
  simp only [hhandler] at hread
  refine Counted.buffer_free ?_ hread
  by_cases hr : r = s
  · subst hr
    refine (h r).frame ?_ ?_ ?_ rfl fun _ _ => rfl <;> rw [set_listener_self]
    · unfold reading
      simp only [hhandler]
    · unfold unsent
      simp only [hhandler]
      rfl
  · exact (h r).other (set_listener_ne _ hr _) rfl fun _ _ => rfl

/-- A worker that goes on does not change what was pushed to it. -/
theorem counted_process (h : ∀ r, Counted t r) (howned : Owned t capacity mq_capacity []) {i : Nat}
    {left : List UInt8} (hstep : process t s i left = some t') (r : side) : Counted t' r := by
  unfold process at hstep
  cases hi : (t.listeners s).workers[i]? with
  | none =>
    simp only [hi] at hstep
    obtain rfl := Option.some.inj hstep
    exact h r
  | some w =>
    simp only [hi, Option.bind_eq_bind, Option.bind_eq_some_iff] at hstep
    obtain ⟨⟨called, w'⟩, hcallback, hstep⟩ := hstep
    obtain ⟨free, queued, hholds⟩ := (howned.listens s).workers w (List.mem_of_getElem? hi)
    obtain ⟨called', w'', free', queued', hcallback', hholds', hsenders, hpushed, -⟩ :=
      callback_step hholds
    rw [hcallback, Option.some.injEq, Prod.mk.injEq] at hcallback'
    obtain ⟨rfl, rfl⟩ := hcallback'
    have hlt := (List.getElem?_eq_some_iff.mp hi).1
    have hpushes := pushes_set hi w' (t.listeners s).handler
    rw [hpushed] at hpushes
    have htold : ∀ k, told { t.listeners s with workers := (t.listeners s).workers.set i w' } k =
        told (t.listeners s) k := by
      intro k
      unfold told
      by_cases hki : k = i
      · subst hki
        simp only [List.getElem?_set_self hlt, hi, Option.bind_some, hsenders]
      · simp only [List.getElem?_set_ne (Ne.symm hki)]
    have hset : Counted (set_listener t s
        { t.listeners s with workers := (t.listeners s).workers.set i w' }) r := by
      by_cases hr : r = s
      · subst hr
        refine (h r).frame ?_ ?_ ?_ rfl fun _ _ => rfl <;> rw [set_listener_self]
        · exact List.length_set
        · rfl
        · unfold unsent
          simp only [htold]
          exact congrArg (· + _) (Nat.add_right_cancel hpushes)
      · exact (h r).other (set_listener_ne _ hr _) rfl fun _ _ => rfl
    split at hstep
    · obtain rfl := Option.some.inj hstep
      exact hset
    · obtain rfl := Option.some.inj hstep
      exact ⟨hset.workers, hset.taken, hset.pushed⟩
    · exact hset.buffer_free hstep

/-! ## Any interleaving -/

theorem counted_init {pool_capacity max_buffer_size : side → Nat} {processor_num : Nat}
    (hprocessors : 0 < processor_num) (mq_capacity : Nat) (memory : pool_buffer_t → List UInt8) (s : side) :
    Counted (tunnel_init pool_capacity max_buffer_size processor_num mq_capacity memory) s := by
  refine ⟨?_, rfl, ?_⟩
  · exact List.ne_nil_of_length_pos (List.length_replicate.trans_gt hprocessors)
  · unfold pushes
    simp only [tunnel_init, nt_listener_init, List.map_replicate, List.sum_replicate]
    rfl

theorem counted_run {t₀ : tunnel_t} (h : ∀ r, Counted t₀ r) (howned : Owned t₀ capacity mq_capacity [])
    (hcap : mq_capacity + 1 < 2 ^ 64) {threads : List thread} (hrun : tunnel_run threads t₀ = some t) :
    (∀ r, Counted t r) ∧ Owned t capacity mq_capacity [] := by
  induction threads generalizing t₀ with
  | nil =>
    obtain rfl := Option.some.inj hrun
    exact ⟨h, howned⟩
  | cons thread threads ih =>
    unfold tunnel_run at hrun
    rw [List.foldlM_cons, Option.bind_eq_bind, Option.bind_eq_some_iff] at hrun
    obtain ⟨t₁, hturn, hrest⟩ := hrun
    cases thread with
    | listener s incoming =>
      obtain ⟨t₁', hturn', howned'⟩ := handle_read_step howned hcap s incoming
      obtain rfl := Option.some.inj (hturn'.symm.trans hturn)
      refine ih (fun r => ?_) howned' hrest
      cases hhandler : (t₀.listeners s).handler with
      | outside => exact counted_outside h hhandler hturn r
      | receiving b => exact counted_receiving h howned hhandler hturn r
      | sending b i => exact counted_sending h howned hcap hhandler hturn r
      | freeing b => exact counted_freeing h hhandler hturn r
    | worker s i left =>
      obtain ⟨t₁', hturn', howned'⟩ := process_step howned s i left
      obtain rfl := Option.some.inj (hturn'.symm.trans hturn)
      exact ih (counted_process h howned hturn) howned' hrest

/-- The messages that the workers of a listener have passed on, and those that they have not. -/
def passed (l : nt_listener_t) : Nat := (l.workers.map fun w => w.handled.length).sum

def left_over (l : nt_listener_t) : Nat := (l.workers.map fun w => (unread w).length).sum

theorem pushes_split {l : nt_listener_t} (h : Listens s l (capacity s) mq_capacity) :
    pushes l = passed l + left_over l := by
  unfold pushes passed left_over
  rw [← List.sum_map_add]
  refine congrArg List.sum (List.map_congr_left fun w hw => ?_)
  obtain ⟨free, queued, hholds⟩ := h.workers w hw
  rw [unread_pushed hholds, List.length_append]

end

/-- In any interleaving, a buffer that a listener has taken is about to be read into, or its datagram
was refused and counted, or no worker had room for it, which is counted too, or it is on its way to a
worker, or it waits there, or it was passed on. -/
theorem every_buffer_is_accounted_for {pool_capacity max_buffer_size : side → Nat}
    (hpool : ∀ s, 0 < pool_capacity s) {processor_num mq_capacity : Nat}
    (hprocessors : 0 < processor_num) (hcap : mq_capacity + 1 < 2 ^ 64)
    {memory : pool_buffer_t → List UInt8} {threads : List thread} {t : tunnel_t}
    (hrun : tunnel_run threads
      (tunnel_init pool_capacity max_buffer_size processor_num mq_capacity memory) = some t) (s : side) :
    taken_from t s = reading (t.listeners s) + t.perf (receive_error s) + t.perf (received s) ∧
    t.perf (received s) = t.perf (busy s) + unsent (t.listeners s) + left_over (t.listeners s) +
      passed (t.listeners s) := by
  obtain ⟨hcounted, howned⟩ := counted_run (counted_init hprocessors mq_capacity memory)
    (init_owned hpool max_buffer_size processor_num mq_capacity memory) hcap hrun
  have htaken := (hcounted s).taken
  have hpushed := (hcounted s).pushed
  rw [pushes_split (howned.listens s)] at hpushed
  exact ⟨by omega, by omega⟩

theorem every_buffer_is_accounted_for_two : ∃ t,
    tunnel_run (List.replicate 7 (.listener .api (.ok (.addr_in 5 6, [87, 0, 0, 0, 1, 0, 0, 0, 0,
        0, 0, 9, 0, 0, 0, 7, 0, 0, 1, 42]))) ++ List.replicate 4 (.worker .api 0 []))
      (tunnel_init (fun _ => 2) (fun _ => 64) 1 2 fun _ => []) = some t ∧
    taken_from t .api = 2 ∧ passed (t.listeners .api) = 1 ∧
    t.perf .COUNTER_API_RECEIVED = t.perf .COUNTER_ENCODER_BUSY + unsent (t.listeners .api) +
      left_over (t.listeners .api) + passed (t.listeners .api) := by
  have hrun : (tunnel_run (List.replicate 7 (.listener .api (.ok (.addr_in 5 6, [87, 0, 0, 0, 1, 0, 0, 0,
        0, 0, 0, 9, 0, 0, 0, 7, 0, 0, 1, 42]))) ++ List.replicate 4 (.worker .api 0 []))
      (tunnel_init (fun _ => 2) (fun _ => 64) 1 2 fun _ => [])).map
        (fun t => (taken_from t .api, passed (t.listeners .api))) = some (2, 1) := by
    decide +kernel
  obtain ⟨t, hrun, heq⟩ := Option.map_eq_some_iff.mp hrun
  obtain ⟨htaken, hpassed⟩ := Prod.mk.inj heq
  exact ⟨t, hrun, htaken, hpassed, (every_buffer_is_accounted_for (fun _ => Nat.two_pos) Nat.one_pos
    (by decide) hrun .api).2⟩

end nettle.nt_listener
