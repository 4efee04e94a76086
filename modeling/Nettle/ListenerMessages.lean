-- What is in the buffers of the listeners while they wait. A buffer that a
-- worker has still to read is with nobody else, so the worker reads what its
-- listener put there, in the order in which the messages were pushed.
import Nettle.ListenerBuffers

open nettle.nt_fec nettle.queue nettle.udp nettle.worker

namespace nettle.nt_listener

/-! ## The messages that are still to be read -/

section

variable {δ φ : Type} {w w' : worker_t δ φ} {capacity : Nat} {free queued : List Nat}

/-- The messages that were pushed and not yet passed to `on_message`. -/
def unread (w : worker_t δ φ) : List (message_t δ φ) :=
  (unhandled w.dispatcher ++ queue_values w.mq).filterMap (w.messages.getD · none)

theorem unread_pushed (h : Holds w capacity free queued) : w.pushed = w.handled ++ unread w := by
  have hshown := congrArg (List.filterMap id) h.pushed
  unfold unread
  rw [h.mq.values_eq]
  simpa only [List.filterMap_append, List.filterMap_map, Function.id_comp, List.filterMap_some]
    using hshown

theorem unread_init (mq_capacity sender_num : Nat) :
    unread (worker_init mq_capacity sender_num : worker_t δ φ) = [] :=
  (List.append_eq_nil_iff.mp (unread_pushed (init_holds mq_capacity sender_num)).symm).2

theorem unread_sublist (w : worker_t δ φ) : (unread w).Sublist (in_process w ++ waiting w) := by
  unfold unread in_process waiting
  rw [List.filterMap_append, List.filterMap_append]
  exact (List.sublist_append_right _ _).append (List.Sublist.refl _)

end

/-- The buffer of the running handler, if it is for worker `w` and was not pushed yet. -/
def underway (s : side) (l : nt_listener_t) (w : Nat) : List pool_buffer_t :=
  match l.handler with
  | .sending b i => if i = w ∧ told l i = false then [⟨s, b⟩] else []
  | _ => []

/-- The buffers that worker `w` has still to read. -/
def pending (s : side) (l : nt_listener_t) (w : Nat) : List pool_buffer_t :=
  (l.workers[w]?.elim [] fun worker => (unread worker).map message_t.data) ++ underway s l w

/-- The messages in them. -/
def contents (t : tunnel_t) (place : side × Nat) : List (List UInt8) :=
  (pending place.1 (t.listeners place.1) place.2).map t.memory

/-- What was noted of one worker. -/
def noted (place : side × Nat) (log : List ((side × Nat) × List UInt8)) : List (List UInt8) :=
  (log.filter fun entry => entry.1 = place).map Prod.snd

/-- What a step of a handler accepts, with the worker that it is for. -/
def accepted (t : tunnel_t) (s : side) (incoming : Except error_t (address_t × List UInt8)) :
    List ((side × Nat) × List UInt8) :=
  match (t.listeners s).handler with
  | .receiving b =>
    let read := match s with
      | .api => api_handle_read
      | .tun => tun_handle_read
    let (buffer, _, listener) := read (t.listeners s) t.perf b (t.memory ⟨s, b⟩) incoming
    match listener.handler with
    | .sending _ w => [((s, w), buffer)]
    | _ => []
  | _ => []

/-- What the next step of `callback` in worker `w` of a side passes to `on_message`. -/
def passed_on (t : tunnel_t) (s : side) (w : Nat) : Option (List UInt8) :=
  match (t.listeners s).workers[w]?.bind callback with
  | some (some (.on_message data), _) => some (t.memory data)
  | _ => none

/-! ## Nobody else has them -/

section

variable {t : tunnel_t} {capacity : side → Nat} {mq_capacity : Nat} {s : side} {l : nt_listener_t}
  {i j : Nat} {x : pool_buffer_t}

theorem mem_underway : x ∈ underway s l i ↔
    ∃ b, l.handler = .sending b i ∧ told l i = false ∧ x = ⟨s, b⟩ := by
  unfold underway
  cases h : l.handler with
  | sending b k =>
    by_cases hk : k = i ∧ told l k = false
    · obtain ⟨rfl, htold⟩ := hk
      simp [htold]
    · simp only [hk, if_false, List.not_mem_nil, handler_t.sending.injEq, false_iff]
      rintro ⟨b', ⟨-, rfl⟩, htold, -⟩
      exact hk ⟨rfl, htold⟩
  | outside => simp
  | receiving b => simp
  | freeing b => simp

theorem underway_running (h : x ∈ underway s l i) : x ∈ running s l := by
  obtain ⟨b, hhandler, htold, rfl⟩ := mem_underway.mp h
  unfold running
  simp [hhandler, htold]

theorem unread_carried {w : worker_t pool_buffer_t worker_free_t} (hi : l.workers[i]? = some w)
    (h : x ∈ (l.workers[i]?.elim [] fun worker => (unread worker).map message_t.data)) :
    x ∈ carried w := by
  rw [hi] at h
  exact ((unread_sublist w).map _).subset h

theorem pending_outstanding (h : x ∈ pending s l i) : x ∈ outstanding s l := by
  rcases List.mem_append.mp h with h | h
  · cases hi : l.workers[i]? with
    | none =>
      rw [hi] at h
      exact absurd h List.not_mem_nil
    | some w =>
      exact List.mem_append_right _ (List.mem_flatMap.mpr ⟨w, List.mem_of_getElem? hi, unread_carried hi h⟩)
  · exact List.mem_append_left _ (underway_running h)

/-- No buffer is pending twice. -/
theorem pending_nodup (h : (outstanding s l).Nodup) : (pending s l i).Nodup := by
  obtain ⟨hrunning, hcarried, hdisjoint⟩ := List.nodup_append.mp h
  refine List.nodup_append.mpr ⟨?_, ?_, fun x hx y hy heq => ?_⟩
  · cases hi : l.workers[i]? with
    | none => exact List.nodup_nil
    | some w =>
      exact ((List.nodup_flatMap.mp hcarried).1 w (List.mem_of_getElem? hi)).sublist
        ((unread_sublist w).map _)
  · unfold underway
    split
    · split
      · exact List.nodup_singleton _
      · exact List.nodup_nil
    · exact List.nodup_nil
  · subst heq
    cases hi : l.workers[i]? with
    | none =>
      rw [hi] at hx
      exact absurd hx List.not_mem_nil
    | some w =>
      exact hdisjoint x (underway_running hy) x (List.mem_flatMap.mpr
        ⟨w, List.mem_of_getElem? hi, unread_carried hi hx⟩) rfl

/-- No two workers have one buffer to read. -/
theorem pending_apart (h : (outstanding s l).Nodup) (hij : i ≠ j) (hi : x ∈ pending s l i) :
    x ∉ pending s l j := by
  obtain ⟨-, hcarried, hdisjoint⟩ := List.nodup_append.mp h
  intro hj
  have hworker : ∀ {k : Nat}, x ∈ (l.workers[k]?.elim [] fun worker =>
      (unread worker).map message_t.data) → ∃ w, l.workers[k]? = some w ∧ x ∈ carried w := by
    intro k hk
    cases hw : l.workers[k]? with
    | none =>
      rw [hw] at hk
      exact absurd hk List.not_mem_nil
    | some w => exact ⟨w, rfl, unread_carried hw hk⟩
  have hapart : ∀ {k : Nat} {w : worker_t pool_buffer_t worker_free_t}, l.workers[k]? = some w →
      x ∈ carried w → x ∉ running s l := fun hk hw hrunning =>
    hdisjoint x hrunning x (List.mem_flatMap.mpr ⟨_, List.mem_of_getElem? hk, hw⟩) rfl
  rcases List.mem_append.mp hi with hi | hi <;> rcases List.mem_append.mp hj with hj | hj
  · obtain ⟨w, hw, hx⟩ := hworker hi
    obtain ⟨w', hw', hx'⟩ := hworker hj
    have hpairs := (List.nodup_flatMap.mp hcarried).2
    rw [List.pairwise_iff_getElem] at hpairs
    obtain ⟨hlt, rfl⟩ := List.getElem?_eq_some_iff.mp hw
    obtain ⟨hlt', rfl⟩ := List.getElem?_eq_some_iff.mp hw'
    rcases Nat.lt_or_gt_of_ne hij with hless | hless
    · exact hpairs i j hlt hlt' hless hx hx'
    · exact hpairs j i hlt' hlt hless hx' hx
  · obtain ⟨w, hw, hx⟩ := hworker hi
    exact hapart hw hx (underway_running hj)
  · obtain ⟨w, hw, hx⟩ := hworker hj
    exact hapart hw hx (underway_running hi)
  · obtain ⟨b, hb, -, -⟩ := mem_underway.mp hi
    obtain ⟨b', hb', -, -⟩ := mem_underway.mp hj
    exact hij (handler_t.sending.inj (hb.symm.trans hb')).2

theorem Owned.nodup (h : Owned t capacity mq_capacity []) :
    (both fun s => outstanding s (t.listeners s)).Nodup := by
  have hnodup := (h.places.nodup_iff).mpr (both_buffers_nodup capacity)
  refine List.nodup_iff_count_le_one.mpr fun a => le_trans ?_ (List.nodup_iff_count_le_one.mp hnodup a)
  simp only [both, List.nil_append, List.count_append]
  omega

theorem Owned.nodup_at (h : Owned t capacity mq_capacity []) (s : side) :
    (outstanding s (t.listeners s)).Nodup := by
  have hnodup := h.nodup
  cases s
  · exact (List.nodup_append.mp hnodup).1
  · exact (List.nodup_append.mp hnodup).2.1

theorem Owned.sides_apart (h : Owned t capacity mq_capacity []) {r : side} (hrs : r ≠ s)
    (hs : x ∈ outstanding s (t.listeners s)) : x ∉ outstanding r (t.listeners r) := by
  have hdisjoint := (List.nodup_append.mp h.nodup).2.2
  intro hr
  cases s <;> cases r
  · exact hrs rfl
  · exact hdisjoint x hs x hr rfl
  · exact hdisjoint x hr x hs rfl
  · exact hrs rfl

/-! ## A step of a handler -/

@[simp] theorem set_listener_self (t : tunnel_t) (s : side) (l : nt_listener_t) :
    (set_listener t s l).listeners s = l := Function.update_self _ _ _

theorem set_listener_ne (t : tunnel_t) {r s : side} (h : r ≠ s) (l : nt_listener_t) :
    (set_listener t s l).listeners r = t.listeners r := Function.update_of_ne h _ _

@[simp] theorem set_listener_memory (t : tunnel_t) (s : side) (l : nt_listener_t) :
    (set_listener t s l).memory = t.memory := rfl

theorem sublist_of_eq {α : Type} {l l' : List α} (h : l = l') : l.Sublist l' :=
  h ▸ List.Sublist.refl l

/-- The places of the other side have what they had, and so has every place that keeps its buffers. -/
theorem contents_frame {t' : tunnel_t} {place : side × Nat}
    (hpending : pending place.1 (t'.listeners place.1) place.2 =
      pending place.1 (t.listeners place.1) place.2)
    (hmemory : ∀ x ∈ pending place.1 (t.listeners place.1) place.2, t'.memory x = t.memory x) :
    contents t' place = contents t place := by
  unfold contents
  rw [hpending]
  exact List.map_congr_left hmemory

theorem noted_self (place : side × Nat) (message : List UInt8) :
    noted place [(place, message)] = [message] := by
  simp [noted]

theorem noted_ne {place place' : side × Nat} (h : place' ≠ place) (message : List UInt8) :
    noted place [(place', message)] = [] := by
  simp [noted, h]

@[simp] theorem noted_nil (place : side × Nat) : noted place [] = [] := rfl

theorem noted_append (place : side × Nat) (log more : List ((side × Nat) × List UInt8)) :
    noted place (log ++ more) = noted place log ++ noted place more := by
  simp [noted]

/-- A handler that sends to a worker gives it the buffer, or gives up. -/
theorem pending_sending (h : Owned t capacity mq_capacity []) (hcap : mq_capacity + 1 < 2 ^ 64)
    {b : Nat} (hhandler : (t.listeners s).handler = .sending b i)
    {incoming : Except error_t (address_t × List UInt8)} {t' : tunnel_t}
    (hread : handle_read t s incoming = some t') :
    t'.memory = t.memory ∧ (∀ r, r ≠ s → t'.listeners r = t.listeners r) ∧
      ∀ j, (pending s (t'.listeners s) j).Sublist (pending s (t.listeners s) j) := by
  have hl := h.listens s
  have hlt := hl.sending b i hhandler
  obtain ⟨w, hi⟩ : ∃ w, (t.listeners s).workers[i]? = some w := ⟨_, List.getElem?_eq_getElem hlt⟩
  obtain ⟨sender, hsender, hmessage⟩ := hl.sender i w hi
  obtain ⟨free, queued, hholds⟩ := hl.workers w (List.mem_of_getElem? hi)
  obtain ⟨result, w', sender', pushes, free', queued', hsend, hholds', hstep, hsenders, hpushed, -⟩ :=
    send_step hholds hcap hsender ⟨⟨s, b⟩, .pool_free⟩
  have hsender' : w'.senders[0]? = some sender' := by
    rw [hsenders, List.getElem?_set_self (List.getElem?_eq_some_iff.mp hsender).1]
  have hunread : unread w' = unread w ++ pushes := by
    rw [unread_pushed hholds', unread_pushed hholds, (send_keeps hsend).1, List.append_assoc,
      List.append_cancel_left_eq] at hpushed
    exact hpushed
  have hset : ((t.listeners s).workers.set i w')[i]? = some w' := List.getElem?_set_self hlt
  have hbefore : underway s (t.listeners s) i =
      if (sender_unwritten sender).isSome then [] else [⟨s, b⟩] := by
    unfold underway
    simp only [hhandler, told_eq hi hsender, true_and]
    cases (sender_unwritten sender).isSome <;> rfl
  have hafter : underway s { t.listeners s with
      workers := (t.listeners s).workers.set i w', handler := .sending b i } i =
        if (sender_unwritten sender').isSome then [] else [⟨s, b⟩] := by
    unfold underway
    simp only [told_eq (l := { t.listeners s with
      workers := (t.listeners s).workers.set i w', handler := .sending b i }) hset hsender', true_and]
    cases (sender_unwritten sender').isSome <;> rfl
  have hgo : ∀ handler' : handler_t, (∀ b' k, handler' = .sending b' k → k = i) →
      (pushes.map message_t.data ++ underway s { t.listeners s with
        workers := (t.listeners s).workers.set i w', handler := handler' } i).Sublist
          (underway s (t.listeners s) i) →
      ∀ j, (pending s { t.listeners s with
        workers := (t.listeners s).workers.set i w', handler := handler' } j).Sublist
          (pending s (t.listeners s) j) := by
    intro handler' hsame hsublist j
    unfold pending
    by_cases hij : i = j
    · subst hij
      simp only [hset, hi, Option.elim_some, hunread, List.map_append, List.append_assoc]
      exact (List.Sublist.refl _).append hsublist
    · have hnone : underway s { t.listeners s with
          workers := (t.listeners s).workers.set i w', handler := handler' } j = [] := by
        refine List.eq_nil_iff_forall_not_mem.mpr fun x hx => ?_
        obtain ⟨b', hb', -⟩ := mem_underway.mp hx
        exact hij (hsame b' j hb').symm
      rw [hnone, List.append_nil]
      simp only [List.getElem?_set_ne hij]
      exact List.sublist_append_left _ _
  have hkeep : { t.listeners s with workers := (t.listeners s).workers.set i w' } =
      { t.listeners s with
        workers := (t.listeners s).workers.set i w', handler := handler_t.sending b i } := by
    rw [← hhandler]
  have hstay := hgo (.sending b i) fun b' k hk => (handler_t.sending.inj hk).2.symm
  rw [handle_read_sending hhandler hi hsend incoming] at hread
  rw [hafter, hbefore] at hstay
  rw [← hkeep] at hstay
  cases hstep with
  | refused =>
    cases hread
    refine ⟨rfl, fun r hr => set_listener_ne _ hr _, ?_⟩
    rw [set_listener_self]
    exact hgo (.freeing b) (fun _ _ hk => by cases hk) (List.nil_sublist _)
  | began _ m =>
    cases hread
    refine ⟨rfl, fun r hr => set_listener_ne _ hr _, ?_⟩
    rw [set_listener_self]
    exact hstay (List.Sublist.refl _)
  | filled message' _ m =>
    cases hread
    refine ⟨rfl, fun r hr => set_listener_ne _ hr _, ?_⟩
    rw [set_listener_self]
    exact hstay (List.Sublist.refl _)
  | pushed message' _ m =>
    cases hread
    refine ⟨rfl, fun r hr => set_listener_ne _ hr _, ?_⟩
    rw [set_listener_self]
    obtain ⟨b', hb', rfl⟩ := hmessage message' rfl
    rw [hhandler] at hb'
    obtain ⟨rfl, -⟩ := handler_t.sending.inj hb'
    exact hstay (List.Sublist.refl _)
  | returned message' _ =>
    cases hread
    refine ⟨rfl, fun r hr => set_listener_ne _ hr _, ?_⟩
    rw [set_listener_self]
    exact hgo .outside (fun _ _ hk => by cases hk) (List.nil_sublist _)

/-- Where a buffer is freed does not matter to those that wait. -/
theorem buffer_free_keeps {t' : tunnel_t} (h : buffer_free t x = some t') :
    t'.memory = t.memory ∧
      ∀ r w, pending r (t'.listeners r) w = pending r (t.listeners r) w := by
  simp only [buffer_free, Option.bind_eq_bind, Option.bind_eq_some_iff] at h
  obtain ⟨pool, -, pool', -, heq⟩ := h
  obtain rfl := Option.some.inj heq
  refine ⟨rfl, fun r w => ?_⟩
  by_cases hr : r = x.pool
  · subst hr
    rw [set_listener_self]
    rfl
  · rw [set_listener_ne _ hr]

/-- A handler that reads its datagram fills a buffer that nobody waits for. -/
theorem contents_receiving (h : Owned t capacity mq_capacity []) {b : Nat}
    (hhandler : (t.listeners s).handler = .receiving b)
    {incoming : Except error_t (address_t × List UInt8)} {t' : tunnel_t}
    (hread : handle_read t s incoming = some t') (place : side × Nat) :
    contents t' place = contents t place ++ noted place (accepted t s incoming) := by
  have hl := h.listens s
  have hnot : ∀ b' k, (t.listeners s).handler ≠ .sending b' k := fun b' k hk => by
    rw [hhandler] at hk
    cases hk
  obtain ⟨buffer, perf, l', ht', haccepted, hreceives⟩ : ∃ buffer perf l',
      handle_read t s incoming = some (set_listener
        { t with memory := Function.update t.memory ⟨s, b⟩ buffer, perf } s l') ∧
      accepted t s incoming = (match l'.handler with
        | .sending _ w => [((s, w), buffer)]
        | _ => []) ∧ Receives (t.listeners s) b l' := by
    unfold handle_read accepted
    simp only [hhandler]
    cases s with
    | api => exact ⟨_, _, _, rfl, rfl, api_receives hl.last _ _ _ _⟩
    | tun => exact ⟨_, _, _, rfl, rfl, tun_receives hl.last _ _ _ _⟩
  rw [ht', Option.some.injEq] at hread
  subst hread
  have hbuffer : (⟨s, b⟩ : pool_buffer_t) ∈ outstanding s (t.listeners s) := by
    refine List.mem_append_left _ ?_
    unfold running
    rw [hhandler]
    exact List.mem_singleton.mpr rfl
  have hnone : ∀ w, underway s (t.listeners s) w = [] := by
    intro w
    unfold underway
    rw [hhandler]
  obtain ⟨r, w⟩ := place
  by_cases hr : r = s
  · subst hr
    have hfree : ∀ x ∈ pending r (t.listeners r) w, Function.update t.memory ⟨r, b⟩ buffer x = t.memory x := by
      intro x hx
      refine Function.update_of_ne (fun heq => ?_) _ _
      subst heq
      have hdisjoint := (List.nodup_append.mp (h.nodup_at r)).2.2
      rw [pending, hnone, List.append_nil] at hx
      cases hi : (t.listeners r).workers[w]? with
      | none =>
        rw [hi] at hx
        exact List.not_mem_nil hx
      | some worker =>
        refine hdisjoint ⟨r, b⟩ ?_ ⟨r, b⟩ (List.mem_flatMap.mpr
          ⟨worker, List.mem_of_getElem? hi, unread_carried hi hx⟩) rfl
        unfold running
        rw [hhandler]
        exact List.mem_singleton.mpr rfl
    have hpending : pending r l' w = pending r (t.listeners r) w ++ underway r l' w := by
      unfold pending
      rw [hnone, List.append_nil, hreceives.workers]
    unfold contents
    simp only [set_listener_self, hpending, List.map_append, set_listener_memory]
    rw [List.map_congr_left hfree, haccepted, List.append_cancel_left_eq]
    rcases hreceives.handler with hfreeing | ⟨k, hk, hsending⟩
    · unfold underway
      simp only [hfreeing]
      rfl
    · have hw := (congrArg (·[k]?) hreceives.workers).trans (List.getElem?_eq_getElem hk)
      have htold : told l' k = false := by
        rw [told_eq hw (hl.not_sending hnot (List.getElem?_eq_getElem hk))]
        rfl
      unfold underway
      simp only [hsending]
      by_cases hkw : k = w
      · subst hkw
        rw [if_pos ⟨rfl, htold⟩, noted_self, List.map_singleton, Function.update_self]
      · rw [if_neg fun hif => hkw hif.1, noted_ne (fun heq => hkw (Prod.mk.inj heq).2)]
        rfl
  · have hsame : noted (r, w) (accepted t s incoming) = [] := by
      rw [haccepted]
      split
      · exact noted_ne (fun heq => hr (Prod.mk.inj heq).1.symm) _
      · rfl
    rw [hsame, List.append_nil]
    refine contents_frame ?_ fun x hx => ?_
    · rw [set_listener_ne _ hr]
    · refine Function.update_of_ne (fun heq => ?_) _ _
      subst heq
      exact h.sides_apart hr hbuffer (pending_outstanding hx)

/-- What waits after a step of a handler has waited before or was accepted in it. -/
theorem handle_read_contents (h : Owned t capacity mq_capacity []) (hcap : mq_capacity + 1 < 2 ^ 64)
    {incoming : Except error_t (address_t × List UInt8)} {t' : tunnel_t}
    (hread : handle_read t s incoming = some t') (place : side × Nat) :
    (contents t' place).Sublist (contents t place ++ noted place (accepted t s incoming)) := by
  cases hhandler : (t.listeners s).handler with
  | receiving b => exact (contents_receiving h hhandler hread place).symm ▸ List.Sublist.refl _
  | sending b k =>
    have hnone : accepted t s incoming = [] := by
      unfold accepted
      rw [hhandler]
    rw [hnone, noted_nil, List.append_nil]
    obtain ⟨hmemory, hother, hpending⟩ := pending_sending h hcap hhandler hread
    unfold contents
    rw [hmemory]
    by_cases hr : place.1 = s
    · rw [hr]
      exact (hpending place.2).map _
    · rw [hother place.1 hr]
  | outside =>
    have hnone : accepted t s incoming = [] := by
      unfold accepted
      rw [hhandler]
    rw [hnone, noted_nil, List.append_nil]
    unfold handle_read at hread
    simp only [hhandler, Option.bind_eq_bind, Option.bind_eq_some_iff] at hread
    obtain ⟨pool, -, hread⟩ := hread
    split at hread
    · obtain rfl := Option.some.inj hread
      exact List.Sublist.refl _
    · obtain ⟨b, -, heq⟩ := Option.bind_eq_some_iff.mp hread
      obtain rfl := Option.some.inj heq
      refine sublist_of_eq (contents_frame ?_ fun x hx => rfl)
      by_cases hr : place.1 = s
      · subst hr
        rw [set_listener_self]
        unfold pending underway
        simp only [hhandler]
      · rw [set_listener_ne _ hr]
  | freeing b =>
    have hnone : accepted t s incoming = [] := by
      unfold accepted
      rw [hhandler]
    rw [hnone, noted_nil, List.append_nil]
    unfold handle_read at hread
    simp only [hhandler] at hread
    obtain ⟨hmemory, hpending⟩ := buffer_free_keeps hread
    refine sublist_of_eq (contents_frame ?_ fun x hx => by rw [hmemory]; rfl)
    rw [hpending]
    by_cases hr : place.1 = s
    · subst hr
      rw [set_listener_self]
      unfold pending underway
      simp only [hhandler]
    · rw [set_listener_ne _ hr]

/-! ## A step of a worker -/

/-- What waits for a worker is passed on message by message, and stays as it was until then. -/
theorem process_contents (h : Owned t capacity mq_capacity []) {left : List UInt8} {t' : tunnel_t}
    (hstep : process t s i left = some t') (place : side × Nat) :
    contents t place =
      (if place = (s, i) then (passed_on t s i).toList else []) ++ contents t' place := by
  unfold process at hstep
  cases hi : (t.listeners s).workers[i]? with
  | none =>
    simp only [hi] at hstep
    obtain rfl := Option.some.inj hstep
    simp [passed_on, hi]
  | some w =>
    simp only [hi, Option.bind_eq_bind, Option.bind_eq_some_iff] at hstep
    obtain ⟨⟨called, w'⟩, hcallback, hstep⟩ := hstep
    obtain ⟨free, queued, hholds⟩ := (h.listens s).workers w (List.mem_of_getElem? hi)
    obtain ⟨called', w'', free', queued', hcallback', hholds', hsenders, hpushed, hhandled, -⟩ :=
      callback_step hholds
    rw [hcallback, Option.some.injEq, Prod.mk.injEq] at hcallback'
    obtain ⟨rfl, rfl⟩ := hcallback'
    have hlt := (List.getElem?_eq_some_iff.mp hi).1
    have hpassed : (passed_on t s i).toList = (passed_in called).map t.memory := by
      unfold passed_on
      rw [hi, Option.bind_some, hcallback]
      cases called with
      | none => rfl
      | some call => cases call <;> rfl
    have hunread : (unread w).map message_t.data =
        passed_in called ++ (unread w').map message_t.data := by
      have hmap := congrArg (List.map message_t.data) hpushed
      rw [unread_pushed hholds', unread_pushed hholds, List.map_append, List.map_append, hhandled,
        List.append_assoc, List.append_cancel_left_eq] at hmap
      exact hmap.symm
    have htold : ∀ k, told { t.listeners s with workers := (t.listeners s).workers.set i w' } k =
        told (t.listeners s) k := by
      intro k
      unfold told
      by_cases hki : k = i
      · subst hki
        simp only [List.getElem?_set_self hlt, hi, Option.bind_some, hsenders]
      · simp only [List.getElem?_set_ne (Ne.symm hki)]
    have hunderway : ∀ k, underway s
        { t.listeners s with workers := (t.listeners s).workers.set i w' } k =
          underway s (t.listeners s) k := by
      intro k
      unfold underway
      simp only [htold]
    -- The buffers of the worker, and those of the other workers.
    have hself : pending s (t.listeners s) i = passed_in called ++
        pending s { t.listeners s with workers := (t.listeners s).workers.set i w' } i := by
      unfold pending
      simp only [hi, List.getElem?_set_self hlt, Option.elim_some, hunread, List.append_assoc, hunderway]
    have hother : ∀ k, k ≠ i → pending s (t.listeners s) k =
        pending s { t.listeners s with workers := (t.listeners s).workers.set i w' } k := by
      intro k hk
      unfold pending
      simp only [List.getElem?_set_ne (Ne.symm hk), hunderway]
    obtain ⟨hkept, hpending⟩ : (∀ x, x ∉ passed_in called → t'.memory x = t.memory x) ∧
        ∀ r k, pending r (t'.listeners r) k = pending r ((set_listener t s
          { t.listeners s with workers := (t.listeners s).workers.set i w' }).listeners r) k := by
      cases called with
      | none =>
        obtain rfl := Option.some.inj hstep
        exact ⟨fun _ _ => rfl, fun _ _ => rfl⟩
      | some call =>
        cases call with
        | on_message data =>
          obtain rfl := Option.some.inj hstep
          refine ⟨fun x hx => ?_, fun _ _ => rfl⟩
          exact Function.update_of_ne (fun heq => hx (List.mem_singleton.mpr heq)) _ _
        | free message =>
          obtain ⟨hmemory, hpending⟩ := buffer_free_keeps hstep
          exact ⟨fun x _ => congrFun hmemory x, hpending⟩
    have hread : ∀ x ∈ passed_in called, x ∈ pending s (t.listeners s) i := by
      intro x hx
      rw [hself]
      exact List.mem_append_left _ hx
    obtain ⟨r, k⟩ := place
    by_cases hplace : (r, k) = (s, i)
    · obtain ⟨rfl, rfl⟩ := Prod.mk.inj hplace
      rw [if_pos rfl, hpassed]
      have hnodup := pending_nodup (i := k) (h.nodup_at r)
      unfold contents
      simp only [hpending, set_listener_self]
      rw [hself] at hnodup
      rw [hself, List.map_append]
      refine congrArg _ (List.map_congr_left fun x hx => (hkept x fun hpass => ?_).symm)
      exact List.disjoint_of_nodup_append hnodup hpass hx
    · rw [if_neg hplace, List.nil_append]
      unfold contents
      simp only [hpending]
      by_cases hr : r = s
      · subst hr
        have hk : k ≠ i := fun heq => hplace (by rw [heq])
        rw [set_listener_self, ← hother k hk]
        refine List.map_congr_left fun x hx => (hkept x fun hpass => ?_).symm
        exact pending_apart (h.nodup_at r) hk hx (hread x hpass)
      · rw [set_listener_ne _ hr]
        refine List.map_congr_left fun x hx => (hkept x fun hpass => ?_).symm
        exact h.sides_apart hr (pending_outstanding (hread x hpass)) (pending_outstanding hx)

/-! ## What does not change -/

/-- A listener has as many workers as the other, and buffers of the same size. -/
def SameShape (l l' : nt_listener_t) : Prop :=
  l'.workers.length = l.workers.length ∧ l'.max_buffer_size = l.max_buffer_size

theorem set_listener_shape {t₀ : tunnel_t} (ht₀ : t₀.listeners = t.listeners)
    (hl : SameShape (t.listeners s) l) (r : side) :
    SameShape (t.listeners r) ((set_listener t₀ s l).listeners r) := by
  by_cases hr : r = s
  · subst hr
    rw [set_listener_self]
    exact hl
  · rw [set_listener_ne _ hr, ht₀]
    exact ⟨rfl, rfl⟩

theorem api_handle_read_shape (l : nt_listener_t) (perf : perf_t) (b : Nat) (buffer : List UInt8)
    (incoming : Except error_t (address_t × List UInt8)) :
    SameShape l (api_handle_read l perf b buffer incoming).2.2 := by
  unfold api_handle_read
  rcases incoming with err | ⟨src, datagram⟩
  · exact ⟨rfl, rfl⟩
  · simp only
    split
    · exact ⟨rfl, rfl⟩
    · split <;> exact ⟨rfl, rfl⟩

theorem tun_handle_read_shape (l : nt_listener_t) (perf : perf_t) (b : Nat) (buffer : List UInt8)
    (incoming : Except error_t (address_t × List UInt8)) :
    SameShape l (tun_handle_read l perf b buffer incoming).2.2 := by
  unfold tun_handle_read
  rcases incoming with err | ⟨src, datagram⟩
  · exact ⟨rfl, rfl⟩
  · simp only
    split
    · exact ⟨rfl, rfl⟩
    · split <;> exact ⟨rfl, rfl⟩

theorem buffer_free_shape {t' : tunnel_t} (h : buffer_free t x = some t') (r : side) :
    SameShape (t.listeners r) (t'.listeners r) := by
  simp only [buffer_free, Option.bind_eq_bind, Option.bind_eq_some_iff] at h
  obtain ⟨pool, -, pool', -, heq⟩ := h
  obtain rfl := Option.some.inj heq
  exact set_listener_shape (by rfl) ⟨by rfl, by rfl⟩ r

theorem handle_read_shape {incoming : Except error_t (address_t × List UInt8)} {t' : tunnel_t}
    (h : handle_read t s incoming = some t') (r : side) :
    SameShape (t.listeners r) (t'.listeners r) := by
  unfold handle_read at h
  simp only at h
  split at h
  · simp only [Option.bind_eq_bind, Option.bind_eq_some_iff] at h
    obtain ⟨pool, -, h⟩ := h
    split at h
    · obtain rfl := Option.some.inj h
      exact ⟨rfl, rfl⟩
    · obtain ⟨b, -, heq⟩ := Option.bind_eq_some_iff.mp h
      obtain rfl := Option.some.inj heq
      exact set_listener_shape (by rfl) ⟨by rfl, by rfl⟩ r
  · obtain rfl := Option.some.inj h
    refine set_listener_shape (by rfl) ?_ r
    cases s
    · exact api_handle_read_shape _ _ _ _ _
    · exact tun_handle_read_shape _ _ _ _ _
  · simp only [Option.bind_eq_bind, Option.bind_eq_some_iff] at h
    obtain ⟨worker, -, ⟨result, worker'⟩, -, h⟩ := h
    simp only at h
    split at h <;> obtain rfl := Option.some.inj h
    all_goals exact set_listener_shape (by rfl) ⟨by exact List.length_set, by rfl⟩ r
  · next b _ =>
    have hset : SameShape (t.listeners r)
        ((set_listener t s { t.listeners s with handler := .outside }).listeners r) :=
      set_listener_shape (by rfl) ⟨by rfl, by rfl⟩ r
    have hfree := buffer_free_shape h r
    exact ⟨hfree.1.trans hset.1, hfree.2.trans hset.2⟩

theorem process_shape {left : List UInt8} {t' : tunnel_t} (h : process t s i left = some t') (r : side) :
    SameShape (t.listeners r) (t'.listeners r) := by
  unfold process at h
  simp only at h
  split at h
  · obtain rfl := Option.some.inj h
    exact ⟨rfl, rfl⟩
  · next worker _ =>
    simp only [Option.bind_eq_bind, Option.bind_eq_some_iff] at h
    obtain ⟨⟨called, w'⟩, -, h⟩ := h
    have hset : SameShape (t.listeners r) ((set_listener t s
        { t.listeners s with workers := (t.listeners s).workers.set i w' }).listeners r) :=
      set_listener_shape (by rfl) ⟨by exact List.length_set, by rfl⟩ r
    split at h
    · obtain rfl := Option.some.inj h
      exact hset
    · obtain rfl := Option.some.inj h
      exact hset
    · have hfree := buffer_free_shape h r
      exact ⟨hfree.1.trans hset.1, hfree.2.trans hset.2⟩

end

end nettle.nt_listener
