-- The laws of the worker. Each message that was pushed is waited for by one
-- count: in the eventfd, in the loop of the dispatcher, or still to be written
-- by its thread. So the dispatcher takes out just what is there, in the order
-- it was pushed, and nothing is left behind.
import Nettle.Slots
import Nettle.Worker

open in_place slots nettle.queue

namespace nettle.worker

variable {δ φ : Type}

/-! ## The invariant -/

/-- The place in the pool of messages that a thread has for itself. -/
def sender_slot : sender_t δ φ → Option Nat
  | .filling _ m => some m
  | .pushing _ m => some m
  | _ => none

/-- The message that a thread has pushed and not told of. -/
def sender_unwritten : sender_t δ φ → Option (message_t δ φ)
  | .writing message => some message
  | _ => none

def callback_slot : callback_t → Option Nat
  | .handling m _ => some m
  | .releasing m _ => some m
  | .freeing m _ => some m
  | _ => none

/-- The turns that the loop is sure to have. -/
def turns_left : callback_t → Nat
  | .waiting => 0
  | .popping rest => rest
  | .handling _ rest => rest
  | .releasing _ rest => rest
  | .freeing _ rest => rest

def unhandled : callback_t → List Nat
  | .handling m _ => [m]
  | _ => []

def unreleased : callback_t → List Nat
  | .releasing m _ => [m]
  | _ => []

structure Holds (w : worker_t δ φ) (capacity : Nat) (free queued : List Nat) : Prop where
  pool : Queued w.pool free
  pool_capacity : w.pool.capacity = capacity
  mq : Queued w.mq queued
  mq_capacity : w.mq.capacity = capacity
  messages : w.messages.length = capacity
  split : (free ++ contents (w.senders.map sender_slot) ++ (callback_slot w.dispatcher).toList ++
    queued).Perm (List.range capacity)
  count : queued.length = w.eventfd + turns_left w.dispatcher +
    (contents (w.senders.map sender_unwritten)).length
  ready : ∀ (i : Nat) (message : message_t δ φ) (m : Nat),
    w.senders[i]? = some (.pushing message m) → w.messages.getD m none = some message
  pushed : w.pushed.map some = w.handled.map some ++
    (unhandled w.dispatcher ++ queued).map (w.messages.getD · none)
  handled : w.handled.map some = w.released.map some ++
    (unreleased w.dispatcher).map (w.messages.getD · none)

section

variable {w : worker_t δ φ} {capacity : Nat} {free queued : List Nat}

theorem Holds.nodup (h : Holds w capacity free queued) :
    (free ++ contents (w.senders.map sender_slot) ++ (callback_slot w.dispatcher).toList ++
      queued).Nodup :=
  h.split.nodup_iff.mpr List.nodup_range

theorem Holds.length (h : Holds w capacity free queued) :
    free.length + (contents (w.senders.map sender_slot)).length +
      (callback_slot w.dispatcher).toList.length + queued.length = capacity := by
  have := h.split.length_eq
  rwa [List.length_append, List.length_append, List.length_append, List.length_range] at this

theorem Holds.split_count (h : Holds w capacity free queued) (a : Nat) :
    free.count a + (contents (w.senders.map sender_slot)).count a +
      (callback_slot w.dispatcher).toList.count a + queued.count a = (List.range capacity).count a := by
  have := h.split.count_eq a
  rwa [List.count_append, List.count_append, List.count_append] at this

/-- The message that was taken out of the queue and not yet released. -/
def in_process (w : worker_t δ φ) : List (message_t δ φ) :=
  (unreleased w.dispatcher ++ unhandled w.dispatcher).filterMap (w.messages.getD · none)

def waiting (w : worker_t δ φ) : List (message_t δ φ) :=
  (queue_values w.mq).filterMap (w.messages.getD · none)

theorem Holds.pushed_eq (h : Holds w capacity free queued) :
    w.pushed = w.released ++ (in_process w ++ waiting w) := by
  have hpushed := h.pushed
  rw [h.handled, List.append_assoc, ← List.map_append, ← List.append_assoc] at hpushed
  have hshown := congrArg (List.filterMap id) hpushed
  unfold in_process waiting
  rw [h.mq.values_eq, ← List.filterMap_append]
  simpa only [List.filterMap_append, List.filterMap_map, Function.id_comp, List.filterMap_some]
    using hshown

/-- A place that a thread has for itself is nowhere else. -/
theorem Holds.own (h : Holds w capacity free queued) {i : Nat} {sender : sender_t δ φ}
    (hi : w.senders[i]? = some sender) {m : Nat} (hm : sender_slot sender = some m) :
    m < capacity ∧ m ∉ callback_slot w.dispatcher ∧ m ∉ queued ∧
      ∀ (j : Nat) (other : sender_t δ φ), j ≠ i → w.senders[j]? = some other →
        sender_slot other ≠ some m := by
  have hset := (contents_map_set (f := sender_slot) hi .outside).count_eq m
  have hcount := h.split_count m
  have honce := List.nodup_iff_count_le_one.mp (List.nodup_range (n := capacity)) m
  rw [hm] at hset
  simp only [sender_slot, Option.toList_some, Option.toList_none, List.nil_append,
    List.singleton_append, List.count_cons_self] at hset
  refine ⟨?_, fun hmem => ?_, fun hmem => ?_, fun j other hj hother hslot => ?_⟩
  · rw [← List.mem_range, ← List.count_pos_iff]
    omega
  · rw [Option.mem_def] at hmem
    rw [hmem, Option.toList_some, List.count_singleton_self] at hcount
    omega
  · have := List.count_pos_iff.mpr hmem
    omega
  · have hmem : m ∈ contents ((w.senders.set i .outside).map sender_slot) := by
      refine mem_contents.mpr ⟨j, ?_⟩
      rw [List.getD_eq_getElem?_getD, List.getElem?_map, List.getElem?_set_ne hj.symm, hother]
      exact hslot
    have := List.count_pos_iff.mpr hmem
    omega

/-! ## A step of a thread -/

/-- What a step in `worker_send` comes to: its value if it returns, where the thread stands then,
and the message if it is pushed. -/
inductive SendStep : sender_t δ φ → message_t δ φ → Option Bool → sender_t δ φ →
    List (message_t δ φ) → Prop
  | refused (message) : SendStep .outside message (some false) .outside []
  | began (message) (m : Nat) : SendStep .outside message none (.filling message m) []
  | filled (message message') (m : Nat) :
    SendStep (.filling message m) message' none (.pushing message m) []
  | pushed (message message') (m : Nat) :
    SendStep (.pushing message m) message' none (.writing message) [message]
  | returned (message message') : SendStep (.writing message) message' (some true) .outside []

theorem send_step (h : Holds w capacity free queued) (hcap : capacity + 1 < 2 ^ 64) {i : Nat}
    {sender : sender_t δ φ} (hi : w.senders[i]? = some sender) (message : message_t δ φ) :
    ∃ result w' sender' pushes free' queued', worker_send w i message = some (result, w') ∧
      Holds w' capacity free' queued' ∧ SendStep sender message result sender' pushes ∧
      w'.senders = w.senders.set i sender' ∧ w'.pushed = w.pushed ++ pushes ∧
      w'.released = w.released := by
  have hlt := (List.getElem?_eq_some_iff.mp hi).1
  unfold worker_send
  rw [hi]
  have hready : ∀ {sender' : sender_t δ φ}, (∀ message m, sender' ≠ .pushing message m) →
      ∀ (j : Nat) (message : message_t δ φ) (m : Nat),
        (w.senders.set i sender')[j]? = some (.pushing message m) →
          w.messages.getD m none = some message := fun {sender'} hne j message m hj => by
    by_cases hji : j = i
    · rw [hji, List.getElem?_set_self hlt] at hj
      exact absurd (Option.some.inj hj) (hne message m)
    · rw [List.getElem?_set_ne (Ne.symm hji)] at hj
      exact h.ready j message m hj
  cases sender with
  | outside =>
    cases free with
    | nil =>
      refine ⟨_, w, .outside, [], [], queued, by rw [pool_new, pop_empty h.pool], h,
        .refused message, ?_, (List.append_nil _).symm, rfl⟩
      obtain ⟨_, hi⟩ := List.getElem?_eq_some_iff.mp hi
      rw [← hi, List.set_getElem_self]
    | cons m free =>
      obtain ⟨pool, hpop, hqueued, hcapacity⟩ := pop_first h.pool
      have hslot := fun a => (contents_map_set (f := sender_slot) hi (.filling message m)).count_eq a
      have hunwritten := contents_map_set (f := sender_unwritten) hi (.filling message m)
      refine ⟨none, { w with pool, senders := w.senders.set i (.filling message m) },
        .filling message m, [], free, queued, ?_, ⟨hqueued, hcapacity.trans h.pool_capacity, h.mq,
        h.mq_capacity, h.messages, ?_, ?_, hready (fun _ _ => nofun), h.pushed,
        h.handled⟩, .began message m, rfl, (List.append_nil _).symm, rfl⟩
      · unfold pool_new
        simp only [hpop, Option.bind_eq_bind, Option.bind_some]
        rfl
      · refine List.perm_iff_count.mpr fun a => ?_
        have hcount := h.split_count a
        have := hslot a
        simp only [sender_slot, List.count_append, List.count_cons, Option.toList_some,
          Option.toList_none, List.nil_append, List.singleton_append] at hcount this ⊢
        omega
      · exact h.count.trans (congrArg _ hunwritten.length_eq.symm)
  | filling message' m =>
    obtain ⟨hm, hcallback, hqueued, hother⟩ := h.own hi rfl
    have hslot := contents_map_set (f := sender_slot) hi (.pushing message' m)
    have hunwritten := contents_map_set (f := sender_unwritten) hi (.pushing message' m)
    have hsame : ∀ m' ≠ m, (w.messages.set m (some message')).getD m' none =
        w.messages.getD m' none := fun m' hne => getD_set_ne hne.symm
    have hkeep : ∀ ms : List Nat, m ∉ ms → ms.map ((w.messages.set m (some message')).getD · none) =
        ms.map (w.messages.getD · none) := fun ms hms =>
      List.map_congr_left fun m' hm' => hsame m' fun heq => hms (heq ▸ hm')
    have hnot : m ∉ unhandled w.dispatcher ∧ m ∉ unreleased w.dispatcher := by
      cases hd : w.dispatcher <;> rw [hd] at hcallback <;>
        simp_all [unhandled, unreleased, callback_slot, eq_comm]
    refine ⟨none, { w with
        messages := w.messages.set m (some message')
        senders := w.senders.set i (.pushing message' m) }, .pushing message' m, [], free, queued,
      rfl, ⟨h.pool, h.pool_capacity, h.mq, h.mq_capacity, List.length_set.trans h.messages, ?_, ?_,
        fun j message'' m' hj => ?_, ?_, ?_⟩, .filled message' message m, rfl,
      (List.append_nil _).symm, rfl⟩
    · refine List.Perm.trans ?_ h.split
      exact ((List.Perm.append_left free hslot.cons_inv).append_right _).append_right _
    · exact h.count.trans (congrArg _ hunwritten.length_eq.symm)
    · by_cases hji : j = i
      · rw [hji, List.getElem?_set_self hlt, Option.some.injEq, sender_t.pushing.injEq] at hj
        obtain ⟨rfl, rfl⟩ := hj
        exact getD_set_self (h.messages.symm ▸ hm)
      · rw [List.getElem?_set_ne (Ne.symm hji)] at hj
        have hne : m' ≠ m := fun heq => hother j _ hji hj (congrArg some heq)
        exact (hsame m' hne).trans (h.ready j message'' m' hj)
    · exact h.pushed.trans (by rw [hkeep _ fun hmem =>
        (List.mem_append.mp hmem).elim hnot.1 hqueued])
    · exact h.handled.trans (by rw [hkeep _ hnot.2])
  | pushing message' m =>
    have hlen := h.length
    have hslot := contents_map_set (f := sender_slot) hi (.writing message')
    have hunwritten := contents_map_set (f := sender_unwritten) hi (.writing message')
    have hslot_len := hslot.length_eq
    simp only [sender_slot, Option.toList_some, Option.toList_none, List.nil_append,
      List.singleton_append, List.length_cons] at hslot_len
    have hunwritten_len := hunwritten.length_eq
    simp only [sender_unwritten, Option.toList_some, Option.toList_none, List.nil_append,
      List.singleton_append, List.length_cons] at hunwritten_len
    obtain ⟨mq, hpush, hqueued, hcapacity⟩ := push_room h.mq (by rw [h.mq_capacity]; omega) m
    refine ⟨none, { w with
        mq
        pushed := w.pushed ++ [message']
        senders := w.senders.set i (.writing message') }, .writing message', [message'], free,
      queued ++ [m], by simp only [hpush], ⟨h.pool, h.pool_capacity, hqueued,
        hcapacity.trans h.mq_capacity, h.messages, ?_, ?_, hready (fun _ _ => nofun), ?_,
        h.handled⟩, .pushed message' message m, rfl, rfl, rfl⟩
    · refine List.perm_iff_count.mpr fun a => ?_
      have hcount := h.split_count a
      have := hslot.count_eq a
      simp only [sender_slot, List.count_append, List.count_cons, Option.toList_some,
        Option.toList_none, List.nil_append, List.singleton_append, List.count_nil] at hcount this ⊢
      omega
    · have hcount := h.count
      rw [List.length_append, List.length_singleton]
      change queued.length + 1 = w.eventfd + turns_left w.dispatcher +
        (contents ((w.senders.set i (.writing message')).map sender_unwritten)).length
      omega
    · change (w.pushed ++ [message']).map some = _
      rw [List.map_append, h.pushed]
      simp only [List.map_append, List.map_cons, List.map_nil, List.append_assoc,
        h.ready i message' m hi]
  | writing message' =>
    have hslot := contents_map_set (f := sender_slot) hi .outside
    have hunwritten := contents_map_set (f := sender_unwritten) hi .outside
    have hunwritten_len := hunwritten.length_eq
    simp only [sender_unwritten, Option.toList_some, Option.toList_none, List.nil_append,
      List.singleton_append, List.length_cons] at hunwritten_len
    have hlen := h.length
    have hcount := h.count
    have hroom : w.eventfd + 1 ≤ EVENTFD_MAX := by
      unfold EVENTFD_MAX
      omega
    refine ⟨some true, { w with
        eventfd := w.eventfd + 1
        senders := w.senders.set i .outside }, .outside, [], free, queued,
      by simp only [hroom, if_true], ⟨h.pool, h.pool_capacity, h.mq, h.mq_capacity, h.messages, ?_, ?_,
        hready (fun _ _ => nofun), h.pushed, h.handled⟩, .returned message' message,
      rfl, (List.append_nil _).symm, rfl⟩
    · refine List.Perm.trans ?_ h.split
      exact ((List.Perm.append_left free hslot).append_right _).append_right _
    · change queued.length = w.eventfd + 1 + turns_left w.dispatcher +
        (contents ((w.senders.set i .outside).map sender_unwritten)).length
      omega

/-! ## A step of the dispatcher -/

/-- What `on_message` got in a step. -/
def passed_in : Option (call_t δ φ) → List δ
  | some (.on_message data) => [data]
  | _ => []

/-- What was released in a step. -/
def released_in : Option (call_t δ φ) → List (message_t δ φ)
  | some (.free message) => [message]
  | _ => []

theorem callback_step (h : Holds w capacity free queued) :
    ∃ called w' free' queued', callback w = some (called, w') ∧ Holds w' capacity free' queued' ∧
      w'.senders = w.senders ∧ w'.pushed = w.pushed ∧
      w'.handled.map message_t.data = w.handled.map message_t.data ++ passed_in called ∧
      w'.released = w.released ++ released_in called := by
  have hpushed := h.pushed
  have hhandled := h.handled
  have hcount := h.count
  have hsplit := h.split_count
  have hlen := h.length
  unfold callback
  cases hd : w.dispatcher with
  | waiting =>
    rw [hd] at hpushed hhandled hcount hsplit
    by_cases hzero : w.eventfd = 0
    · exact ⟨none, w, free, queued, if_pos hzero, h, rfl, rfl, (List.append_nil _).symm,
        (List.append_nil _).symm⟩
    · refine ⟨none, { w with eventfd := 0, dispatcher := .popping w.eventfd }, free, queued,
        if_neg hzero, ⟨h.pool, h.pool_capacity, h.mq, h.mq_capacity, h.messages,
          List.perm_iff_count.mpr fun a => ?_, ?_, h.ready, hpushed, hhandled⟩, rfl, rfl,
        (List.append_nil _).symm, (List.append_nil _).symm⟩
      · rw [List.count_append, List.count_append, List.count_append]
        exact hsplit a
      · change queued.length = 0 + w.eventfd + (contents (w.senders.map sender_unwritten)).length
        rw [turns_left] at hcount
        omega
  | popping rest =>
    rw [hd] at hpushed hhandled hcount hsplit
    cases rest with
    | zero =>
      refine ⟨none, { w with dispatcher := .waiting }, free, queued, rfl, ⟨h.pool, h.pool_capacity,
        h.mq, h.mq_capacity, h.messages, List.perm_iff_count.mpr fun a => ?_, hcount, h.ready,
        hpushed, hhandled⟩, rfl, rfl, (List.append_nil _).symm, (List.append_nil _).symm⟩
      rw [List.count_append, List.count_append, List.count_append]
      exact hsplit a
    | succ rest =>
      rw [turns_left] at hcount
      cases queued with
      | nil =>
        rw [List.length_nil] at hcount
        omega
      | cons m queued =>
        obtain ⟨mq, hpop, hqueued, hcapacity⟩ := pop_first h.mq
        refine ⟨none, { w with mq, dispatcher := .handling m rest }, free, queued, ?_, ⟨h.pool,
          h.pool_capacity, hqueued, hcapacity.trans h.mq_capacity, h.messages,
          List.perm_iff_count.mpr fun a => ?_, ?_, h.ready, hpushed, hhandled⟩, rfl, rfl,
          (List.append_nil _).symm, (List.append_nil _).symm⟩
        · simp only [hpop, Option.bind_eq_bind, Option.bind_some]
          rfl
        · have := hsplit a
          simp only [callback_slot, List.count_append, List.count_cons, Option.toList_some,
            Option.toList_none, List.count_nil] at this ⊢
          omega
        · change queued.length = w.eventfd + rest +
            (contents (w.senders.map sender_unwritten)).length
          rw [List.length_cons] at hcount
          omega
  | handling m rest =>
    rw [hd] at hpushed hhandled hcount hsplit
    obtain ⟨message, hmessage⟩ : ∃ message, w.messages.getD m none = some message := by
      have hmem : w.messages.getD m none ∈ w.pushed.map some := by
        rw [hpushed]
        exact List.mem_append_right _ List.mem_cons_self
      obtain ⟨message, -, hmessage⟩ := List.mem_map.mp hmem
      exact ⟨message, hmessage.symm⟩
    refine ⟨some (.on_message message.data), { w with
        handled := w.handled ++ [message]
        dispatcher := .releasing m rest }, free, queued, ?_, ⟨h.pool, h.pool_capacity, h.mq,
      h.mq_capacity, h.messages, List.perm_iff_count.mpr fun a => ?_, hcount, h.ready, ?_, ?_⟩,
      rfl, rfl, by rw [List.map_append]; rfl, (List.append_nil _).symm⟩
    · simp only [hmessage, Option.bind_eq_bind, Option.bind_some]
      rfl
    · rw [List.count_append, List.count_append, List.count_append]
      exact hsplit a
    · refine hpushed.trans ?_
      simp only [unhandled, List.map_append, List.map_cons, List.map_nil, List.nil_append, hmessage,
        List.append_assoc]
    · change (w.handled ++ [message]).map some = _
      rw [List.map_append, hhandled]
      simp only [unreleased, List.map_cons, List.map_nil, List.append_nil, hmessage]
  | releasing m rest =>
    rw [hd] at hpushed hhandled hcount hsplit
    obtain ⟨message, hmessage⟩ : ∃ message, w.messages.getD m none = some message := by
      have hmem : w.messages.getD m none ∈ w.handled.map some := by
        rw [hhandled]
        exact List.mem_append_right _ List.mem_cons_self
      obtain ⟨message, -, hmessage⟩ := List.mem_map.mp hmem
      exact ⟨message, hmessage.symm⟩
    refine ⟨some (.free message), { w with
        released := w.released ++ [message]
        dispatcher := .freeing m rest }, free, queued, ?_, ⟨h.pool, h.pool_capacity, h.mq,
      h.mq_capacity, h.messages, List.perm_iff_count.mpr fun a => ?_, hcount, h.ready, hpushed, ?_⟩,
      rfl, rfl, (List.append_nil _).symm, rfl⟩
    · simp only [hmessage, Option.bind_eq_bind, Option.bind_some]
      rfl
    · rw [List.count_append, List.count_append, List.count_append]
      exact hsplit a
    · refine hhandled.trans ?_
      simp only [unreleased, List.map_append, List.map_cons, List.map_nil, List.append_nil, hmessage]
  | freeing m rest =>
    rw [hd] at hpushed hhandled hcount hsplit hlen
    obtain ⟨pool, hfree, hqueued, hcapacity⟩ := pool_free_spec h.pool (by
      rw [h.pool_capacity]
      simp only [callback_slot, Option.toList_some, List.length_singleton] at hlen
      omega) m
    refine ⟨none, { w with pool, dispatcher := .popping rest }, free ++ [m], queued, ?_, ⟨hqueued,
      hcapacity.trans h.pool_capacity, h.mq, h.mq_capacity, h.messages,
      List.perm_iff_count.mpr fun a => ?_, hcount, h.ready, hpushed, hhandled⟩, rfl, rfl,
      (List.append_nil _).symm, (List.append_nil _).symm⟩
    · simp only [hfree, Option.bind_eq_bind, Option.bind_some]
      rfl
    · have := hsplit a
      simp only [callback_slot, List.count_append, List.count_cons, Option.toList_some,
        Option.toList_none, List.count_nil] at this ⊢
      omega

end

/-! ## Any interleaving -/

theorem init_holds (mq_capacity senders : Nat) :
    Holds (worker_init mq_capacity senders : worker_t δ φ) mq_capacity (List.range mq_capacity) [] := by
  obtain ⟨hpool, hcapacity⟩ := pool_init_spec mq_capacity
  have hslots : contents ((List.replicate senders (.outside : sender_t δ φ)).map sender_slot) = [] := by
    rw [List.map_replicate]
    exact contents_replicate senders
  have hunwritten : contents ((List.replicate senders (.outside : sender_t δ φ)).map
      sender_unwritten) = [] := by
    rw [List.map_replicate]
    exact contents_replicate senders
  refine ⟨hpool, hcapacity, queued_init mq_capacity, rfl, List.length_replicate, ?_, ?_,
    fun i message m hi => ?_, rfl, rfl⟩
  · simp only [worker_init, hslots, callback_slot, Option.toList_none, List.append_nil]
    exact List.Perm.refl _
  · simp only [worker_init, hunwritten]
    rfl
  · have hmem := List.mem_of_getElem? hi
    cases List.eq_of_mem_replicate hmem

/-! ## What is seen of a worker -/

section

variable {w w' : worker_t δ φ} {capacity : Nat} {free queued free' queued' : List Nat}

/-- A thread that sends leaves the dispatcher where it is. -/
theorem send_keeps {i : Nat} {message : message_t δ φ} {result : Option Bool}
    (h : worker_send w i message = some (result, w')) :
    w'.handled = w.handled ∧ w'.dispatcher = w.dispatcher := by
  unfold worker_send at h
  cases hi : w.senders[i]? with
  | none =>
    simp only [hi] at h
    cases h
    exact ⟨rfl, rfl⟩
  | some sender =>
    simp only [hi] at h
    cases sender with
    | outside =>
      simp only at h
      split at h
      · cases h
        exact ⟨rfl, rfl⟩
      · obtain ⟨m, -, heq⟩ := Option.bind_eq_some_iff.mp h
        cases heq
        exact ⟨rfl, rfl⟩
    | filling message' m =>
      cases h
      exact ⟨rfl, rfl⟩
    | pushing message' m =>
      simp only at h
      split at h <;> cases h
      exact ⟨rfl, rfl⟩
    | writing message' =>
      simp only at h
      split at h <;> cases h
      exact ⟨rfl, rfl⟩

/-- A step puts into the queue what it notes as pushed. -/
theorem came_in_eq (h : Holds w capacity free queued) (h' : Holds w' capacity free' queued')
    (hkept : w'.handled = w.handled ∧ w'.dispatcher = w.dispatcher) {pushes : List (message_t δ φ)}
    (hpushed : w'.pushed = w.pushed ++ pushes) : came_in w w' = pushes := by
  have hall := h'.pushed
  rw [hpushed, List.map_append, h.pushed, hkept.1, hkept.2, List.append_assoc,
    List.append_cancel_left_eq, List.map_append, List.map_append, List.append_assoc] at hall
  obtain ⟨hsame, hmore⟩ := List.append_inj hall (by rw [List.length_map, List.length_map])
  have hdrop := congrArg (List.drop queued.length) hmore
  rw [List.drop_left' (List.length_map _), ← List.map_drop] at hdrop
  unfold came_in
  rw [h'.mq.values_eq, h.mq.size]
  simpa only [List.filterMap_map, Function.id_comp, List.filterMap_some] using
    (congrArg (List.filterMap id) hdrop).symm

/-- The message of the call that a thread is in. -/
def sender_call : sender_t δ φ → Option (message_t δ φ)
  | .outside => none
  | .filling message _ => some message
  | .pushing message _ => some message
  | .writing message => some message

/-- The messages whose `worker_send` returned true. -/
def sent (returned : List (message_t δ φ × Bool)) : List (message_t δ φ) :=
  (returned.filter Prod.snd).map Prod.fst

theorem sent_append (returned : List (message_t δ φ × Bool)) (message : message_t δ φ)
    (value : Bool) : sent (returned ++ [(message, value)]) =
      sent returned ++ if value then [message] else [] := by
  cases value <;> simp [sent]

/-- What is seen agrees with what is noted, and a message that was pushed is returned, or will be. -/
structure Told (s : history_t δ φ) (capacity : Nat) (free queued : List Nat) : Prop where
  holds : Holds s.state capacity free queued
  calls : s.calls = s.state.senders.map sender_call
  queued : s.queued = s.state.pushed
  passed : s.passed = s.state.handled.map message_t.data
  released : s.released = s.state.released
  returned : (contents (s.state.senders.map sender_unwritten) ++ sent s.returned).Perm s.queued

theorem told_init (mq_capacity senders : Nat) :
    Told (history_init mq_capacity senders : history_t δ φ) mq_capacity (List.range mq_capacity) [] := by
  refine ⟨init_holds mq_capacity senders, ?_, rfl, rfl, rfl, ?_⟩
  · change List.replicate senders none = (List.replicate senders .outside).map sender_call
    rw [List.map_replicate]
    rfl
  · change (contents ((List.replicate senders (.outside : sender_t δ φ)).map sender_unwritten) ++ []).Perm []
    rw [List.map_replicate, show (sender_unwritten (.outside : sender_t δ φ)) = none from rfl,
      contents_replicate]
    exact List.Perm.refl _

variable {s : history_t δ φ}

/-- A call goes on, or comes back with a value. -/
theorem told_send (h : Told s capacity free queued) (hcap : capacity + 1 < 2 ^ 64) (i : Nat)
    (message : message_t δ φ) :
    ∃ s' free' queued', worker_turn s (.sender i message) = some s' ∧ Told s' capacity free' queued' := by
  classical
  have hholds := h.holds
  cases hi : s.state.senders[i]? with
  | none =>
    have hlen : s.calls.length ≤ i := by
      rw [h.calls, List.length_map]
      exact List.getElem?_eq_none_iff.mp hi
    refine ⟨s, free, queued, ?_, h⟩
    have hcame : came_in s.state s.state = [] :=
      came_in_eq hholds hholds ⟨rfl, rfl⟩ (List.append_nil _).symm
    simp only [worker_turn, worker_send, hi, Option.bind_eq_bind, Option.bind_some, hcame,
      List.append_nil, List.set_eq_of_length_le hlen, Option.pure_def]
  | some sender =>
    have hcall : s.calls.getD i none = sender_call sender := by
      rw [h.calls, List.getD_eq_getElem?_getD, List.getElem?_map, hi]
      rfl
    obtain ⟨result, w', sender', pushes, free', queued', hsend, hholds', hstep, hsenders, hpushed,
      hreleased⟩ := send_step hholds hcap hi ((s.calls.getD i none).getD message)
    have hkept := send_keeps hsend
    have hcame := came_in_eq hholds hholds' hkept hpushed
    have hcalls : ∀ call, sender_call sender' = call →
        s.calls.set i call = w'.senders.map sender_call := by
      rintro _ rfl
      rw [hsenders, h.calls, List.map_set]
    have hunwritten := contents_map_set (f := sender_unwritten) hi sender'
    have hpassed : s.passed = w'.handled.map message_t.data := by rw [hkept.1, h.passed]
    have hqueued : s.queued ++ pushes = w'.pushed := by rw [hpushed, h.queued]
    have hreturned := fun a => h.returned.count_eq a
    have hcount := fun a => hunwritten.count_eq a
    rw [← hsenders] at hcount
    simp only [worker_turn, hsend, Option.bind_eq_bind, Option.bind_some, hcame, Option.pure_def]
    rw [hcall] at hstep ⊢
    cases hstep with
    | refused =>
      refine ⟨_, free', queued', rfl, hholds', hcalls none rfl, hqueued, hpassed,
        h.released.trans hreleased.symm, List.perm_iff_count.mpr fun a => ?_⟩
      have := hreturned a
      have := hcount a
      simp only [sent_append, sender_unwritten, Option.toList_none, List.nil_append,
        List.append_nil, List.count_append, Bool.false_eq_true, if_false] at *
      omega
    | began message m =>
      refine ⟨_, free', queued', rfl, hholds', hcalls _ rfl, hqueued, hpassed,
        h.released.trans hreleased.symm, List.perm_iff_count.mpr fun a => ?_⟩
      have := hreturned a
      have := hcount a
      simp only [sender_unwritten, Option.toList_none, List.nil_append, List.append_nil,
        List.count_append] at *
      omega
    | filled message' _ m =>
      refine ⟨_, free', queued', rfl, hholds', hcalls _ rfl, hqueued, hpassed,
        h.released.trans hreleased.symm, List.perm_iff_count.mpr fun a => ?_⟩
      have := hreturned a
      have := hcount a
      simp only [sender_unwritten, Option.toList_none, List.nil_append, List.append_nil,
        List.count_append] at *
      omega
    | pushed message' _ m =>
      refine ⟨_, free', queued', rfl, hholds', hcalls _ rfl, hqueued, hpassed,
        h.released.trans hreleased.symm, List.perm_iff_count.mpr fun a => ?_⟩
      have := hreturned a
      have := hcount a
      simp only [sender_unwritten, Option.toList_none, Option.toList_some, List.nil_append,
        List.count_append] at *
      omega
    | returned message' =>
      refine ⟨_, free', queued', rfl, hholds', hcalls none rfl, hqueued, hpassed,
        h.released.trans hreleased.symm, List.perm_iff_count.mpr fun a => ?_⟩
      have := hreturned a
      have := hcount a
      simp only [sent_append, sender_unwritten, sender_call, Option.toList_none,
        Option.toList_some, Option.getD_some, List.nil_append, List.append_nil, List.count_append,
        if_true] at *
      omega

theorem told_callback (h : Told s capacity free queued) :
    ∃ s' free' queued', worker_turn s .dispatcher = some s' ∧ Told s' capacity free' queued' := by
  obtain ⟨called, w', free', queued', hcallback, hholds', hsenders, hpushed, hhandled, hreleased⟩ :=
    callback_step h.holds
  have hcalls : s.calls = w'.senders.map sender_call := by rw [hsenders, h.calls]
  have hqueued : s.queued = w'.pushed := by rw [hpushed, h.queued]
  have hreturned := h.returned
  rw [← hsenders] at hreturned
  rw [← h.passed] at hhandled
  rw [← h.released] at hreleased
  simp only [worker_turn, hcallback, Option.bind_eq_bind, Option.bind_some, Option.pure_def]
  cases called with
  | none =>
    exact ⟨_, free', queued', rfl, hholds', hcalls, hqueued,
      (List.append_nil _).symm.trans hhandled.symm, (List.append_nil _).symm.trans hreleased.symm,
      hreturned⟩
  | some call =>
    cases call with
    | on_message data =>
      exact ⟨_, free', queued', rfl, hholds', hcalls, hqueued, hhandled.symm,
        (List.append_nil _).symm.trans hreleased.symm, hreturned⟩
    | free message =>
      exact ⟨_, free', queued', rfl, hholds', hcalls, hqueued,
        (List.append_nil _).symm.trans hhandled.symm, hreleased.symm, hreturned⟩

theorem told_run (h : Told s capacity free queued) (hcap : capacity + 1 < 2 ^ 64)
    (turns : List (turn δ φ)) :
    ∃ s' free' queued', worker_run turns s = some s' ∧ Told s' capacity free' queued' := by
  induction turns generalizing s free queued with
  | nil => exact ⟨s, free, queued, rfl, h⟩
  | cons t turns ih =>
    obtain ⟨s₁, free₁, queued₁, hturn, htold⟩ : ∃ s₁ free₁ queued₁, worker_turn s t = some s₁ ∧
        Told s₁ capacity free₁ queued₁ := by
      cases t with
      | sender i message => exact told_send h hcap i message
      | dispatcher => exact told_callback h
    obtain ⟨s', free', queued', hrun, htold'⟩ := ih htold
    refine ⟨s', free', queued', ?_, htold'⟩
    unfold worker_run at hrun ⊢
    rw [List.foldlM_cons, hturn]
    exact hrun

/-- What a thread has pushed belongs to its call. -/
theorem unwritten_calls (senders : List (sender_t δ φ)) :
    (contents (senders.map sender_unwritten)).Sublist (contents (senders.map sender_call)) := by
  rw [contents_map, contents_map]
  induction senders with
  | nil => exact List.Sublist.refl _
  | cons sender senders ih =>
    rw [List.flatMap_cons, List.flatMap_cons]
    refine List.Sublist.append ?_ ih
    cases sender with
    | outside => exact List.Sublist.refl _
    | filling message m => exact List.nil_sublist _
    | pushing message m => exact List.nil_sublist _
    | writing message => exact List.Sublist.refl _

end

/-! ## Any interleaving -/

/-- No thread is in `worker_send`, the dispatcher is not in `callback`, and nothing is told. -/
def Quiescent (s : history_t δ φ) : Prop :=
  (∀ call ∈ s.calls, call = none) ∧ s.state.dispatcher = .waiting ∧ s.state.eventfd = 0

/-- No step fails. What `on_message` got are the first messages that came into the queue, in their
order. A message whose `worker_send` returned true has come into the queue, once for each such call,
and what has come in is the message of such a call or of one that is under way. When the worker comes
to rest, each message sent has been passed on and released, and all places of the pool are free. -/
theorem messages_are_passed_on_once {mq_capacity : Nat} (hcap : mq_capacity + 1 < 2 ^ 64)
    (senders : Nat) (turns : List (turn δ φ)) :
    ∃ s, worker_run turns (history_init mq_capacity senders) = some s ∧
      s.passed <+: s.queued.map message_t.data ∧
      (sent s.returned).Subperm s.queued ∧
      s.queued.Subperm (contents s.calls ++ sent s.returned) ∧
      (Quiescent s → s.passed = s.queued.map message_t.data ∧ s.released = s.queued ∧
        (sent s.returned).Perm s.queued ∧
        ∃ free, Queued s.state.pool free ∧ free.Perm (List.range mq_capacity)) := by
  obtain ⟨s, free, queued, hrun, htold⟩ :=
    told_run (told_init (δ := δ) (φ := φ) mq_capacity senders) hcap turns
  have hholds := htold.holds
  have hpushed := hholds.pushed
  have hhandled := hholds.handled
  have hinj : Function.Injective (Option.some : message_t δ φ → _) := Option.some_injective _
  refine ⟨s, hrun, ?_, (List.sublist_append_right _ _).subperm.trans htold.returned.subperm, ?_, ?_⟩
  · rw [htold.passed, htold.queued]
    refine List.IsPrefix.map _ ?_
    have hlen := congrArg List.length hpushed
    rw [List.length_map, List.length_append, List.length_map] at hlen
    refine List.prefix_iff_eq_take.mpr (List.map_injective_iff.mpr hinj ?_)
    rw [List.map_take, hpushed, List.take_append_of_le_length (by rw [List.length_map]),
      List.take_of_length_le (by rw [List.length_map])]
  · rw [htold.calls]
    exact htold.returned.symm.subperm.trans
      ((unwritten_calls s.state.senders).append (List.Sublist.refl _)).subperm
  · rintro ⟨hout, hwaiting, hzero⟩
    have houtside : ∀ sender ∈ s.state.senders, sender = .outside := by
      intro sender hsender
      have hcall := hout (sender_call sender) (htold.calls ▸ List.mem_map_of_mem hsender)
      cases sender with
      | outside => rfl
      | filling message m => cases hcall
      | pushing message m => cases hcall
      | writing message => cases hcall
    have hnone : ∀ {α : Type} (f : sender_t δ φ → Option α), f .outside = none →
        contents (s.state.senders.map f) = [] := fun {α} f hf => by
      rw [List.eq_replicate_of_mem houtside, List.map_replicate, hf]
      exact contents_replicate _
    have hcount := hholds.count
    rw [hzero, hwaiting, hnone _ rfl] at hcount
    have hqueued : queued = [] := List.length_eq_zero_iff.mp hcount
    have hsplit := hholds.split
    have hsent := htold.returned
    rw [hwaiting, hqueued] at hpushed
    rw [hwaiting] at hhandled
    rw [hnone _ rfl] at hsent
    rw [hnone _ rfl, hwaiting, hqueued] at hsplit
    simp only [unhandled, List.map_nil, List.append_nil] at hpushed
    simp only [unreleased, List.map_nil, List.append_nil] at hhandled
    simp only [callback_slot, Option.toList_none, List.append_nil] at hsplit
    have hsame := List.map_injective_iff.mpr hinj hpushed
    have hsame' := List.map_injective_iff.mpr hinj hhandled
    refine ⟨?_, ?_, hsent, free, hholds.pool, hsplit⟩
    · rw [htold.passed, htold.queued, hsame]
    · rw [htold.released, htold.queued, hsame, hsame']

/-- Three threads send into a queue for two, which has no place for the last, and the dispatcher comes
to rest after both messages. -/
theorem messages_are_passed_on_once_two : ∃ s : history_t Nat Unit,
    worker_run ([0, 1, 2, 1, 1, 0, 0, 1, 0].map (fun i => .sender i ⟨7 + i, ()⟩) ++
        List.replicate 10 .dispatcher) (history_init 2 3) = some s ∧
      s.returned = [(⟨9, ()⟩, false), (⟨8, ()⟩, true), (⟨7, ()⟩, true)] ∧ Quiescent s ∧
      s.passed = [8, 7] ∧ s.released = s.queued ∧ (sent s.returned).Perm s.queued ∧
      ∃ free, Queued s.state.pool free ∧ free.Perm (List.range 2) := by
  obtain ⟨s, hrun, -, -, -, hrest⟩ := messages_are_passed_on_once (by norm_num : 2 + 1 < 2 ^ 64) 3
    ([0, 1, 2, 1, 1, 0, 0, 1, 0].map (fun i => (.sender i ⟨7 + i, ()⟩ : turn Nat Unit)) ++
      List.replicate 10 .dispatcher)
  obtain ⟨s', hrun', hcalls, hstate, hreturned, hqueued⟩ : ∃ s' : history_t Nat Unit,
      worker_run ([0, 1, 2, 1, 1, 0, 0, 1, 0].map (fun i => .sender i ⟨7 + i, ()⟩) ++
        List.replicate 10 .dispatcher) (history_init 2 3) = some s' ∧
      s'.calls = List.replicate 3 none ∧ (s'.state.dispatcher = .waiting ∧ s'.state.eventfd = 0) ∧
      s'.returned = [(⟨9, ()⟩, false), (⟨8, ()⟩, true), (⟨7, ()⟩, true)] ∧
      s'.queued = [⟨8, ()⟩, ⟨7, ()⟩] :=
    ⟨_, rfl, rfl, ⟨rfl, rfl⟩, rfl, rfl⟩
  obtain rfl : s = s' := Option.some.inj (hrun.symm.trans hrun')
  have hquiet : Quiescent s := by
    refine ⟨fun call hcall => ?_, hstate⟩
    rw [hcalls] at hcall
    exact List.eq_of_mem_replicate hcall
  obtain ⟨hpassed, hreleased, hperm, hfree⟩ := hrest hquiet
  refine ⟨s, hrun, hreturned, hquiet, ?_, hreleased, hperm, hfree⟩
  rw [hpassed, hqueued]
  rfl

end nettle.worker
