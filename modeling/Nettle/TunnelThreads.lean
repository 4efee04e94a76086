-- The threads of two whole ends: at each of them the listeners and the workers
-- of the processors, interleaved in any way. Such a run has done what turns do,
-- each of them from a datagram to what a processor makes of it.
import Nettle.ListenerMessages
import Nettle.TunnelForwarding

open nettle.nt_fec nettle.nt_listener nettle.nt_processor nettle.udp nettle.worker
open nettle.nt_dup_fec (fecs_init nt_dup_fec_t)
open nettle.nt_rs_fec (idgen_t)

namespace nettle.tunnel

variable {F : Type}

/-! ## A whole end -/

/-- The listeners and workers of an end, and what its processors share. -/
structure whole_end (F : Type) where
  threads : tunnel_t
  rest : tunnel_end F

/-- The listeners as `main` sets them up, with one encoder and one decoder for each FEC. -/
def whole_init (mq_capacity : Nat) (memory : pool_buffer_t → List UInt8) (t : tunnel_end F) :
    whole_end F where
  threads := tunnel_init (fun _ => mq_capacity) (fun _ => t.max_udp_buffer_size) t.fecs.length
    mq_capacity memory
  rest := t

/-- The thread that takes its next step, with what the system has for a listener, and the time and
what is left in the buffer if a worker gets a message. -/
inductive move where
  | listener (s : side) (incoming : Except error_t (address_t × List UInt8))
  | worker (s : side) (w : Nat) (clock : Int) (left : List UInt8)

/-- `encoder_on_message` or `decoder_on_message` of processor `w`. -/
def on_message (nt_fec_encode : nt_fec_encode_t (F × idgen_t))
    (nt_fec_decode : nt_fec_decode_t (F × idgen_t)) (t : tunnel_end F) (s : side) (w : Nat)
    (message : List UInt8) (clock : Int) : Option (tunnel_end F) := do
  let processor ← processors t w
  match s with
  | .api =>
    let processor ← encoder_on_message nt_fec_encode processor message
    return store t w processor
  | .tun =>
    let (processor, failure) ← decoder_on_message nt_fec_decode processor message clock
    return { store t w processor with failures := count_failure t.failures failure }

/-- The processors after a step of a worker. -/
def pass_on (nt_fec_encode : nt_fec_encode_t (F × idgen_t))
    (nt_fec_decode : nt_fec_decode_t (F × idgen_t)) (e : whole_end F) (s : side) (w : Nat)
    (clock : Int) : Option (tunnel_end F) :=
  match passed_on e.threads s w with
  | none => some e.rest
  | some message => on_message nt_fec_encode nt_fec_decode e.rest s w message clock

def whole_step (nt_fec_encode : nt_fec_encode_t (F × idgen_t))
    (nt_fec_decode : nt_fec_decode_t (F × idgen_t)) (e : whole_end F) : move → Option (whole_end F)
  | .listener s incoming => do
    let threads ← handle_read e.threads s incoming
    return { e with threads }
  | .worker s w clock left => do
    let rest ← pass_on nt_fec_encode nt_fec_decode e s w clock
    let threads ← process e.threads s w left
    return ⟨threads, rest⟩

/-- What a listener accepts in a step. -/
def accepted_in (e : whole_end F) : move → List ((side × Nat) × List UInt8)
  | .listener s incoming => accepted e.threads s incoming
  | .worker .. => []

/-- What the system can have for a listener. -/
def Meets (ends : peer → whole_end F) (p : peer) : move → Prop
  | .listener .api (.ok (_, datagram)) => datagram.length ≤ UDP_MAX
  | .listener .tun (.ok (_, datagram)) =>
    datagram ∈ (ends p.other).rest.tun_udp.sent.map Prod.snd ∧ datagram.length ≤ UDP_MAX
  | _ => True

/-- The states that two whole ends can come to, with what their listeners have accepted. -/
inductive Runs (nt_fec_encode : nt_fec_encode_t (F × idgen_t))
    (nt_fec_decode : nt_fec_decode_t (F × idgen_t)) (start : peer → whole_end F) :
    (peer → List ((side × Nat) × List UInt8)) → (peer → whole_end F) → Prop
  | start : Runs nt_fec_encode nt_fec_decode start (fun _ => []) start
  | step {log : peer → List ((side × Nat) × List UInt8)} {ends : peer → whole_end F} {p : peer}
      {st : move} {e : whole_end F} : Runs nt_fec_encode nt_fec_decode start log ends →
      Meets ends p st → whole_step nt_fec_encode nt_fec_decode (ends p) st = some e →
      Runs nt_fec_encode nt_fec_decode start
        (Function.update log p (log p ++ accepted_in (ends p) st)) (Function.update ends p e)

/-! ## The turns behind the steps -/

/-- The worker that a turn is for, and its message. -/
def message_of_event (max_buffer_size processor_num : Nat) : event → Option ((side × Nat) × List UInt8)
  | .api i src buffer datagram =>
    (api_message max_buffer_size src buffer datagram).map fun message => ((.api, i), message)
  | .tun buffer datagram _ =>
    (tun_message processor_num max_buffer_size buffer datagram).map fun (w, message) =>
      ((.tun, w), message)

def messages_at (max_buffer_size processor_num : Nat) (p : peer) (turns : List (peer × event)) :
    List ((side × Nat) × List UInt8) :=
  (turns_at p turns).filterMap (message_of_event max_buffer_size processor_num)

/-- A message that a listener can accept. -/
def Came (max_buffer_size processor_num : Nat) (sent : List (List UInt8)) :
    (side × Nat) × List UInt8 → Prop
  | ((.api, w), message) => w < processor_num ∧ ∃ src buffer datagram, datagram.length ≤ UDP_MAX ∧
    api_message max_buffer_size src buffer datagram = some message
  | ((.tun, w), message) => ∃ buffer datagram, (datagram ∈ sent ∧ datagram.length ≤ UDP_MAX) ∧
    tun_message processor_num max_buffer_size buffer datagram = some (w, message)

theorem Came.mono {max_buffer_size processor_num : Nat} {sent sent' : List (List UInt8)}
    (hsent : sent ⊆ sent') {entry : (side × Nat) × List UInt8}
    (h : Came max_buffer_size processor_num sent entry) :
    Came max_buffer_size processor_num sent' entry := by
  obtain ⟨⟨s, w⟩, message⟩ := entry
  cases s with
  | api => exact h
  | tun =>
    obtain ⟨buffer, datagram, ⟨hmem, hmax⟩, hmessage⟩ := h
    exact ⟨buffer, datagram, ⟨hsent hmem, hmax⟩, hmessage⟩

section

variable {nt_fec_encode : nt_fec_encode_t (F × idgen_t)} {nt_fec_decode : nt_fec_decode_t (F × idgen_t)}
  {ends : peer → whole_end F}

/-- What is left to do for a message is a turn. -/
theorem turn_of_message (nt_fec_encode : nt_fec_encode_t (F × idgen_t))
    (nt_fec_decode : nt_fec_decode_t (F × idgen_t)) {p : peer} {n num : Nat} (hn : (ends p).rest.max_udp_buffer_size = n)
    (hnum : (ends p).rest.fecs.length = num) {s : side} {w : Nat} {message : List UInt8}
    (h : Came n num ((ends p.other).rest.tun_udp.sent.map Prod.snd) ((s, w), message)) (clock : Int) :
    ∃ ev, Possible (fun p => (ends p).rest) p ev ∧ message_of_event n num ev = some ((s, w), message) ∧
      end_turn nt_fec_encode nt_fec_decode (ends p).rest ev =
        on_message nt_fec_encode nt_fec_decode (ends p).rest s w message clock := by
  subst hn hnum
  cases s with
  | api =>
    obtain ⟨hw, src, buffer, datagram, hmax, hmessage⟩ := h
    refine ⟨.api w src buffer datagram, ⟨hw, hmax⟩, ?_, ?_⟩
    · simp only [message_of_event, hmessage, Option.map_some]
    · simp only [end_turn, hmessage]
      rfl
  | tun =>
    obtain ⟨buffer, datagram, hsent, hmessage⟩ := h
    refine ⟨.tun buffer datagram clock, hsent, ?_, ?_⟩
    · simp only [message_of_event, hmessage, Option.map_some]
    · simp only [end_turn, hmessage]
      rfl

/-- What is sent stays sent. -/
theorem on_message_sent {encode : encode_t F} {decode : decode_t F}
    (hemits : Emits nt_fec_encode encode) (hhands : HandsOver nt_fec_decode decode)
    {t t' : tunnel_end F} {s : side} {w : Nat} {message : List UInt8} {clock : Int}
    (h : on_message nt_fec_encode nt_fec_decode t s w message clock = some t') :
    t.tun_udp.sent ⊆ t'.tun_udp.sent ∧ t'.max_udp_buffer_size = t.max_udp_buffer_size ∧
      t'.fecs.length = t.fecs.length := by
  simp only [on_message, Option.bind_eq_bind, Option.bind_eq_some_iff] at h
  obtain ⟨processor, hprocessor, h⟩ := h
  obtain ⟨fec, -, rfl⟩ := Option.map_eq_some_iff.mp hprocessor
  cases s with
  | api =>
    obtain ⟨processor', hmessage, heq⟩ := Option.bind_eq_some_iff.mp h
    obtain rfl := Option.some.inj heq
    refine ⟨?_, rfl, List.length_set⟩
    rcases encoder_on_message_cases hemits hmessage with ⟨fec', tun_udp, perf, rfl, sends, hsent, -⟩ | rfl
    · rw [Prod.mk.injEq] at hsent
      simp only [store, hsent.1]
      exact List.subset_append_left _ _
    · exact List.Subset.refl _
  | tun =>
    obtain ⟨r, hmessage, heq⟩ := Option.bind_eq_some_iff.mp h
    obtain rfl := Option.some.inj heq
    refine ⟨?_, rfl, List.length_set⟩
    obtain ⟨err, fec', handed, processor', -, hall, rfl⟩ := decoder_on_message_cases hhands hmessage
    have htun : ∀ {handed processor'}, DecodedAll (φ := F × idgen_t)
        ⟨t.distributor, t.api_udp, t.tun_udp, (fec, t.idgen), none, t.perf⟩ handed processor' →
        processor'.tun_udp = t.tun_udp := by
      intro handed processor' hall
      induction hall with
      | start => rfl
      | next decoded _ hone ih => cases hone <;> exact ih
    simp only [store, htun hall]
    exact List.Subset.refl _

/-- The listeners of an end go with its processors. -/
structure Sound (e : whole_end F) (mq_capacity : Nat) : Prop where
  owned : Owned e.threads (fun _ => mq_capacity) mq_capacity []
  workers : ∀ s, (e.threads.listeners s).workers.length = e.rest.fecs.length
  size : ∀ s, (e.threads.listeners s).max_buffer_size = e.rest.max_udp_buffer_size

/-- What a listener accepts has come to its port. -/
theorem accepted_came {p : peer} {mq_capacity : Nat} (h : Sound (ends p) mq_capacity) {s : side}
    {incoming : Except error_t (address_t × List UInt8)} (hmeets : Meets ends p (.listener s incoming))
    {entry : (side × Nat) × List UInt8} (hentry : entry ∈ accepted (ends p).threads s incoming) :
    Came (ends p).rest.max_udp_buffer_size (ends p).rest.fecs.length
      ((ends p.other).rest.tun_udp.sent.map Prod.snd) entry := by
  unfold accepted at hentry
  split at hentry
  · next b hhandler =>
    have hlast := (h.owned.listens s).last
    cases s with
    | api =>
      simp only at hentry
      split at hentry
      · next b' w hsending =>
        obtain rfl := List.mem_singleton.mp hentry
        have hreceives := api_receives hlast (ends p).threads.perf b
          ((ends p).threads.memory ⟨.api, b⟩) incoming
        rcases hreceives.handler with hfreeing | ⟨w', hw', hsending'⟩
        · rw [hfreeing] at hsending
          cases hsending
        · rw [hsending'] at hsending
          cases hsending
          refine ⟨h.workers .api ▸ hw', ?_⟩
          cases incoming with
          | error err =>
            simp only [api_handle_read] at hsending'
            cases hsending'
          | ok received =>
            obtain ⟨src, datagram⟩ := received
            refine ⟨src, (ends p).threads.memory ⟨.api, b⟩, datagram, hmeets, ?_⟩
            rw [← h.size .api]
            exact api_handle_read_dispatches rfl hsending'
      · exact absurd hentry List.not_mem_nil
    | tun =>
      simp only at hentry
      split at hentry
      · next b' w hsending =>
        obtain rfl := List.mem_singleton.mp hentry
        have hreceives := tun_receives hlast (ends p).threads.perf b
          ((ends p).threads.memory ⟨.tun, b⟩) incoming
        rcases hreceives.handler with hfreeing | ⟨w', hw', hsending'⟩
        · rw [hfreeing] at hsending
          cases hsending
        · rw [hsending'] at hsending
          cases hsending
          cases incoming with
          | error err =>
            simp only [tun_handle_read] at hsending'
            cases hsending'
          | ok received =>
            obtain ⟨src, datagram⟩ := received
            refine ⟨(ends p).threads.memory ⟨.tun, b⟩, datagram, hmeets, ?_⟩
            rw [← h.size .tun, ← h.workers .tun]
            exact tun_handle_read_dispatches (Eq.refl (tun_handle_read _ _ _ _ (.ok (src, datagram))))
              hsending'
      · exact absurd hentry List.not_mem_nil
  · exact absurd hentry List.not_mem_nil

end

/-! ## Runs -/

theorem messages_at_self (n num : Nat) (p : peer) (turns : List (peer × event)) {ev : event}
    {entry : (side × Nat) × List UInt8} (h : message_of_event n num ev = some entry) :
    messages_at n num p (turns ++ [(p, ev)]) = messages_at n num p turns ++ [entry] := by
  rw [messages_at, turns_at_self, List.filterMap_append, List.filterMap_cons_some h]
  rfl

theorem messages_at_ne (n num : Nat) {p q : peer} (hq : q ≠ p) (turns : List (peer × event))
    (ev : event) : messages_at n num p (turns ++ [(q, ev)]) = messages_at n num p turns := by
  rw [messages_at, turns_at_ne hq]
  rfl

section

variable {nt_fec_encode : nt_fec_encode_t (F × idgen_t)} {nt_fec_decode : nt_fec_decode_t (F × idgen_t)}
  {encode : encode_t F} {decode : decode_t F} {start : peer → tunnel_end F} {mq_capacity : peer → Nat}
  {memory : peer → pool_buffer_t → List UInt8} {ends : peer → whole_end F}
  {log : peer → List ((side × Nat) × List UInt8)} {turns : List (peer × event)}

/-- The turns that are behind a state: what waits at a worker has been accepted after all that the
worker has had, and before all that comes to wait. -/
structure Turned (nt_fec_encode : nt_fec_encode_t (F × idgen_t))
    (nt_fec_decode : nt_fec_decode_t (F × idgen_t)) (start : peer → tunnel_end F)
    (mq_capacity : peer → Nat) (log : peer → List ((side × Nat) × List UInt8))
    (ends : peer → whole_end F) (turns : List (peer × event)) : Prop where
  reaches : Reaches nt_fec_encode nt_fec_decode start turns fun p => (ends p).rest
  sound : ∀ p, Sound (ends p) (mq_capacity p)
  size : ∀ p, (ends p).rest.max_udp_buffer_size = (start p).max_udp_buffer_size
  num : ∀ p, (ends p).rest.fecs.length = (start p).fecs.length
  came : ∀ p, ∀ entry ∈ log p, Came (start p).max_udp_buffer_size (start p).fecs.length
    ((ends p.other).rest.tun_udp.sent.map Prod.snd) entry
  kept : ∀ p place, (noted place (messages_at (start p).max_udp_buffer_size (start p).fecs.length p
    turns) ++ contents (ends p).threads place).Sublist (noted place (log p))

theorem turned_start (hpos : ∀ p, 0 < mq_capacity p) :
    Turned nt_fec_encode nt_fec_decode start mq_capacity (fun _ => [])
      (fun p => whole_init (mq_capacity p) (memory p) (start p)) [] where
  reaches := .start
  sound p := {
    owned := init_owned (fun _ => hpos p) _ _ _ _
    workers := fun _ => List.length_replicate
    size := fun _ => rfl }
  size _ := rfl
  num _ := rfl
  came _ := List.forall_mem_nil _
  kept p place := by
    have hnone : contents (whole_init (mq_capacity p) (memory p) (start p)).threads place = [] := by
      unfold contents pending underway
      simp only [whole_init, tunnel_init, nt_listener_init, List.append_nil, List.getElem?_replicate]
      split
      · rw [Option.elim_some, unread_init]
        rfl
      · rfl
    rw [hnone]
    exact List.Sublist.refl _

theorem mem_noted {place : side × Nat} {message : List UInt8}
    {log : List ((side × Nat) × List UInt8)} :
    message ∈ noted place log ↔ (place, message) ∈ log := by
  simp [noted]

/-- A step at `p` that accepts `more`. -/
theorem Turned.step (h : Turned nt_fec_encode nt_fec_decode start mq_capacity log ends turns) {p : peer}
    {e : whole_end F} {turns' : List (peer × event)} {more : List ((side × Nat) × List UInt8)}
    (hreaches : Reaches nt_fec_encode nt_fec_decode start turns'
      (Function.update (fun q => (ends q).rest) p e.rest))
    (hsound : Sound e (mq_capacity p))
    (hsize : e.rest.max_udp_buffer_size = (ends p).rest.max_udp_buffer_size)
    (hnum : e.rest.fecs.length = (ends p).rest.fecs.length)
    (hsent : (ends p).rest.tun_udp.sent ⊆ e.rest.tun_udp.sent)
    (hmore : ∀ entry ∈ more, Came (start p).max_udp_buffer_size (start p).fecs.length
      ((ends p.other).rest.tun_udp.sent.map Prod.snd) entry)
    (hother : ∀ q, q ≠ p →
      messages_at (start q).max_udp_buffer_size (start q).fecs.length q turns' =
        messages_at (start q).max_udp_buffer_size (start q).fecs.length q turns)
    (hkept : ∀ place, (noted place (messages_at (start p).max_udp_buffer_size (start p).fecs.length p
      turns') ++ contents e.threads place).Sublist (noted place (log p) ++ noted place more)) :
    Turned nt_fec_encode nt_fec_decode start mq_capacity (Function.update log p (log p ++ more))
      (Function.update ends p e) turns' := by
  have hrest : (fun q => (Function.update ends p e q).rest) =
      Function.update (fun q => (ends q).rest) p e.rest := by
    funext q
    by_cases hq : q = p
    · subst hq
      simp only [Function.update_self]
    · simp only [Function.update_of_ne hq]
  have hmono : ∀ q, (ends q).rest.tun_udp.sent ⊆ (Function.update ends p e q).rest.tun_udp.sent := by
    intro q
    by_cases hq : q = p
    · subst hq
      rw [Function.update_self]
      exact hsent
    · rw [Function.update_of_ne hq]
      exact List.Subset.refl _
  refine {
    reaches := hrest ▸ hreaches
    sound := fun q => ?_
    size := fun q => ?_
    num := fun q => ?_
    came := fun q entry hentry => Came.mono (List.map_subset _ (hmono q.other)) ?_
    kept := fun q place => ?_ } <;> by_cases hq : q = p
  case pos => subst hq; rw [Function.update_self]; exact hsound
  case neg => rw [Function.update_of_ne hq]; exact h.sound q
  case pos => subst hq; rw [Function.update_self, hsize, h.size]
  case neg => rw [Function.update_of_ne hq, h.size]
  case pos => subst hq; rw [Function.update_self, hnum, h.num]
  case neg => rw [Function.update_of_ne hq, h.num]
  case pos =>
    subst hq
    rw [Function.update_self] at hentry
    rcases List.mem_append.mp hentry with hold | hnew
    · exact h.came q entry hold
    · exact hmore entry hnew
  case neg =>
    rw [Function.update_of_ne hq] at hentry
    exact h.came q entry hentry
  case pos =>
    subst hq
    rw [Function.update_self, Function.update_self, noted_append]
    exact hkept place
  case neg =>
    rw [Function.update_of_ne hq, Function.update_of_ne hq, hother q hq]
    exact h.kept q place

/-- A step of a listener is no turn. -/
theorem Turned.listener (h : Turned nt_fec_encode nt_fec_decode start mq_capacity log ends turns)
    (hcap : ∀ p, mq_capacity p + 1 < 2 ^ 64) {p : peer} {s : side}
    {incoming : Except error_t (address_t × List UInt8)} (hmeets : Meets ends p (.listener s incoming))
    {threads : tunnel_t} (hread : handle_read (ends p).threads s incoming = some threads) :
    Turned nt_fec_encode nt_fec_decode start mq_capacity
      (Function.update log p (log p ++ accepted (ends p).threads s incoming))
      (Function.update ends p ⟨threads, (ends p).rest⟩) turns := by
  have hsound := h.sound p
  obtain ⟨threads', hread', howned⟩ := handle_read_step hsound.owned (hcap p) s incoming
  rw [hread, Option.some.injEq] at hread'
  subst hread'
  refine h.step ?_ ?_ rfl rfl (List.Subset.refl _) ?_ (fun _ _ => rfl) fun place => ?_
  · simp only [Function.update_eq_self]
    exact h.reaches
  · exact {
      owned := howned
      workers := fun r => (handle_read_shape hread r).1.trans (hsound.workers r)
      size := fun r => (handle_read_shape hread r).2.trans (hsound.size r) }
  · intro entry hentry
    rw [← h.size, ← h.num]
    exact accepted_came hsound hmeets hentry
  · have hcontents := handle_read_contents hsound.owned (hcap p) hread place
    refine ((List.Sublist.refl _).append hcontents).trans ?_
    rw [← List.append_assoc]
    exact (h.kept p place).append_right _

/-- A message that waits at a worker has been accepted for it. -/
theorem Turned.waiting (h : Turned nt_fec_encode nt_fec_decode start mq_capacity log ends turns)
    {p : peer} {s : side} {w : Nat} {message : List UInt8}
    (hwaits : message ∈ contents (ends p).threads (s, w)) :
    Came (ends p).rest.max_udp_buffer_size (ends p).rest.fecs.length
      ((ends p.other).rest.tun_udp.sent.map Prod.snd) ((s, w), message) := by
  rw [h.size, h.num]
  have hnoted := (h.kept p (s, w)).subset (List.mem_append_right _ hwaits)
  exact h.came p _ (mem_noted.mp hnoted)

/-- A step of a worker is the turn of the message that it passes on, if there is one. -/
theorem Turned.worker (h : Turned nt_fec_encode nt_fec_decode start mq_capacity log ends turns)
    (hemits : Emits nt_fec_encode encode) (hhands : HandsOver nt_fec_decode decode) {p : peer}
    {s : side} {w : Nat} {clock : Int} {left : List UInt8} {e : whole_end F}
    (hstep : whole_step nt_fec_encode nt_fec_decode (ends p) (.worker s w clock left) = some e) :
    ∃ turns', Turned nt_fec_encode nt_fec_decode start mq_capacity (Function.update log p (log p ++ []))
      (Function.update ends p e) turns' := by
  simp only [whole_step, Option.bind_eq_bind, Option.bind_eq_some_iff] at hstep
  obtain ⟨rest, hpass, threads, hprocess, heq⟩ := hstep
  obtain rfl := Option.some.inj heq
  have hsound := h.sound p
  have hcontents := process_contents hsound.owned hprocess
  have hshape := process_shape hprocess
  obtain ⟨threads', hprocess', howned⟩ := process_step hsound.owned s w left
  rw [hprocess, Option.some.injEq] at hprocess'
  subst hprocess'
  unfold pass_on at hpass
  cases hpassed : passed_on (ends p).threads s w with
  | none =>
    rw [hpassed] at hpass hcontents
    obtain rfl := Option.some.inj hpass
    refine ⟨turns, h.step ?_ ?_ rfl rfl (List.Subset.refl _) (List.forall_mem_nil _) (fun _ _ => rfl)
      fun place => ?_⟩
    · simp only [Function.update_eq_self]
      exact h.reaches
    · exact ⟨howned, fun r => (hshape r).1.trans (hsound.workers r),
        fun r => (hshape r).2.trans (hsound.size r)⟩
    · have hkept := h.kept p place
      rw [hcontents place] at hkept
      simpa [noted] using hkept
  | some message =>
    rw [hpassed] at hpass hcontents
    have hwaits : message ∈ contents (ends p).threads (s, w) := by
      rw [hcontents (s, w), if_pos rfl]
      exact List.mem_cons_self
    obtain ⟨ev, hpossible, hmessage, hturn⟩ :=
      turn_of_message nt_fec_encode nt_fec_decode rfl rfl (h.waiting hwaits) clock
    rw [h.size, h.num] at hmessage
    obtain ⟨hsent, hsize, hnum⟩ := on_message_sent hemits hhands hpass
    refine ⟨turns ++ [(p, ev)], h.step (h.reaches.turn hpossible (hturn.trans hpass)) ?_ hsize hnum
      hsent (List.forall_mem_nil _) (fun q hq => messages_at_ne _ _ (Ne.symm hq) _ _) fun place => ?_⟩
    · exact ⟨howned, fun r => (hshape r).1.trans ((hsound.workers r).trans hnum.symm),
        fun r => (hshape r).2.trans ((hsound.size r).trans hsize.symm)⟩
    · have hkept := h.kept p place
      rw [hcontents place, ← List.append_assoc] at hkept
      rw [messages_at_self _ _ _ _ hmessage, noted_append]
      have hone : noted place [((s, w), message)] =
          if place = (s, w) then (some message).toList else [] := by
        split
        · next heq => rw [heq, noted_self]; rfl
        · next hne => exact noted_ne (Ne.symm hne) _
      rw [hone]
      exact hkept.trans (sublist_of_eq (List.append_nil _).symm)

/-- A state of the threads has turns behind it. -/
theorem turned_run (hemits : Emits nt_fec_encode encode) (hhands : HandsOver nt_fec_decode decode)
    (hpos : ∀ p, 0 < mq_capacity p) (hcap : ∀ p, mq_capacity p + 1 < 2 ^ 64)
    (h : Runs nt_fec_encode nt_fec_decode (fun p => whole_init (mq_capacity p) (memory p) (start p))
      log ends) :
    ∃ turns, Turned nt_fec_encode nt_fec_decode start mq_capacity log ends turns := by
  induction h with
  | start => exact ⟨[], turned_start hpos⟩
  | @step log ends p st e hrun hmeets hstep ih =>
    obtain ⟨turns, hturned⟩ := ih
    cases st with
    | listener s incoming =>
      simp only [whole_step, Option.bind_eq_bind, Option.bind_eq_some_iff] at hstep
      obtain ⟨threads, hread, heq⟩ := hstep
      obtain rfl := Option.some.inj heq
      exact ⟨turns, hturned.listener hcap hmeets hread⟩
    | worker s w clock left => exact hturned.worker hemits hhands hstep

/-- What a worker has to do can be done when the turns can be taken. -/
theorem Turned.can_step (h : Turned nt_fec_encode nt_fec_decode start mq_capacity log ends turns)
    (hcap : ∀ p, mq_capacity p + 1 < 2 ^ 64)
    (htakes : ∀ p ev, Possible (fun q => (ends q).rest) p ev →
      ∃ t, end_turn nt_fec_encode nt_fec_decode (ends p).rest ev = some t) (p : peer) (st : move) :
    ∃ e, whole_step nt_fec_encode nt_fec_decode (ends p) st = some e := by
  cases st with
  | listener s incoming =>
    obtain ⟨threads, hread, -⟩ := handle_read_step (h.sound p).owned (hcap p) s incoming
    exact ⟨⟨threads, (ends p).rest⟩, by simp only [whole_step, hread]; rfl⟩
  | worker s w clock left =>
    obtain ⟨threads, hprocess, -⟩ := process_step (h.sound p).owned s w left
    have hpass : ∃ rest, pass_on nt_fec_encode nt_fec_decode (ends p) s w clock = some rest := by
      unfold pass_on
      cases hpassed : passed_on (ends p).threads s w with
      | none => exact ⟨_, rfl⟩
      | some message =>
        have hwaits : message ∈ contents (ends p).threads (s, w) := by
          rw [process_contents (h.sound p).owned hprocess (s, w), if_pos rfl, hpassed]
          exact List.mem_cons_self
        obtain ⟨ev, hpossible, -, hturn⟩ :=
          turn_of_message nt_fec_encode nt_fec_decode rfl rfl (h.waiting hwaits) clock
        obtain ⟨t, ht⟩ := htakes p ev hpossible
        exact ⟨t, hturn.symm.trans ht⟩
    obtain ⟨rest, hrest⟩ := hpass
    exact ⟨⟨threads, rest⟩, by simp only [whole_step, hrest, hprocess]; rfl⟩

/-- The threads do what turns do, in any interleaving. Each worker has had messages that its listener
accepted, in their order and as they were, and as long as turns can be taken no thread is stuck. -/
theorem threads_take_turns (hemits : Emits nt_fec_encode encode) (hhands : HandsOver nt_fec_decode decode)
    (hpos : ∀ p, 0 < mq_capacity p) (hcap : ∀ p, mq_capacity p + 1 < 2 ^ 64)
    (h : Runs nt_fec_encode nt_fec_decode (fun p => whole_init (mq_capacity p) (memory p) (start p))
      log ends) :
    ∃ turns, Reaches nt_fec_encode nt_fec_decode start turns (fun p => (ends p).rest) ∧
      (∀ p place, (noted place (messages_at (start p).max_udp_buffer_size (start p).fecs.length p
        turns)).Sublist (noted place (log p))) ∧
      ((∀ p ev, Possible (fun q => (ends q).rest) p ev →
        ∃ t, end_turn nt_fec_encode nt_fec_decode (ends p).rest ev = some t) →
        ∀ p st, ∃ e, whole_step nt_fec_encode nt_fec_decode (ends p) st = some e) := by
  obtain ⟨turns, hturned⟩ := turned_run hemits hhands hpos hcap h
  exact ⟨turns, hturned.reaches,
    fun p place => (List.sublist_append_left _ _).trans (hturned.kept p place),
    hturned.can_step hcap⟩

end

/-- An end can go on alone, with what clients send to it. -/
theorem runs_alone {nt_fec_encode : nt_fec_encode_t (F × idgen_t)}
    {nt_fec_decode : nt_fec_decode_t (F × idgen_t)} (start : peer → whole_end F) (p : peer)
    {moves : List move} (hmeets : ∀ st ∈ moves, ∀ ends : peer → whole_end F, Meets ends p st)
    {e : whole_end F} (hmoves : moves.foldlM (whole_step nt_fec_encode nt_fec_decode) (start p) = some e) :
    ∃ log, Runs nt_fec_encode nt_fec_decode start log (Function.update start p e) := by
  induction moves using List.reverseRecOn generalizing e with
  | nil =>
    obtain rfl := Option.some.inj hmoves
    rw [Function.update_eq_self]
    exact ⟨_, .start⟩
  | append_singleton moves st ih =>
    simp only [List.foldlM_append, List.foldlM_cons, List.foldlM_nil, bind_pure, Option.bind_eq_bind,
      Option.bind_eq_some_iff] at hmoves
    obtain ⟨e₁, hmoves, hstep⟩ := hmoves
    obtain ⟨log, hruns⟩ := ih (fun st hst => hmeets st (List.mem_append_left _ hst)) hmoves
    have hnext := hruns.step (hmeets st (List.mem_append_right _ List.mem_cons_self) _)
      (by rw [Function.update_self]; exact hstep)
    rw [Function.update_idem] at hnext
    exact ⟨_, hnext⟩

/-- Both copies of a message are sent, step by step. -/
theorem threads_take_turns_one : ∃ (start : peer → tunnel_end nt_dup_fec_t)
    (log : peer → List ((side × Nat) × List UInt8)) (ends : peer → whole_end nt_dup_fec_t)
    (turns : List (peer × event)),
    Runs dup_fec_encode dup_fec_decode (fun p => whole_init 1 (fun _ => []) (start p)) log ends ∧
    (ends .left).rest.tun_udp.sent.length = 2 ∧
    Reaches dup_fec_encode dup_fec_decode start turns (fun p => (ends p).rest) ∧
    ∀ place, (noted place (messages_at 64 1 .left turns)).Sublist (noted place (log .left)) := by
  have hrun : ((fecs_init [⟨2, 1, 0, 2, 100, fun _ => 0⟩]).bind fun fecs =>
      ((List.replicate 6 (move.listener .api (.ok (.addr_in 5 6, one_byte 0 0 42))) ++
        List.replicate 4 (move.worker .api 0 0 [])).foldlM (whole_step dup_fec_encode dup_fec_decode)
          (whole_init 1 (fun _ => []) (open_end fecs 0))).map fun e : whole_end nt_dup_fec_t =>
        (fecs.length, e.rest.tun_udp.sent.length)) = some (1, 2) := by
    decide +kernel
  simp only [Option.bind_eq_some_iff, Option.map_eq_some_iff, Prod.mk.injEq] at hrun
  obtain ⟨fecs, -, e, hmoves, hone, hsent⟩ := hrun
  obtain ⟨log, hruns⟩ := runs_alone (fun _ => whole_init 1 (fun _ => []) (open_end fecs 0))
    .left (fun st hst ends => by
      rcases List.mem_append.mp hst with h | h <;> rw [(List.mem_replicate.mp h).2]
      · exact (by decide : 20 ≤ UDP_MAX)
      · trivial) hmoves
  obtain ⟨turns, hreaches, hnoted, -⟩ := threads_take_turns dup_emits dup_hands (fun _ => Nat.one_pos)
    (fun _ => by decide) hruns
  refine ⟨_, log, _, turns, hruns, ?_, hreaches, fun place => ?_⟩
  · rw [Function.update_self]
    exact hsent
  · have hleft := hnoted .left place
    rwa [show (open_end fecs 0).fecs.length = 1 from hone] at hleft

end nettle.tunnel
