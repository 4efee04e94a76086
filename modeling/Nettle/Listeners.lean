-- The two listeners of a tunnel (nt_listener.c) with the workers they send to.
-- A handler runs in the thread of its listener and each worker in its own, so
-- the handlers are taken apart into the steps that other threads can see.
-- `none` is a failed `ensure`, or a pointer to nothing that is used.
import Nettle.NtListener
import Nettle.Worker

open nettle.nt_fec nettle.queue nettle.udp nettle.worker

namespace nettle.nt_listener

/-! ## The data -/

/-- Which datagrams a listener reads. -/
inductive side where
  | api
  | tun
  deriving DecidableEq, Repr

/-- A buffer points to the pool that it belongs to. -/
structure pool_buffer_t where
  pool : side
  buffer : Nat
  deriving DecidableEq, Repr

/-- The function that releases the data of a message. -/
inductive worker_free_t where
  | pool_free
  deriving DecidableEq, Repr

/-- What the handler does next with its buffer; `w` is the worker that it sends to. -/
inductive handler_t where
  | outside
  | receiving (buffer : Nat)
  | sending (buffer w : Nat)
  | freeing (buffer : Nat)

/-- A listener with its context. The workers are the encoders of the processors on the API side
and their decoders on the side of the tunnel; there are none when `processors` is NULL. Without a
capacity the pool is never initialised. -/
structure nt_listener_t where
  pool : Option pool_t
  max_buffer_size : Nat
  workers : List (worker_t pool_buffer_t worker_free_t)
  last_processor : Nat
  handler : handler_t

def nt_listener_init (pool_capacity max_buffer_size processor_num mq_capacity : Nat) :
    nt_listener_t where
  pool := if pool_capacity > 0 then some (pool_init pool_capacity) else none
  max_buffer_size
  workers := List.replicate processor_num (worker_init mq_capacity 1)
  last_processor := 0
  handler := .outside

/-- The listeners, what is in their buffers, and the counters. The last fields are no data of the
program: they note the buffers in the order they were taken out of their pools and put back. -/
structure tunnel_t where
  listeners : side → nt_listener_t
  memory : pool_buffer_t → List UInt8
  perf : perf_t
  taken : List pool_buffer_t
  freed : List pool_buffer_t

/-- The buffers hold whatever was in the memory before. -/
def tunnel_init (pool_capacity max_buffer_size : side → Nat) (processor_num mq_capacity : Nat)
    (memory : pool_buffer_t → List UInt8) : tunnel_t where
  listeners s := nt_listener_init (pool_capacity s) (max_buffer_size s) processor_num mq_capacity
  memory
  perf _ := 0
  taken := []
  freed := []

/-! ## The handlers -/

/-- What `nt_api_handle_read` does from `udp_recvfrom` up to `worker_send`: it gives what is in the
buffer then, the counters, and the listener with the next step of the handler. -/
def api_handle_read (listener : nt_listener_t) (perf : perf_t) (b : Nat) (buffer : List UInt8)
    (incoming : Except error_t (address_t × List UInt8)) : List UInt8 × perf_t × nt_listener_t :=
  let recv_failure (buffer : List UInt8) :=
    (buffer, perf_inc perf .COUNTER_API_RECEIVE_ERROR 1, { listener with handler := .freeing b })
  match incoming with
  | .error _ => recv_failure buffer
  | .ok (src, datagram) =>
    let (buffer, received) := udp_recvfrom buffer listener.max_buffer_size datagram
    match api_accept buffer src received with
    | none => recv_failure buffer
    | some (v1, buffer) =>
      let perf := if v1 then perf_inc perf .COUNTER_API_RECEIVED_V1 1 else perf
      let perf := perf_inc (perf_inc perf .COUNTER_API_RECEIVED 1) .COUNTER_API_RECEIVED_BYTES received
      if listener.workers = [] then (buffer, perf, { listener with handler := .freeing b })
      else
        -- Messages are dispatched to the last encoder when it is idle, else to the next one.
        let message_count := (listener.workers.map worker_message_count).getD listener.last_processor 0
        let last_processor := if message_count ≠ 0 then
          (listener.last_processor + 1) % listener.workers.length else listener.last_processor
        (buffer, perf, { listener with last_processor, handler := .sending b last_processor })

/-- The same for `nt_tun_handle_read`, which dispatches packets by their block. -/
def tun_handle_read (listener : nt_listener_t) (perf : perf_t) (b : Nat) (buffer : List UInt8)
    (incoming : Except error_t (address_t × List UInt8)) : List UInt8 × perf_t × nt_listener_t :=
  let recv_failure (perf : perf_t) (buffer : List UInt8) :=
    (buffer, perf_inc perf .COUNTER_TUN_RECEIVE_ERROR 1, { listener with handler := .freeing b })
  match incoming with
  | .error _ => recv_failure perf buffer
  | .ok (_, datagram) =>
    let (buffer, received) := udp_recvfrom buffer listener.max_buffer_size datagram
    let header := nt_fec_header_at buffer
    if nt_fec_message_size header ≠ received then recv_failure perf buffer
    else
      let perf := perf_inc (perf_inc perf .COUNTER_TUN_RECEIVED 1) .COUNTER_TUN_RECEIVED_BYTES received
      let block_id := (nt_fec_header_block_id header).toNat
      if listener.workers = [] then recv_failure perf buffer
      else
        let processor_num := listener.workers.length
        let header := nt_fec_header_set_block_id header (UInt32.ofNat (block_id / processor_num))
        (nt_fec_header_bytes header ++ buffer.drop 10, perf,
          { listener with handler := .sending b (block_id % processor_num) })

def set_listener (t : tunnel_t) (s : side) (listener : nt_listener_t) : tunnel_t :=
  { t with listeners := Function.update t.listeners s listener }

/-- The call `pool_free(buffer)`, which finds the pool through the buffer. -/
def buffer_free (t : tunnel_t) (buffer : pool_buffer_t) : Option tunnel_t := do
  let listener := t.listeners buffer.pool
  let pool ← listener.pool
  let pool ← pool_free pool buffer.buffer
  return set_listener { t with freed := t.freed ++ [buffer] } buffer.pool
    { listener with pool := some pool }

/-- The counter of the messages that no worker takes. -/
def busy : side → counter
  | .api => .COUNTER_ENCODER_BUSY
  | .tun => .COUNTER_DECODER_BUSY

/-- The next step of the handler on a side, `nt_api_handle_read` or `nt_tun_handle_read`; if it
reads a datagram there, `udp_recvfrom` comes back with `incoming`. -/
def handle_read (t : tunnel_t) (s : side) (incoming : Except error_t (address_t × List UInt8)) :
    Option tunnel_t :=
  let listener := t.listeners s
  match listener.handler with
  | .outside => do
    let pool ← listener.pool
    match pool_new pool with
    | none => return t
    | some (b, pool) =>
      let b ← b
      return set_listener { t with taken := t.taken ++ [⟨s, b⟩] } s
        { listener with pool := some pool, handler := .receiving b }
  | .receiving b =>
    let read := match s with
      | .api => api_handle_read
      | .tun => tun_handle_read
    let (buffer, perf, listener) := read listener t.perf b (t.memory ⟨s, b⟩) incoming
    some (set_listener { t with memory := Function.update t.memory ⟨s, b⟩ buffer, perf } s listener)
  | .sending b w => do
    let worker ← listener.workers[w]?
    let (result, worker) ← worker_send worker 0 ⟨⟨s, b⟩, .pool_free⟩
    let listener := { listener with workers := listener.workers.set w worker }
    match result with
    | none => return set_listener t s listener
    | some true => return set_listener t s { listener with handler := .outside }
    | some false =>
      return set_listener { t with perf := perf_inc t.perf (busy s) 1 } s
        { listener with handler := .freeing b }
  | .freeing b => buffer_free (set_listener t s { listener with handler := .outside }) ⟨s, b⟩

/-! ## The workers -/

/-- The next step of `callback` in worker `w` of a side. If it calls `on_message`, that leaves `left`
in the buffer. -/
def process (t : tunnel_t) (s : side) (w : Nat) (left : List UInt8) : Option tunnel_t :=
  let listener := t.listeners s
  match listener.workers[w]? with
  | none => some t
  | some worker => do
    let (called, worker) ← callback worker
    let t := set_listener t s { listener with workers := listener.workers.set w worker }
    match called with
    | none => return t
    | some (.on_message data) => return { t with memory := Function.update t.memory data left }
    | some (.free ⟨data, .pool_free⟩) => buffer_free t data

/-! ## Any interleaving -/

/-- The thread that takes its next step, and what it meets there. -/
inductive thread where
  | listener (s : side) (incoming : Except error_t (address_t × List UInt8))
  | worker (s : side) (w : Nat) (left : List UInt8)

def tunnel_turn (t : tunnel_t) : thread → Option tunnel_t
  | .listener s incoming => handle_read t s incoming
  | .worker s w left => process t s w left

def tunnel_run (threads : List thread) (t : tunnel_t) : Option tunnel_t :=
  threads.foldlM tunnel_turn t

end nettle.nt_listener
