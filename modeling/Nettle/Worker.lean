-- The worker of worker.c: any threads send it messages through a locked queue,
-- and an eventfd tells its dispatcher how many wait there. Each function is
-- taken apart into the steps that other threads can see; `none` is a failed
-- `ensure`.
import Nettle.Queue

open nettle.queue

namespace nettle.worker

structure message_t (δ φ : Type) where
  data : δ
  free : φ
  deriving DecidableEq

/-- What a thread does next in `worker_send`, which it calls with this message; `m` points into
the pool of messages. -/
inductive sender_t (δ φ : Type) where
  | outside
  | filling (message : message_t δ φ) (m : Nat)
  | pushing (message : message_t δ φ) (m : Nat)
  | writing (message : message_t δ φ)

/-- What the dispatcher does next in `callback`; the loop has `rest` turns to go. -/
inductive callback_t where
  | waiting
  | popping (rest : Nat)
  | handling (msg rest : Nat)
  | releasing (msg rest : Nat)
  | freeing (msg rest : Nat)
  deriving DecidableEq

/-- What `callback` calls in a step. -/
inductive call_t (δ φ : Type) where
  | on_message (data : δ)
  | free (message : message_t δ φ)

/-- A worker with the threads that use it. The last fields are no data of the program: they note
the messages in the order they were pushed, passed to `on_message` and released. -/
structure worker_t (δ φ : Type) where
  mq : queue_t Nat
  pool : pool_t
  messages : List (Option (message_t δ φ))
  eventfd : Nat
  senders : List (sender_t δ φ)
  dispatcher : callback_t
  pushed : List (message_t δ φ)
  handled : List (message_t δ φ)
  released : List (message_t δ φ)

variable {δ φ : Type}

def worker_init (mq_capacity senders : Nat) : worker_t δ φ where
  mq := queue_init mq_capacity
  pool := pool_init mq_capacity
  messages := List.replicate mq_capacity none
  eventfd := 0
  senders := List.replicate senders .outside
  dispatcher := .waiting
  pushed := []
  handled := []
  released := []

def worker_message_count (worker : worker_t δ φ) : Nat := queue_size worker.mq

/-- The largest count that an eventfd holds; a write beyond it fails. -/
def EVENTFD_MAX : Nat := 2 ^ 64 - 2

/-- The next step of thread `i` in `worker_send`, and the value if it returns. -/
def worker_send (worker : worker_t δ φ) (i : Nat) (message : message_t δ φ) :
    Option (Option Bool × worker_t δ φ) :=
  let goto (worker : worker_t δ φ) (sender : sender_t δ φ) : worker_t δ φ :=
    { worker with senders := worker.senders.set i sender }
  match worker.senders[i]? with
  | none => some (none, worker)
  | some .outside =>
    match pool_new worker.pool with
    | none => some (some false, worker)
    | some (m, pool) => do
      let m ← m
      return (none, goto { worker with pool } (.filling message m))
  | some (.filling message m) =>
    some (none, goto { worker with messages := worker.messages.set m (some message) }
      (.pushing message m))
  | some (.pushing message m) =>
    match queue_push worker.mq m with
    | (true, mq) =>
      some (none, goto { worker with mq, pushed := worker.pushed ++ [message] } (.writing message))
    | (false, _) => none -- Should not fail.
  | some (.writing _) =>
    if worker.eventfd + 1 ≤ EVENTFD_MAX then
      some (some true, goto { worker with eventfd := worker.eventfd + 1 } .outside)
    else none -- Should not fail.

/-- The next step of the dispatcher in `callback`, and what it calls in it. -/
def callback (worker : worker_t δ φ) : Option (Option (call_t δ φ) × worker_t δ φ) :=
  match worker.dispatcher with
  | .waiting =>
    if worker.eventfd = 0 then some (none, worker)
    else some (none, { worker with eventfd := 0, dispatcher := .popping worker.eventfd })
  | .popping 0 => some (none, { worker with dispatcher := .waiting })
  | .popping (rest + 1) =>
    match queue_pop worker.mq with
    | none => none -- Should not fail.
    | some (msg, mq) => do
      let msg ← msg
      return (none, { worker with mq, dispatcher := .handling msg rest })
  | .handling msg rest => do
    let message ← worker.messages.getD msg none
    return (some (.on_message message.data), { worker with
      handled := worker.handled ++ [message]
      dispatcher := .releasing msg rest })
  | .releasing msg rest => do
    let message ← worker.messages.getD msg none
    return (some (.free message), { worker with
      released := worker.released ++ [message]
      dispatcher := .freeing msg rest })
  | .freeing msg rest => do
    let pool ← pool_free worker.pool msg
    return (none, { worker with pool, dispatcher := .popping rest })

/-! ## Any interleaving -/

/-- Whose turn it is: a thread that sends, with the message for its next call, or the
dispatcher. -/
inductive turn (δ φ : Type) where
  | sender (i : Nat) (message : message_t δ φ)
  | dispatcher

/-- A worker and what is seen of it from outside: the message of the call of `worker_send` that each
thread is in, the calls that came back with their values, the messages that came into the queue, and
what `on_message` and the functions that release were called with. -/
structure history_t (δ φ : Type) where
  state : worker_t δ φ
  calls : List (Option (message_t δ φ))
  returned : List (message_t δ φ × Bool)
  queued : List (message_t δ φ)
  passed : List δ
  released : List (message_t δ φ)

def history_init (mq_capacity senders : Nat) : history_t δ φ where
  state := worker_init mq_capacity senders
  calls := List.replicate senders none
  returned := []
  queued := []
  passed := []
  released := []

/-- What a step has put behind the other messages in the queue. -/
def came_in (worker worker' : worker_t δ φ) : List (message_t δ φ) :=
  ((queue_values worker'.mq).drop (queue_size worker.mq)).filterMap (worker'.messages.getD · none)

def worker_turn (history : history_t δ φ) : turn δ φ → Option (history_t δ φ)
  | .sender i message => do
    let call := (history.calls.getD i none).getD message
    let (value, state) ← worker_send history.state i call
    let queued := history.queued ++ came_in history.state state
    match value with
    | none => return { history with state, queued, calls := history.calls.set i (some call) }
    | some value => return { history with
        state, queued
        calls := history.calls.set i none
        returned := history.returned ++ [(call, value)] }
  | .dispatcher => do
    let (called, state) ← callback history.state
    match called with
    | none => return { history with state }
    | some (.on_message data) => return { history with state, passed := history.passed ++ [data] }
    | some (.free message) => return { history with
        state, released := history.released ++ [message] }

/-- Turn after turn. -/
def worker_run (turns : List (turn δ φ)) (history : history_t δ φ) : Option (history_t δ φ) :=
  turns.foldlM worker_turn history

end nettle.worker
