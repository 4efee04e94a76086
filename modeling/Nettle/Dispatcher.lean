-- The event loop and its timers (dispatcher.c). The loop is taken apart where code
-- of its user runs: before the loop, in `pre_loop`, in the callbacks of timers and of
-- file descriptors. What that code does, what the clock reads and what `epoll_wait`
-- returns come as events; `none` is a failed `ensure`.
import Nettle.Heap

open nettle.heap

set_option linter.dupNamespace false

namespace nettle.dispatcher

/-- A timer. Its address stands for the callback and the data, which the loop only passes on. -/
structure timer_entry_t where
  address : Nat
  delay : Int
  is_permanent : Bool
  deriving DecidableEq, Repr

structure dispatcher_t where
  default_wait_timeout : Int
  timer_queue : heap_t timer_entry_t
  to_stop : Bool
  error : Int
  deriving DecidableEq, Repr

def ENOMEM : Int := 12

def EINTR : Int := 4

def dispatcher_init (default_wait_timeout : Int) (timer_queue_capacity : Nat) : dispatcher_t where
  default_wait_timeout
  timer_queue := make_heap timer_queue_capacity
  to_stop := false
  error := 0

def dispatcher_add_timer0 (dispatcher : dispatcher_t) (timer : timer_entry_t)
    (current_millis : Int) : Option (dispatcher_t × Bool) := do
  let deadline := current_millis + timer.delay
  let (timer_queue, pushed) ← heap_push dispatcher.timer_queue deadline timer
  return ({ dispatcher with timer_queue }, pushed)

def dispatcher_add_timer (dispatcher : dispatcher_t) (timer : timer_entry_t)
    (current_millis : Int) : Option (dispatcher_t × Int) := do
  let (dispatcher, pushed) ← dispatcher_add_timer0 dispatcher timer current_millis
  return (dispatcher, if pushed then 0 else ENOMEM)

def dispatcher_stop (dispatcher : dispatcher_t) (error : Int) : dispatcher_t :=
  { dispatcher with to_stop := true, error }

/-! ## The loop -/

/-- Where `dispatcher_run` is. In the callback of a timer, `size` is the size of the queue when
the timer came up and `calls` counts the timers the callback has asked for. -/
inductive phase_t where
  | outside
  | pre_loop
  | timers
  | in_timer (timer : timer_entry_t) (size calls : Nat)
  | waiting (wait_timeout : Int)
  | handlers (rest : Nat)
  deriving DecidableEq, Repr

/-- The user's code adds a timer or stops the loop, or the code that runs goes on to the next
phase. The readings of the clock and the result of `epoll_wait`, an error or the number of
ready descriptors, are used where the code asks for them. -/
inductive event_t where
  | add_timer (delay : Int) (is_permanent : Bool) (current_millis : Int)
  | stop (error : Int)
  | proceed (current_millis : Int) (epoll_wait : Except Int Nat)

def event_t.clock : event_t → Option Int
  | .add_timer _ _ current_millis => some current_millis
  | .stop _ => none
  | .proceed current_millis _ => some current_millis

/-- A timer that came up: its deadline, and the reading of the clock. -/
structure firing_t where
  timer : timer_entry_t
  deadline : Int
  clock : Int
  deriving DecidableEq, Repr

/-- The loop, the next address of a timer, and what `dispatcher_run` returned last. The last
fields are no data of the program: they note the timers added and the timers that came up. -/
structure loop_t where
  dispatcher : dispatcher_t
  phase : phase_t
  next : Nat
  returned : Option Int
  accepted : List timer_entry_t
  fired : List firing_t
  deriving DecidableEq, Repr

def loop_init (default_wait_timeout : Int) (timer_queue_capacity : Nat) : loop_t where
  dispatcher := dispatcher_init default_wait_timeout timer_queue_capacity
  phase := .outside
  next := 0
  returned := none
  accepted := []
  fired := []

/-- The user's code runs in this phase. -/
def phase_t.in_user_code : phase_t → Bool
  | .outside | .pre_loop | .in_timer _ _ _ | .handlers (_ + 1) => true
  | .timers | .waiting _ | .handlers 0 => false

def phase_t.called : phase_t → phase_t
  | .in_timer timer size calls => .in_timer timer size (calls + 1)
  | phase => phase

/-- `(int)interval` -/
def to_int (interval : Int) : Int := interval.bmod (2 ^ 32)

def dispatcher_run (loop : loop_t) (current_millis : Int) (epoll_wait : Except Int Nat) :
    Option loop_t :=
  let dispatcher := loop.dispatcher
  match loop.phase with
  | .outside =>
    some { loop with
      dispatcher := { dispatcher with to_stop := false, error := 0 }, phase := .pre_loop }
  | .pre_loop =>
    if dispatcher.to_stop then
      some { loop with
        dispatcher := { dispatcher with to_stop := false, error := 0 }
        phase := .outside, returned := some dispatcher.error }
    else some { loop with phase := .timers }
  | .timers =>
    match heap_head dispatcher.timer_queue with
    | none => some { loop with phase := .waiting dispatcher.default_wait_timeout }
    | some (deadline, timer) =>
      let interval := deadline - current_millis
      if interval > 0 then some { loop with phase := .waiting (to_int interval) }
      else do
        let (timer_queue, _) ← heap_pop dispatcher.timer_queue
        return { loop with
          dispatcher := { dispatcher with timer_queue }
          phase := .in_timer timer (heap_size dispatcher.timer_queue) 0
          fired := loop.fired ++ [⟨timer, deadline, current_millis⟩] }
  | .in_timer timer _ _ =>
    if timer.is_permanent then do
      let (dispatcher, pushed) ← dispatcher_add_timer0 dispatcher timer current_millis
      if pushed then return { loop with dispatcher, phase := .timers }
      else none -- Must succeed!
    else some { loop with phase := .timers }
  | .waiting _ =>
    match epoll_wait with
    | .error errno =>
      if errno = EINTR then some { loop with phase := .pre_loop }
      else some { loop with phase := .outside, returned := some errno }
    | .ok nfds => some { loop with phase := .handlers nfds }
  | .handlers 0 => some { loop with phase := .pre_loop }
  | .handlers (rest + 1) => some { loop with phase := .handlers rest }

def loop_step (loop : loop_t) : event_t → Option loop_t
  | .add_timer delay is_permanent current_millis =>
    if loop.phase.in_user_code then do
      let timer : timer_entry_t := { address := loop.next, delay, is_permanent }
      let (dispatcher, error) ← dispatcher_add_timer loop.dispatcher timer current_millis
      return { loop with
        dispatcher, phase := loop.phase.called, next := loop.next + 1
        accepted := if error = 0 then loop.accepted ++ [timer] else loop.accepted }
    else some loop
  | .stop error =>
    if loop.phase.in_user_code then
      some { loop with dispatcher := dispatcher_stop loop.dispatcher error }
    else some loop
  | .proceed current_millis epoll_wait => dispatcher_run loop current_millis epoll_wait

def loop_run (loop : loop_t) : List event_t → Option loop_t
  | [] => some loop
  | event :: events => do
    let loop ← loop_step loop event
    loop_run loop events

end nettle.dispatcher
