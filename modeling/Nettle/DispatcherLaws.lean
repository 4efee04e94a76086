-- The laws of the timers (dispatcher.c). Timers come up in the order of their
-- deadlines, not before them, and none is lost. A permanent timer comes back into the
-- queue exactly if its own callback did not ask for too many new ones.
import Nettle.Dispatcher
import Nettle.HeapLaws

open nettle.heap

namespace nettle.dispatcher

/-! ## What a step can do -/

def loop_t.queue (loop : loop_t) : List (entry_t timer_entry_t) :=
  loop.dispatcher.timer_queue.buffer

def loop_t.capacity (loop : loop_t) : Nat := loop.dispatcher.timer_queue.capacity

/-- The timer whose callback runs. -/
def phase_t.running : phase_t → Option timer_entry_t
  | .in_timer timer _ _ => some timer
  | _ => none

@[simp] theorem called_running (phase : phase_t) : phase.called.running = phase.running := by
  cases phase <;> rfl

def event_t.proceeds : event_t → Bool
  | .proceed _ _ => true
  | _ => false

/-- The five things a step can do to the timers. -/
inductive Moved (loop : loop_t) (event : event_t) (loop' : loop_t) : Prop where
  /-- Nothing: the phase stays, or the callback of a one-shot timer may have ended. -/
  | quiet (queue : loop'.queue = loop.queue) (next : loop'.next = loop.next)
      (accepted : loop'.accepted = loop.accepted) (fired : loop'.fired = loop.fired)
      (phase : (loop'.phase = loop.phase ∧ event.proceeds = false) ∨
        loop'.phase.running = none ∧ ∀ timer ∈ loop.phase.running, timer.is_permanent = false)
  | added (delay : Int) (is_permanent : Bool) (now : Int)
      (asked : event = .add_timer delay is_permanent now)
      (room : loop.queue.length < loop.capacity)
      (queue : loop'.queue.Perm (⟨now + delay, ⟨loop.next, delay, is_permanent⟩⟩ :: loop.queue))
      (next : loop'.next = loop.next + 1)
      (accepted : loop'.accepted = loop.accepted ++ [⟨loop.next, delay, is_permanent⟩])
      (fired : loop'.fired = loop.fired) (phase : loop'.phase = loop.phase.called)
  | refused (asked : event.proceeds = false) (full : loop.queue.length = loop.capacity)
      (queue : loop'.queue = loop.queue) (next : loop'.next = loop.next + 1)
      (accepted : loop'.accepted = loop.accepted) (fired : loop'.fired = loop.fired)
      (phase : loop'.phase = loop.phase.called)
  | came_up (now : Int) (head : entry_t timer_entry_t) (clock : event.clock = some now)
      (due : head.key ≤ now) (least : ∀ entry ∈ loop.queue, head.key ≤ entry.key)
      (queue : (head :: loop'.queue).Perm loop.queue) (next : loop'.next = loop.next)
      (accepted : loop'.accepted = loop.accepted)
      (fired : loop'.fired = loop.fired ++ [⟨head.value, head.key, now⟩])
      (before : loop.phase.running = none)
      (phase : loop'.phase = .in_timer head.value loop.queue.length 0)
  | came_back (now : Int) (timer : timer_entry_t) (clock : event.clock = some now)
      (permanent : timer.is_permanent = true) (before : loop.phase.running = some timer)
      (room : loop.queue.length < loop.capacity)
      (queue : loop'.queue.Perm (⟨now + timer.delay, timer⟩ :: loop.queue))
      (next : loop'.next = loop.next) (accepted : loop'.accepted = loop.accepted)
      (fired : loop'.fired = loop.fired) (phase : loop'.phase.running = none)

/-- The step that fails: a permanent timer finds no room in the queue. -/
def Stuck (loop : loop_t) (event : event_t) : Prop :=
  ∃ now epoll_wait timer, event = .proceed now epoll_wait ∧ loop.phase.running = some timer ∧
    timer.is_permanent = true ∧ loop.queue.length = loop.capacity

def loop_t.Sound (loop : loop_t) : Prop := heap.Sound loop.dispatcher.timer_queue

/-- What a step leaves behind. -/
structure Stepped (loop : loop_t) (event : event_t) (loop' : loop_t) : Prop where
  sound : loop'.Sound
  capacity : loop'.capacity = loop.capacity
  moved : Moved loop event loop'

theorem Stepped.of_quiet {loop loop' : loop_t} {event : event_t} (h : loop.Sound)
    (queue : loop'.dispatcher.timer_queue = loop.dispatcher.timer_queue)
    (next : loop'.next = loop.next) (accepted : loop'.accepted = loop.accepted)
    (fired : loop'.fired = loop.fired)
    (phase : (loop'.phase = loop.phase ∧ event.proceeds = false) ∨
      loop'.phase.running = none ∧ ∀ timer ∈ loop.phase.running, timer.is_permanent = false) :
    Stepped loop event loop' where
  sound := by
    unfold loop_t.Sound
    rwa [queue]
  capacity := by
    unfold loop_t.capacity
    rw [queue]
  moved := .quiet (congrArg heap_t.buffer queue) next accepted fired phase

theorem dispatcher_run_cases {loop : loop_t} (h : loop.Sound) (now : Int)
    (epoll_wait : Except Int Nat) :
    (∃ loop', dispatcher_run loop now epoll_wait = some loop' ∧
      Stepped loop (.proceed now epoll_wait) loop') ∨
    dispatcher_run loop now epoll_wait = none ∧ Stuck loop (.proceed now epoll_wait) := by
  unfold dispatcher_run
  cases hphase : loop.phase with
  | outside =>
    left
    exact ⟨_, rfl, .of_quiet h rfl rfl rfl rfl (Or.inr ⟨rfl, by simp [hphase, phase_t.running]⟩)⟩
  | pre_loop =>
    left
    by_cases hstop : loop.dispatcher.to_stop = true
    · simp only [hstop, if_true]
      exact ⟨_, rfl, .of_quiet h rfl rfl rfl rfl (Or.inr ⟨rfl, by simp [hphase, phase_t.running]⟩)⟩
    · simp only [hstop]
      exact ⟨_, rfl, .of_quiet h rfl rfl rfl rfl (Or.inr ⟨rfl, by simp [hphase, phase_t.running]⟩)⟩
  | timers =>
    left
    have hbefore : loop.phase.running = none := by simp [hphase, phase_t.running]
    cases hqueue : loop.dispatcher.timer_queue.buffer with
    | nil =>
      have hhead : heap_head loop.dispatcher.timer_queue = none := by simp [heap_head, hqueue]
      simp only [hhead]
      exact ⟨_, rfl, .of_quiet h rfl rfl rfl rfl (Or.inr ⟨rfl, by simp [hbefore]⟩)⟩
    | cons head rest =>
      have hhead : heap_head loop.dispatcher.timer_queue = some (head.key, head.value) := by
        simp [heap_head, hqueue]
      simp only [hhead]
      by_cases hlate : head.key - now > 0
      · rw [if_pos hlate]
        exact ⟨_, rfl, .of_quiet h rfl rfl rfl rfl (Or.inr ⟨rfl, by simp [hbefore]⟩)⟩
      · rw [if_neg hlate]
        obtain ⟨timer_queue, hpop, hsound, hcapacity, hperm⟩ := heap_pop_spec h hqueue
        simp only [hpop, Option.bind_eq_bind, Option.bind_some]
        refine ⟨_, rfl, hsound, hcapacity, ?_⟩
        exact .came_up now head rfl (by omega) (head_least h hqueue) hperm rfl rfl rfl hbefore rfl
  | in_timer timer size calls =>
    have hbefore : loop.phase.running = some timer := by simp [hphase, phase_t.running]
    by_cases hpermanent : timer.is_permanent = true
    · simp only [hpermanent, if_true, dispatcher_add_timer0]
      rcases h.fits.lt_or_eq with hroom | hfull
      · left
        obtain ⟨timer_queue, hpush, hsound, hcapacity, hperm⟩ :=
          heap_push_spec h hroom (now + timer.delay) timer
        simp only [hpush, Option.bind_eq_bind, Option.bind_some]
        refine ⟨_, rfl, hsound, hcapacity, ?_⟩
        exact .came_back now timer rfl hpermanent hbefore hroom hperm rfl rfl rfl rfl
      · right
        simp only [heap_push_full hfull, Option.bind_eq_bind, Option.bind_some]
        exact ⟨rfl, now, epoll_wait, timer, rfl, hbefore, hpermanent, hfull⟩
    · left
      simp only [hpermanent]
      refine ⟨_, rfl, .of_quiet h rfl rfl rfl rfl (Or.inr ⟨rfl, ?_⟩)⟩
      intro other hother
      rw [hbefore, Option.mem_some_iff] at hother
      rw [← hother]
      simpa using hpermanent
  | waiting wait_timeout =>
    left
    have hbefore : loop.phase.running = none := by simp [hphase, phase_t.running]
    cases epoll_wait with
    | error errno =>
      by_cases hintr : errno = EINTR
      · simp only [hintr, if_true]
        exact ⟨_, rfl, .of_quiet h rfl rfl rfl rfl (Or.inr ⟨rfl, by simp [hbefore]⟩)⟩
      · simp only [hintr, if_false]
        exact ⟨_, rfl, .of_quiet h rfl rfl rfl rfl (Or.inr ⟨rfl, by simp [hbefore]⟩)⟩
    | ok nfds => exact ⟨_, rfl, .of_quiet h rfl rfl rfl rfl (Or.inr ⟨rfl, by simp [hbefore]⟩)⟩
  | handlers rest =>
    left
    have hbefore : loop.phase.running = none := by simp [hphase, phase_t.running]
    cases rest with
    | zero => exact ⟨_, rfl, .of_quiet h rfl rfl rfl rfl (Or.inr ⟨rfl, by simp [hbefore]⟩)⟩
    | succ rest => exact ⟨_, rfl, .of_quiet h rfl rfl rfl rfl (Or.inr ⟨rfl, by simp [hbefore]⟩)⟩

theorem loop_step_cases {loop : loop_t} (h : loop.Sound) (event : event_t) :
    (∃ loop', loop_step loop event = some loop' ∧ Stepped loop event loop') ∨
    loop_step loop event = none ∧ Stuck loop event := by
  cases event with
  | add_timer delay is_permanent now =>
    left
    unfold loop_step
    by_cases huser : loop.phase.in_user_code = true
    · simp only [huser, if_true, dispatcher_add_timer, dispatcher_add_timer0]
      rcases h.fits.lt_or_eq with hroom | hfull
      · obtain ⟨timer_queue, hpush, hsound, hcapacity, hperm⟩ :=
          heap_push_spec h hroom (now + delay) (⟨loop.next, delay, is_permanent⟩ : timer_entry_t)
        simp only [hpush, Option.bind_eq_bind, Option.bind_some]
        refine ⟨_, rfl, hsound, hcapacity, ?_⟩
        exact .added delay is_permanent now rfl hroom hperm rfl rfl rfl rfl
      · simp only [heap_push_full hfull, Option.bind_eq_bind, Option.bind_some]
        exact ⟨_, rfl, h, rfl, .refused rfl hfull rfl rfl rfl rfl rfl⟩
    · simp only [huser]
      exact ⟨_, rfl, .of_quiet h rfl rfl rfl rfl (Or.inl ⟨rfl, rfl⟩)⟩
  | stop error =>
    left
    unfold loop_step
    by_cases huser : loop.phase.in_user_code = true
    · simp only [huser, if_true]
      exact ⟨_, rfl, .of_quiet h rfl rfl rfl rfl (Or.inl ⟨rfl, rfl⟩)⟩
    · simp only [huser]
      exact ⟨_, rfl, .of_quiet h rfl rfl rfl rfl (Or.inl ⟨rfl, rfl⟩)⟩
  | proceed now epoll_wait => exact dispatcher_run_cases h now epoll_wait

theorem loop_init_sound (default_wait_timeout : Int) (timer_queue_capacity : Nat) :
    (loop_init default_wait_timeout timer_queue_capacity).Sound :=
  make_heap_sound timer_queue_capacity

theorem loop_run_append (loop : loop_t) (events more : List event_t) :
    loop_run loop (events ++ more) = (loop_run loop events).bind fun loop => loop_run loop more := by
  induction events generalizing loop with
  | nil => rfl
  | cons event events ih =>
    rw [List.cons_append, loop_run, loop_run]
    cases loop_step loop event with
    | none => rfl
    | some loop' => exact ih loop'

/-! ## The place of a permanent timer -/

/-- In the callback of a timer the queue holds what it held before, less the timer, and the timers
that the callback asked for, as far as there is room. -/
structure Counted (capacity : Nat) (loop : loop_t) : Prop where
  sound : loop.Sound
  capacity_eq : loop.capacity = capacity
  callback : ∀ timer size calls, loop.phase = .in_timer timer size calls →
    1 ≤ size ∧ loop.queue.length = min capacity (size - 1 + calls)

theorem Counted.called {capacity : Nat} {loop loop' : loop_t} (h : Counted capacity loop)
    (more : Nat) (hmore : loop'.queue.length = loop.queue.length + more)
    (hroom : more = 1 ∧ loop.queue.length < capacity ∨ more = 0 ∧ loop.queue.length = capacity)
    (hphase : loop'.phase = loop.phase.called) :
    ∀ timer size calls, loop'.phase = .in_timer timer size calls →
      1 ≤ size ∧ loop'.queue.length = min capacity (size - 1 + calls) := by
  intro timer size calls hin
  cases hp : loop.phase with
  | in_timer timer₀ size₀ calls₀ =>
    rw [hphase, hp] at hin
    simp only [phase_t.called, phase_t.in_timer.injEq] at hin
    obtain ⟨rfl, rfl, rfl⟩ := hin
    obtain ⟨hsize, hlength⟩ := h.callback _ _ _ hp
    exact ⟨hsize, by omega⟩
  | _ => simp [hphase, hp, phase_t.called] at hin

theorem Counted.step {capacity : Nat} {loop loop' : loop_t} {event : event_t}
    (h : Counted capacity loop) (hstep : Stepped loop event loop') : Counted capacity loop' where
  sound := hstep.sound
  capacity_eq := hstep.capacity.trans h.capacity_eq
  callback := by
    have hcapacity := h.capacity_eq
    have hfits := h.sound.fits
    cases hstep.moved with
    | quiet queue next accepted fired phase =>
      intro timer size calls hin
      rcases phase with ⟨phase, -⟩ | ⟨phase, -⟩
      · rw [queue]
        exact h.callback timer size calls (phase ▸ hin)
      · simp [hin, phase_t.running] at phase
    | added delay is_permanent now asked room queue next accepted fired phase =>
      exact h.called 1 queue.length_eq (Or.inl ⟨rfl, hcapacity ▸ room⟩) phase
    | refused asked full queue next accepted fired phase =>
      exact h.called 0 (by rw [queue]; rfl) (Or.inr ⟨rfl, hcapacity ▸ full⟩) phase
    | came_up now head clock due least queue next accepted fired before phase =>
      intro timer size calls hin
      rw [phase, phase_t.in_timer.injEq] at hin
      obtain ⟨-, rfl, rfl⟩ := hin
      have hlength := queue.length_eq
      rw [List.length_cons] at hlength
      change loop.queue.length ≤ loop.capacity at hfits
      omega
    | came_back now timer clock permanent before room queue next accepted fired phase =>
      intro timer size calls hin
      simp [hin, phase_t.running] at phase

/-- The timer finds a place exactly if its callback asked for no more timers than there were
places before the timer came up. -/
theorem Counted.isSome_iff {capacity : Nat} {loop : loop_t} (h : Counted capacity loop)
    {timer : timer_entry_t} {size calls : Nat} (hphase : loop.phase = .in_timer timer size calls)
    (hpermanent : timer.is_permanent = true) (now : Int) (epoll_wait : Except Int Nat) :
    (loop_step loop (.proceed now epoll_wait)).isSome ↔ size + calls ≤ capacity := by
  have hrunning : loop.phase.running = some timer := by simp [hphase, phase_t.running]
  obtain ⟨hsize, hlength⟩ := h.callback timer size calls hphase
  have hcapacity := h.capacity_eq
  rcases loop_step_cases h.sound (.proceed now epoll_wait) with ⟨loop', hstep, hstepped⟩ | ⟨hstep, hstuck⟩
  · simp only [hstep, Option.isSome_some, true_iff]
    cases hstepped.moved with
    | quiet queue next accepted fired phase =>
      rcases phase with ⟨-, hno⟩ | ⟨-, honce⟩
      · simp [event_t.proceeds] at hno
      · simp [honce timer hrunning] at hpermanent
    | added delay is_permanent now asked => simp at asked
    | refused asked full queue next accepted fired phase =>
      simp [event_t.proceeds] at asked
    | came_up now head clock due least queue next accepted fired before phase =>
      simp [hrunning] at before
    | came_back now timer clock permanent before room queue next accepted fired phase =>
      omega
  · obtain ⟨_, _, _, -, -, -, hfull⟩ := hstuck
    simp only [hstep, Option.isSome_none, Bool.false_eq_true, false_iff]
    omega

theorem Counted.run {capacity : Nat} {loop loop' : loop_t} (h : Counted capacity loop)
    {events : List event_t} (hrun : loop_run loop events = some loop') : Counted capacity loop' := by
  induction events generalizing loop with
  | nil =>
    simp only [loop_run, Option.some.injEq] at hrun
    rwa [← hrun]
  | cons event events ih =>
    rw [loop_run] at hrun
    obtain ⟨loop₁, hstep, hrun⟩ := Option.bind_eq_some_iff.mp hrun
    rcases loop_step_cases h.sound event with ⟨loop₂, hstep', hstepped⟩ | ⟨hstep', -⟩
    · rw [hstep, Option.some.injEq] at hstep'
      exact ih (h.step (hstep' ▸ hstepped)) hrun
    · simp [hstep] at hstep'

/-- In a run that fails a permanent timer found no place. -/
theorem Counted.run_none {capacity : Nat} {loop : loop_t} (h : Counted capacity loop)
    {events : List event_t} (hrun : loop_run loop events = none) :
    ∃ begun now epoll_wait rest loop' timer size calls,
      events = begun ++ .proceed now epoll_wait :: rest ∧ loop_run loop begun = some loop' ∧
        loop'.phase = .in_timer timer size calls ∧ timer.is_permanent = true ∧
        ¬ size + calls ≤ capacity := by
  induction events generalizing loop with
  | nil => simp [loop_run] at hrun
  | cons event events ih =>
    rcases loop_step_cases h.sound event with ⟨loop₁, hstep, hstepped⟩ | ⟨hstep, hstuck⟩
    · rw [loop_run, hstep] at hrun
      obtain ⟨begun, now, epoll_wait, rest, loop', timer, size, calls, rfl, hbegun, hlast⟩ :=
        ih (h.step hstepped) hrun
      exact ⟨event :: begun, now, epoll_wait, rest, loop', timer, size, calls, rfl,
        by rw [loop_run, hstep]; exact hbegun, hlast⟩
    · obtain ⟨now, epoll_wait, timer, rfl, hrunning, hpermanent, -⟩ := hstuck
      cases hphase : loop.phase with
      | in_timer timer' size calls =>
        rw [hphase] at hrunning
        obtain rfl : timer' = timer := by simpa [phase_t.running] using hrunning
        refine ⟨[], now, epoll_wait, events, loop, timer', size, calls, rfl, rfl, hphase,
          hpermanent, ?_⟩
        rw [← h.isSome_iff hphase hpermanent now epoll_wait, hstep]
        simp
      | _ => simp [hphase, phase_t.running] at hrunning

/-- No permanent timer is refused on its way back exactly if each time a permanent timer comes up
its callback asks for no more timers than the queue had places left before. -/
theorem a_permanent_timer_comes_back (default_wait_timeout : Int) (capacity : Nat)
    (events : List event_t) :
    (loop_run (loop_init default_wait_timeout capacity) events).isSome ↔
      ∀ begun now epoll_wait rest loop timer size calls,
        events = begun ++ .proceed now epoll_wait :: rest →
        loop_run (loop_init default_wait_timeout capacity) begun = some loop →
        loop.phase = .in_timer timer size calls → timer.is_permanent = true →
        size + calls ≤ capacity := by
  have hcounted : Counted capacity (loop_init default_wait_timeout capacity) :=
    ⟨loop_init_sound _ _, rfl, by simp [loop_init]⟩
  constructor
  · rintro hsome begun now epoll_wait rest loop timer size calls rfl hbegun hphase hpermanent
    rw [loop_run_append, hbegun, Option.bind_some, loop_run] at hsome
    rw [← (hcounted.run hbegun).isSome_iff hphase hpermanent now epoll_wait]
    exact Option.isSome_of_isSome_bind hsome
  · intro hfits
    by_contra hnone
    rw [Option.not_isSome_iff_eq_none] at hnone
    obtain ⟨begun, now, epoll_wait, rest, loop, timer, size, calls, hevents, hbegun, hphase,
      hpermanent, hfull⟩ := hcounted.run_none hnone
    exact hfull (hfits begun now epoll_wait rest loop timer size calls hevents hbegun hphase
      hpermanent)

/-- A queue with one place. The callback of its permanent timer asks for one more timer. -/
theorem a_permanent_timer_is_refused :
    loop_run (loop_init 100 1)
      [.add_timer 0 true 0, .proceed 0 (.ok 0), .proceed 0 (.ok 0), .proceed 0 (.ok 0),
        .add_timer 2000 false 0, .proceed 0 (.ok 0)] = none := by
  decide

/-! ## The order of the timers -/

def loop_t.waiting (loop : loop_t) : List timer_entry_t := loop.queue.map (·.value)

def loop_t.came (loop : loop_t) : List timer_entry_t := loop.fired.map (·.timer)

/-- The timers that must be in the queue: those that did not come up yet, and the permanent ones
outside their own callback. -/
def Waits (loop : loop_t) (timer : timer_entry_t) : Prop :=
  timer ∈ loop.accepted ∧ (timer.is_permanent = true ∨ timer ∉ loop.came) ∧
    loop.phase.running ≠ some timer

/-- The timers are in order; the clock has not been read below `low` since the last one came up. -/
structure Timed (low : Int) (loop : loop_t) : Prop where
  addresses : ∀ timer ∈ loop.accepted, timer.address < loop.next
  delays : ∀ timer ∈ loop.accepted, 0 ≤ timer.delay
  came_accepted : ∀ timer ∈ loop.came, timer ∈ loop.accepted
  running_came : ∀ timer ∈ loop.phase.running, timer ∈ loop.came
  due : ∀ firing ∈ loop.fired, firing.deadline ≤ firing.clock
  past : ∀ firing ∈ loop.fired, firing.deadline ≤ low
  sorted : (loop.fired.map (·.deadline)).Pairwise (· ≤ ·)
  ahead : ∀ firing ∈ loop.fired, ∀ entry ∈ loop.queue, firing.deadline ≤ entry.key
  once : (loop.came.filter fun timer => !timer.is_permanent).Nodup
  nodup : loop.waiting.Nodup
  waits : ∀ timer, timer ∈ loop.waiting ↔ Waits loop timer

theorem loop_init_timed (low default_wait_timeout : Int) (timer_queue_capacity : Nat) :
    Timed low (loop_init default_wait_timeout timer_queue_capacity) := by
  constructor <;> simp [loop_init, loop_t.came, loop_t.waiting, loop_t.queue, dispatcher_init,
    make_heap, phase_t.running, Waits]

namespace Timed

variable {low now : Int} {loop loop' : loop_t}

/-- The timers that came up stay in order while no other one comes up. -/
theorem same_fired (h : Timed low loop) (hnow : low ≤ now) (fired : loop'.fired = loop.fired) :
    (∀ firing ∈ loop'.fired, firing.deadline ≤ firing.clock) ∧
      (∀ firing ∈ loop'.fired, firing.deadline ≤ now) ∧
      (loop'.fired.map (·.deadline)).Pairwise (· ≤ ·) ∧
      (loop'.came.filter fun timer => !timer.is_permanent).Nodup := by
  unfold loop_t.came
  rw [fired]
  exact ⟨h.due, fun firing hfiring => (h.past firing hfiring).trans hnow, h.sorted, h.once⟩

/-- Whatever the step did not touch stays in order. -/
theorem kept (h : Timed low loop) (hnow : low ≤ now) (queue : loop'.queue = loop.queue)
    (next : loop.next ≤ loop'.next) (accepted : loop'.accepted = loop.accepted)
    (fired : loop'.fired = loop.fired)
    (running : loop'.phase.running = loop.phase.running ∨ loop'.phase.running = none ∧
      ∀ timer ∈ loop.phase.running, timer.is_permanent = false) : Timed now loop' where
  addresses := by
    rw [accepted]
    intro timer htimer
    exact (h.addresses timer htimer).trans_le next
  delays := accepted ▸ h.delays
  came_accepted := by
    unfold loop_t.came
    rw [accepted, fired]
    exact h.came_accepted
  running_came := by
    intro timer htimer
    unfold loop_t.came
    rw [fired]
    rcases running with running | ⟨running, -⟩
    · exact h.running_came timer (running ▸ htimer)
    · simp [running] at htimer
  due := (h.same_fired hnow fired).1
  past := (h.same_fired hnow fired).2.1
  sorted := (h.same_fired hnow fired).2.2.1
  ahead := by
    rw [fired, queue]
    exact h.ahead
  once := (h.same_fired hnow fired).2.2.2
  nodup := by
    unfold loop_t.waiting
    rw [queue]
    exact h.nodup
  waits := by
    intro timer
    have hwaiting : loop'.waiting = loop.waiting := by simp only [loop_t.waiting, queue]
    have hcame : loop'.came = loop.came := by simp only [loop_t.came, fired]
    rw [hwaiting, h.waits timer]
    unfold Waits
    rw [accepted, hcame]
    rcases running with running | ⟨running, honce⟩
    · rw [running]
    · simp only [running, ne_eq, reduceCtorEq, not_false_eq_true, and_true]
      constructor
      · rintro ⟨hmem, hwaits, -⟩
        exact ⟨hmem, hwaits⟩
      · rintro ⟨hmem, hwaits⟩
        refine ⟨hmem, hwaits, ?_⟩
        intro hrunning
        rcases hwaits with hpermanent | hcame
        · simp [honce timer hrunning] at hpermanent
        · exact hcame (h.running_came timer hrunning)

/-- A timer pushed now is behind all that came up. -/
theorem ahead_push (h : Timed low loop) (hnow : low ≤ now) (timer : timer_entry_t)
    (hdelay : 0 ≤ timer.delay) (queue : loop'.queue.Perm (⟨now + timer.delay, timer⟩ :: loop.queue)) :
    ∀ firing ∈ loop.fired, ∀ entry ∈ loop'.queue, firing.deadline ≤ entry.key := by
  intro firing hfiring entry hentry
  rcases List.mem_cons.mp (queue.mem_iff.mp hentry) with rfl | hentry
  · have hpast := h.past firing hfiring
    simp only
    omega
  · exact h.ahead firing hfiring entry hentry

theorem added (h : Timed low loop) (hnow : low ≤ now) {delay : Int} {is_permanent : Bool}
    (hdelay : 0 ≤ delay)
    (queue : loop'.queue.Perm (⟨now + delay, ⟨loop.next, delay, is_permanent⟩⟩ :: loop.queue))
    (next : loop'.next = loop.next + 1)
    (accepted : loop'.accepted = loop.accepted ++ [⟨loop.next, delay, is_permanent⟩])
    (fired : loop'.fired = loop.fired) (phase : loop'.phase = loop.phase.called) :
    Timed now loop' := by
  obtain ⟨hdue, hpast, hsorted, honce⟩ := h.same_fired hnow fired
  have hcame : loop'.came = loop.came := by simp only [loop_t.came, fired]
  have hwaiting := queue.map (·.value)
  change loop'.waiting.Perm (⟨loop.next, delay, is_permanent⟩ :: loop.waiting) at hwaiting
  have hrunning : loop'.phase.running = loop.phase.running := by rw [phase, called_running]
  have hnew : (⟨loop.next, delay, is_permanent⟩ : timer_entry_t) ∉ loop.accepted := by
    intro hmem
    exact absurd (h.addresses _ hmem) (Nat.lt_irrefl _)
  constructor
  · intro timer htimer
    rw [accepted, List.mem_append, List.mem_singleton] at htimer
    rcases htimer with htimer | rfl
    · have hlt := h.addresses timer htimer
      omega
    · simp only
      omega
  · intro timer htimer
    rw [accepted, List.mem_append, List.mem_singleton] at htimer
    rcases htimer with htimer | rfl
    · exact h.delays timer htimer
    · exact hdelay
  · rw [hcame, accepted]
    intro timer htimer
    exact List.mem_append_left _ (h.came_accepted timer htimer)
  · rw [hrunning, hcame]
    exact h.running_came
  · exact hdue
  · exact hpast
  · exact hsorted
  · rw [fired]
    exact h.ahead_push hnow ⟨loop.next, delay, is_permanent⟩ hdelay queue
  · exact honce
  · rw [hwaiting.nodup_iff, List.nodup_cons]
    refine ⟨?_, h.nodup⟩
    intro hmem
    exact hnew ((h.waits _).mp hmem).1
  · intro timer
    rw [hwaiting.mem_iff, List.mem_cons, h.waits timer]
    unfold Waits
    rw [accepted, hcame, hrunning, List.mem_append, List.mem_singleton]
    constructor
    · rintro (rfl | ⟨hmem, hwaits, hidle⟩)
      · refine ⟨Or.inr rfl, Or.inr ?_, ?_⟩
        · intro hmem
          exact hnew (h.came_accepted _ hmem)
        · intro hmem
          exact hnew (h.came_accepted _ (h.running_came _ hmem))
      · exact ⟨Or.inl hmem, hwaits, hidle⟩
    · rintro ⟨hmem | rfl, hwaits, hidle⟩
      · exact Or.inr ⟨hmem, hwaits, hidle⟩
      · exact Or.inl rfl

theorem came_up (h : Timed low loop) (hnow : low ≤ now) {head : entry_t timer_entry_t}
    (due : head.key ≤ now) (least : ∀ entry ∈ loop.queue, head.key ≤ entry.key)
    (queue : (head :: loop'.queue).Perm loop.queue) (next : loop'.next = loop.next)
    (accepted : loop'.accepted = loop.accepted)
    (fired : loop'.fired = loop.fired ++ [⟨head.value, head.key, now⟩])
    (before : loop.phase.running = none)
    (running : loop'.phase.running = some head.value) : Timed now loop' := by
  have hcame : loop'.came = loop.came ++ [head.value] := by simp [loop_t.came, fired]
  have hwaiting := queue.map (·.value)
  change (head.value :: loop'.waiting).Perm loop.waiting at hwaiting
  have hnodup := hwaiting.nodup_iff.mpr h.nodup
  rw [List.nodup_cons] at hnodup
  have hhead := (h.waits head.value).mp (hwaiting.mem_iff.mp List.mem_cons_self)
  have hmem : head ∈ loop.queue := queue.mem_iff.mp List.mem_cons_self
  constructor
  · rw [accepted, next]
    exact h.addresses
  · exact accepted ▸ h.delays
  · rw [hcame, accepted]
    intro timer htimer
    rcases List.mem_append.mp htimer with htimer | htimer
    · exact h.came_accepted timer htimer
    · rw [List.mem_singleton.mp htimer]
      exact hhead.1
  · rw [running, hcame]
    intro timer htimer
    rw [Option.mem_some_iff] at htimer
    simp [htimer]
  · rw [fired]
    intro firing hfiring
    rcases List.mem_append.mp hfiring with hfiring | hfiring
    · exact h.due firing hfiring
    · rw [List.mem_singleton.mp hfiring]
      exact due
  · rw [fired]
    intro firing hfiring
    rcases List.mem_append.mp hfiring with hfiring | hfiring
    · exact (h.past firing hfiring).trans hnow
    · rw [List.mem_singleton.mp hfiring]
      exact due
  · rw [fired, List.map_append, List.pairwise_append]
    refine ⟨h.sorted, List.pairwise_singleton _ _, ?_⟩
    intro deadline hdeadline last hlast
    obtain ⟨firing, hfiring, rfl⟩ := List.mem_map.mp hdeadline
    rw [List.map_singleton, List.mem_singleton] at hlast
    rw [hlast]
    exact h.ahead firing hfiring head hmem
  · rw [fired]
    intro firing hfiring entry hentry
    have hentry' : entry ∈ loop.queue := queue.mem_iff.mp (List.mem_cons_of_mem _ hentry)
    rcases List.mem_append.mp hfiring with hfiring | hfiring
    · exact h.ahead firing hfiring entry hentry'
    · rw [List.mem_singleton.mp hfiring]
      exact least entry hentry'
  · rw [hcame, List.filter_append, List.nodup_append]
    refine ⟨h.once, (List.nodup_singleton _).filter _, ?_⟩
    rintro timer htimer other hother rfl
    simp only [List.mem_filter, List.mem_singleton, Bool.not_eq_true'] at htimer hother
    rcases hhead.2.1 with hpermanent | hnot
    · rw [← hother.1, hother.2] at hpermanent
      simp at hpermanent
    · exact hnot (hother.1 ▸ htimer.1)
  · exact hnodup.2
  · intro timer
    have hiff : timer ∈ loop'.waiting ↔ timer ∈ loop.waiting ∧ timer ≠ head.value := by
      rw [← hwaiting.mem_iff, List.mem_cons]
      constructor
      · intro hmem
        refine ⟨Or.inr hmem, ?_⟩
        rintro rfl
        exact hnodup.1 hmem
      · rintro ⟨rfl | hmem, hne⟩
        · exact absurd rfl hne
        · exact hmem
    rw [hiff, h.waits timer]
    unfold Waits
    rw [accepted, hcame, before, running, List.mem_append, List.mem_singleton, not_or]
    simp only [ne_eq, Option.some.injEq, reduceCtorEq, not_false_eq_true, and_true]
    constructor
    · rintro ⟨⟨hmem, hwaits⟩, hne⟩
      exact ⟨hmem, hwaits.imp_right fun hnot => ⟨hnot, hne⟩, Ne.symm hne⟩
    · rintro ⟨hmem, hwaits, hne⟩
      exact ⟨⟨hmem, hwaits.imp_right fun hnot => hnot.1⟩, Ne.symm hne⟩

theorem came_back (h : Timed low loop) (hnow : low ≤ now) {timer : timer_entry_t}
    (permanent : timer.is_permanent = true) (before : loop.phase.running = some timer)
    (queue : loop'.queue.Perm (⟨now + timer.delay, timer⟩ :: loop.queue))
    (next : loop'.next = loop.next) (accepted : loop'.accepted = loop.accepted)
    (fired : loop'.fired = loop.fired) (running : loop'.phase.running = none) :
    Timed now loop' := by
  obtain ⟨hdue, hpast, hsorted, honce⟩ := h.same_fired hnow fired
  have hcame : loop'.came = loop.came := by simp only [loop_t.came, fired]
  have hwaiting := queue.map (·.value)
  change loop'.waiting.Perm (timer :: loop.waiting) at hwaiting
  have htimer := h.came_accepted timer (h.running_came timer before)
  constructor
  · rw [accepted, next]
    exact h.addresses
  · exact accepted ▸ h.delays
  · rw [hcame, accepted]
    exact h.came_accepted
  · simp [running]
  · exact hdue
  · exact hpast
  · exact hsorted
  · rw [fired]
    exact h.ahead_push hnow timer (h.delays timer htimer) queue
  · exact honce
  · rw [hwaiting.nodup_iff, List.nodup_cons]
    refine ⟨?_, h.nodup⟩
    intro hmem
    exact ((h.waits timer).mp hmem).2.2 before
  · intro other
    rw [hwaiting.mem_iff, List.mem_cons, h.waits other]
    unfold Waits
    rw [accepted, hcame, before, running]
    simp only [ne_eq, Option.some.injEq, reduceCtorEq, not_false_eq_true, and_true]
    constructor
    · rintro (rfl | ⟨hmem, hwaits, -⟩)
      · exact ⟨htimer, Or.inl permanent⟩
      · exact ⟨hmem, hwaits⟩
    · rintro ⟨hmem, hwaits⟩
      by_cases hother : other = timer
      · exact Or.inl hother
      · exact Or.inr ⟨hmem, hwaits, Ne.symm hother⟩

theorem step (h : Timed low loop) {event : event_t} (hstep : Stepped loop event loop')
    (hclock : ∀ now ∈ event.clock, low ≤ now)
    (hdelay : ∀ delay is_permanent now, event = .add_timer delay is_permanent now → 0 ≤ delay) :
    Timed (event.clock.getD low) loop' := by
  have hnow : low ≤ event.clock.getD low := by
    cases hclock' : event.clock with
    | none => exact le_rfl
    | some now => exact hclock now hclock'
  cases hstep.moved with
  | quiet queue next accepted fired phase =>
    apply h.kept hnow queue next.ge accepted fired
    exact phase.imp_left fun phase => congrArg phase_t.running phase.1
  | added delay is_permanent now asked room queue next accepted fired phase =>
    have hnow' : event.clock = some now := by rw [asked]; rfl
    rw [hnow', Option.getD_some] at hnow ⊢
    exact h.added hnow (hdelay _ _ _ asked) queue next accepted fired phase
  | refused asked full queue next accepted fired phase =>
    apply h.kept hnow queue (by omega) accepted fired
    left
    rw [phase, called_running]
  | came_up now head clock due least queue next accepted fired before phase =>
    rw [clock, Option.getD_some] at hnow ⊢
    exact h.came_up hnow due least queue next accepted fired before (by rw [phase]; rfl)
  | came_back now timer clock permanent before room queue next accepted fired phase =>
    rw [clock, Option.getD_some] at hnow ⊢
    exact h.came_back hnow permanent before queue next accepted fired phase

theorem run (h : Timed low loop) (hsound : loop.Sound) {events : List event_t}
    (hclock : (low :: events.filterMap event_t.clock).Pairwise (· ≤ ·))
    (hdelay : ∀ delay is_permanent now, event_t.add_timer delay is_permanent now ∈ events → 0 ≤ delay)
    (hrun : loop_run loop events = some loop') : ∃ low', Timed low' loop' := by
  induction events generalizing loop low with
  | nil =>
    simp only [loop_run, Option.some.injEq] at hrun
    exact ⟨low, hrun ▸ h⟩
  | cons event events ih =>
    rw [loop_run] at hrun
    obtain ⟨loop₁, hstep, hrun⟩ := Option.bind_eq_some_iff.mp hrun
    rcases loop_step_cases hsound event with ⟨loop₂, hstep', hstepped⟩ | ⟨hstep', -⟩
    · rw [hstep, Option.some.injEq] at hstep'
      subst hstep'
      have hone : ∀ now ∈ event.clock, low ≤ now := by
        intro now hnow
        exact List.rel_of_pairwise_cons hclock
          (List.mem_filterMap.mpr ⟨event, List.mem_cons_self, hnow⟩)
      have hstep₁ := h.step hstepped hone (by
        rintro delay is_permanent now rfl
        exact hdelay delay is_permanent now List.mem_cons_self)
      refine ih hstep₁ hstepped.sound ?_ ?_ hrun
      · cases hnow : event.clock with
        | none => rwa [List.filterMap_cons_none hnow] at hclock
        | some now =>
          rw [List.filterMap_cons_some hnow] at hclock
          exact hclock.tail
      · intro delay is_permanent now hmem
        exact hdelay delay is_permanent now (List.mem_cons_of_mem _ hmem)
    · simp [hstep] at hstep'

end Timed

/-- As long as the clock does not go back, timers come up in the order of their deadlines and not
before them, a one-shot timer at most once. An accepted timer that did not come up yet is in the
queue once, and so is a permanent timer outside its own callback. -/
theorem timers_come_up_in_order (default_wait_timeout : Int) (capacity : Nat)
    (events : List event_t) (loop : loop_t)
    (hclock : (events.filterMap event_t.clock).Pairwise (· ≤ ·))
    (hdelay : ∀ delay is_permanent now, event_t.add_timer delay is_permanent now ∈ events → 0 ≤ delay)
    (hrun : loop_run (loop_init default_wait_timeout capacity) events = some loop) :
    (∀ firing ∈ loop.fired, firing.deadline ≤ firing.clock) ∧
      (loop.fired.map (·.deadline)).Pairwise (· ≤ ·) ∧
      (∀ timer ∈ loop.accepted, timer.is_permanent = false → loop.came.count timer ≤ 1) ∧
      ∀ timer ∈ loop.accepted,
        timer ∉ loop.came ∨ timer.is_permanent = true ∧ loop.phase.running ≠ some timer →
          loop.waiting.count timer = 1 := by
  obtain ⟨low, hlow⟩ : ∃ low : Int,
      (low :: events.filterMap event_t.clock).Pairwise (· ≤ ·) := by
    cases hreadings : events.filterMap event_t.clock with
    | nil => exact ⟨0, List.pairwise_singleton _ _⟩
    | cons now readings =>
      rw [hreadings] at hclock
      refine ⟨now, List.pairwise_cons.mpr ⟨?_, hclock⟩⟩
      intro later hlater
      rcases List.mem_cons.mp hlater with rfl | hlater
      · exact le_rfl
      · exact List.rel_of_pairwise_cons hclock hlater
  obtain ⟨low', h⟩ := (loop_init_timed low default_wait_timeout capacity).run
    (loop_init_sound _ _) hlow hdelay hrun
  refine ⟨h.due, h.sorted, ?_, ?_⟩
  · intro timer _ honce
    have hcount := List.nodup_iff_count_le_one.mp h.once timer
    rwa [List.count_filter (by simpa using honce)] at hcount
  · rintro timer hmem hwaits
    apply List.count_eq_one_of_mem h.nodup
    rw [h.waits timer]
    rcases hwaits with hnot | ⟨hpermanent, hidle⟩
    · refine ⟨hmem, Or.inr hnot, ?_⟩
      intro hrunning
      exact hnot (h.running_came timer hrunning)
    · exact ⟨hmem, Or.inl hpermanent, hidle⟩

/-- A permanent timer and a one-shot timer; the permanent one has come up and is back. -/
theorem timers_come_up_in_order_twice :
    let timer : timer_entry_t := ⟨0, 5, true⟩
    let other : timer_entry_t := ⟨1, 20, false⟩
    let loop : loop_t := {
      dispatcher := ⟨100, ⟨10, [⟨13, timer⟩, ⟨20, other⟩]⟩, false, 0⟩
      phase := .timers
      next := 2
      returned := none
      accepted := [timer, other]
      fired := [⟨timer, 5, 7⟩] }
    (∀ firing ∈ loop.fired, firing.deadline ≤ firing.clock) ∧
      (loop.fired.map (·.deadline)).Pairwise (· ≤ ·) ∧
      (∀ timer ∈ loop.accepted, timer.is_permanent = false → loop.came.count timer ≤ 1) ∧
      ∀ timer ∈ loop.accepted,
        timer ∉ loop.came ∨ timer.is_permanent = true ∧ loop.phase.running ≠ some timer →
          loop.waiting.count timer = 1 :=
  timers_come_up_in_order 100 10
    [.add_timer 5 true 0, .add_timer 20 false 0, .proceed 0 (.ok 0), .proceed 3 (.ok 0),
      .proceed 7 (.ok 0), .proceed 8 (.ok 0)] _ (by decide)
    (by
      intro delay is_permanent now hmem
      simp only [List.mem_cons, event_t.add_timer.injEq, reduceCtorEq, or_false, List.not_mem_nil]
        at hmem
      omega)
    (by decide)

end nettle.dispatcher
