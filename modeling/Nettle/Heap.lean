-- The heap (heap.c): entries with a long key in an array, the least key first.
import Nettle.PriorityQueue

open priority_queue

namespace nettle.heap

structure entry_t (V : Type*) where
  key : Int
  value : V
  deriving DecidableEq, Repr

/-- The heap. Its size is the length of the buffer: the slots behind it hold nothing that is
read. -/
structure heap_t (V : Type*) where
  capacity : Nat
  buffer : List (entry_t V)
  deriving DecidableEq, Repr

variable {V : Type*}

def make_heap (capacity : Nat) : heap_t V := { capacity, buffer := [] }

def heap_size (heap : heap_t V) : Nat := heap.buffer.length

/-- The choice of `mc`, the child with the least key. A read behind the last entry gives `none`. -/
def min_child (buffer : List (entry_t V)) (l r : Nat) : Option (Nat × entry_t V) := do
  let mc_entry ← buffer[l]?
  if r < buffer.length then
    let r_entry ← buffer[r]?
    if r_entry.key < mc_entry.key then return (r, r_entry)
  return (l, mc_entry)

/-- The loop, `none` when the fuel is spent or a slot behind the last entry is read. -/
def shift_down : Nat → List (entry_t V) → Nat → Option (List (entry_t V))
  | 0, _, _ => none
  | fuel + 1, buffer, n =>
    if left n ≥ buffer.length then some buffer
    else do
      let (mc, mc_entry) ← min_child buffer (left n) (right n)
      let entry ← buffer[n]?
      if entry.key ≤ mc_entry.key then some buffer
      else shift_down fuel ((buffer.set mc entry).set n mc_entry) mc

def shift_up : Nat → List (entry_t V) → Nat → Option (List (entry_t V))
  | 0, _, _ => none
  | fuel + 1, buffer, n =>
    if n > 0 then do
      let p_entry ← buffer[parent n]?
      let entry ← buffer[n]?
      if p_entry.key ≤ entry.key then some buffer
      else shift_up fuel ((buffer.set (parent n) entry).set n p_entry) (parent n)
    else some buffer

def heap_head (heap : heap_t V) : Option (Int × V) :=
  match heap.buffer with
  | [] => none
  | entry :: _ => some (entry.key, entry.value)

def heap_push (heap : heap_t V) (key : Int) (value : V) : Option (heap_t V × Bool) :=
  let size := heap_size heap
  if size ≥ heap.capacity then some (heap, false)
  else do
    let buffer ← shift_up (size + 1) (heap.buffer ++ [⟨key, value⟩]) size
    return ({ heap with buffer }, true)

/-- The last entry takes the place of the root before its own slot is given up. -/
def heap_pop (heap : heap_t V) : Option (heap_t V × Option (Int × V)) :=
  match heap_head heap with
  | none => some (heap, none)
  | some entry => do
    let size := heap_size heap - 1
    let last ← heap.buffer[size]?
    let buffer ← shift_down (size + 1) ((heap.buffer.set 0 last).take size) 0
    return ({ heap with buffer }, some entry)

/-! ## Runs of calls -/

def heap_call (heap : heap_t V) : Op Int V → Option (heap_t V × Answer Int V)
  | .push key value => do
    let (heap, accepted) ← heap_push heap key value
    return (heap, .pushed accepted)
  | .pop => do
    let (heap, entry) ← heap_pop heap
    return (heap, .popped entry)
  | .head => some (heap, .head (heap_head heap))

def heap_run (heap : heap_t V) : List (Op Int V) → Option (heap_t V × List (Answer Int V))
  | [] => some (heap, [])
  | op :: ops => do
    let (heap, answer) ← heap_call heap op
    let (heap, answers) ← heap_run heap ops
    return (heap, answer :: answers)

end nettle.heap
