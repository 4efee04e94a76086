-- The LRU map of lrumap.c with its pointers: the hash table with pointers
-- leads from a key to an entry, and each entry is linked into one of the two
-- lists `pool` and `queue`.
import Nettle.LinkedHashmap
import Nettle.Lists

open nettle.list
open nettle.hashmap (factor_t double_factor)

namespace nettle.linked

/-- What a link of these lists may point to: their own heads and tails, or an entry. -/
inductive lrumap_cell where
  | pool_head
  | pool_tail
  | queue_head
  | queue_tail
  | entry (i : Nat)
deriving DecidableEq

def pool : list_t lrumap_cell := ⟨.pool_head, .pool_tail⟩

def queue : list_t lrumap_cell := ⟨.queue_head, .queue_tail⟩

structure lrumap_t (κ β : Type) where
  map : hashmap_t κ Nat
  heap : links lrumap_cell
  capacity : Nat
  entries : List (Option (κ × β))

variable {κ β : Type}

/-- The entry that a cell belongs to; the heads and tails belong to none. -/
def lrumap_entry_from_super : lrumap_cell → Option Nat
  | .entry i => some i
  | _ => none

def lrumap_init (capacity : Nat) (factor : factor_t) (hash_func : κ → Nat) (equal_func : κ → κ → Bool) :
    Option (lrumap_t κ β) := do
  let map ← hashmap_init capacity factor hash_func equal_func
  let heap := list_init (list_init ⟨fun _ => none, fun _ => none⟩ pool) queue
  let heap ← (List.range capacity).foldlM (fun heap i => list_push_front heap pool (.entry i)) heap
  return { map, heap, capacity, entries := List.replicate capacity none }

def lrumap_init1 (capacity : Nat) (hash_func : κ → Nat) (equal_func : κ → κ → Bool) :
    Option (lrumap_t κ β) := lrumap_init capacity (double_factor (3 / 4)) hash_func equal_func

/-- `none` when the `ensure` fails. -/
def lrumap_size (map : lrumap_t κ β) : Option Nat :=
  if map.map.size ≤ map.capacity then some map.map.size else none

/-- One growth is enough for the table, whatever it holds. -/
def lrumap_put (map : lrumap_t κ β) (key : κ) (value : β) : Option (Bool × lrumap_t κ β) := do
  let size ← lrumap_size map
  if size = map.capacity then return (false, map)
  else
    let (cell, heap) ← list_pop_back map.heap pool
    let entry ← lrumap_entry_from_super cell
    let entries := map.entries.set entry (some (key, value))
    let (absent, table) ← hashmap_put_if_absent 1 map.map key entry
    if absent then
      let heap ← list_push_front heap queue (.entry entry)
      return (true, { map with map := table, heap, entries })
    else none

def lrumap_get (map : lrumap_t κ β) (key : κ) : Option (Option (κ × β) × lrumap_t κ β) := do
  match ← hashmap_get map.map key with
  | none => return (none, map)
  | some (_, entry) =>
    let heap ← list_remove map.heap (.entry entry)
    let heap ← list_push_front heap queue (.entry entry)
    let key_value ← map.entries.getD entry none
    return (some key_value, { map with heap })

def lrumap_remove (map : lrumap_t κ β) (key : κ) : Option (Bool × lrumap_t κ β) := do
  match ← hashmap_remove map.map key with
  | (none, table) => return (false, { map with map := table })
  | (some (_, entry), table) =>
    let heap ← list_remove map.heap (.entry entry)
    let heap ← list_push_front heap pool (.entry entry)
    return (true, { map with map := table, heap })

/-- The eldest pair, if any. -/
def lrumap_peek (map : lrumap_t κ β) : Option (Option (κ × β)) := do
  let size ← lrumap_size map
  if size = 0 then return none
  else
    let cell ← list_peek_back map.heap queue
    let entry ← lrumap_entry_from_super cell
    let key_value ← map.entries.getD entry none
    return some key_value

def lrumap_make_eldest (map : lrumap_t κ β) (key : κ) : Option (Bool × lrumap_t κ β) := do
  match ← hashmap_get map.map key with
  | none => return (false, map)
  | some (_, entry) =>
    let heap ← list_remove map.heap (.entry entry)
    let heap ← list_push_back heap queue (.entry entry)
    return (true, { map with heap })

/-! ## Iteration -/

def lrumap_begin (map : lrumap_t κ β) : Option lrumap_cell := map.heap.prev queue.tail

def lrumap_end : Option lrumap_cell := some queue.head

def lrumap_next (map : lrumap_t κ β) (iter : Option lrumap_cell) :
    Option (Option lrumap_cell × κ × β) := do
  let cell ← iter
  let entry ← lrumap_entry_from_super cell
  let key_value ← map.entries.getD entry none
  return (map.heap.prev cell, key_value)

/-- The loop over all bindings that callers write, for at most `fuel` turns. -/
def lrumap_iterate (map : lrumap_t κ β) : Nat → Option lrumap_cell → Option (List (κ × β))
  | fuel, iter =>
    if iter = lrumap_end then some []
    else match fuel with
      | 0 => none
      | fuel + 1 => do
        let (iter, key_value) ← lrumap_next map iter
        let rest ← lrumap_iterate map fuel iter
        return key_value :: rest

end nettle.linked
