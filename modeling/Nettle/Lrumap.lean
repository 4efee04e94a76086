-- The LRU map of lrumap.c: a hash table from keys to entry numbers, and two
-- linked lists that share the entries, the free ones and the used ones with
-- the newest in front.
import Nettle.Hashmap

open in_place nettle.hashmap

namespace nettle.lrumap

structure lrumap_t (κ β : Type) where
  map : hashmap_t κ Nat
  pool : List Nat
  queue : List Nat
  capacity : Nat
  entries : List (Option (κ × β))

variable {κ β : Type}

def lrumap_init (capacity : Nat) (factor : factor_t) (hash_func : κ → Nat) (equal_func : κ → κ → Bool) :
    Option (lrumap_t κ β) := do
  let map ← hashmap_init capacity factor hash_func equal_func
  return {
    map
    pool := (List.range capacity).foldl (fun pool i => i :: pool) []
    queue := []
    capacity
    entries := List.replicate capacity none }

def lrumap_init1 (capacity : Nat) (hash_func : κ → Nat) (equal_func : κ → κ → Bool) :
    Option (lrumap_t κ β) := lrumap_init capacity (double_factor (3 / 4)) hash_func equal_func

/-- `none` when the `ensure` fails. -/
def lrumap_size (map : lrumap_t κ β) : Option Nat :=
  if map.map.size ≤ map.capacity then some map.map.size else none

/-- `list_remove` on an entry, whichever list it stands in; it has to stand in one. -/
def list_remove (map : lrumap_t κ β) (entry : Nat) : Option (lrumap_t κ β) :=
  if entry ∈ map.queue then some { map with queue := map.queue.erase entry }
  else if entry ∈ map.pool then some { map with pool := map.pool.erase entry }
  else none

/-- One growth is enough for the table, whatever it holds. -/
def lrumap_put (map : lrumap_t κ β) (key : κ) (value : β) : Option (Bool × lrumap_t κ β) := do
  let size ← lrumap_size map
  if size = map.capacity then return (false, map)
  else
    let entry ← map.pool.getLast?
    let (absent, table) ← hashmap_put_if_absent 1 map.map key entry
    if absent then
      return (true, { map with
        map := table
        pool := map.pool.dropLast
        queue := entry :: map.queue
        entries := map.entries.set entry (some (key, value)) })
    else none

/-- The pair found, if any, which becomes the newest. -/
def lrumap_get (map : lrumap_t κ β) (key : κ) : Option (Option (κ × β) × lrumap_t κ β) := do
  match ← hashmap_get map.map key with
  | none => return (none, map)
  | some (_, entry) =>
    let map ← list_remove map entry
    let map := { map with queue := entry :: map.queue }
    return (map.entries.getD entry none, map)

def lrumap_remove (map : lrumap_t κ β) (key : κ) : Option (Bool × lrumap_t κ β) := do
  match ← hashmap_remove map.map key with
  | (none, table) => return (false, { map with map := table })
  | (some (_, entry), table) =>
    let map ← list_remove { map with map := table } entry
    return (true, { map with pool := entry :: map.pool })

/-- The eldest pair, if any. -/
def lrumap_peek (map : lrumap_t κ β) : Option (Option (κ × β)) := do
  let size ← lrumap_size map
  if size = 0 then return none
  else
    let entry ← map.queue.getLast?
    return map.entries.getD entry none

def lrumap_make_eldest (map : lrumap_t κ β) (key : κ) : Option (Bool × lrumap_t κ β) := do
  match ← hashmap_get map.map key with
  | none => return (false, map)
  | some (_, entry) =>
    let map ← list_remove map entry
    return (true, { map with queue := map.queue ++ [entry] })

end nettle.lrumap
