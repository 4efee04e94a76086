-- The hash table of hashmap.c with its pointers: a bucket points to the head
-- of a chain, and the entries of a chain to each other. A pointer to an entry
-- is its number, NULL is `none`. The result `none` is a failed `ensure`, a
-- division by zero, a read of what was never written, or a loop that goes on
-- for ever.
import Nettle.Hashmap

open nettle.hashmap (factor_t double_factor)

namespace nettle.linked

/-- What a new entry holds is unknown, so `key_value` is there once it is set. -/
structure hashmap_entry_t (κ β : Type) where
  key_value : Option (κ × β)
  used : Bool
  prev : Option Nat
  next : Option Nat

structure hashmap_t (κ β : Type) where
  capacity : Nat
  factor : factor_t
  hash_func : κ → Nat
  equal_func : κ → κ → Bool
  bucket_num : Nat
  size : Nat
  buckets : List (Option Nat)
  entries : List (hashmap_entry_t κ β)

variable {κ β : Type}

def hashmap_reset (map : hashmap_t κ β) : hashmap_t κ β :=
  { map with
    size := 0
    buckets := List.replicate map.bucket_num none
    entries := map.entries.map fun entry => { entry with used := false } }

/-- The new arrays are blank here; every caller resets them next. -/
def hashmap_alloc (map : hashmap_t κ β) (capacity : Nat) : hashmap_t κ β :=
  let bucket_num := (map.factor.times capacity).floor.toNat
  { map with
    capacity
    bucket_num
    buckets := List.replicate bucket_num none
    entries := List.replicate capacity ⟨none, false, none, none⟩ }

def hashmap_init (initial_capacity : Nat) (factor : factor_t) (hash_func : κ → Nat)
    (equal_func : κ → κ → Bool) : Option (hashmap_t κ β) :=
  if 0 < factor.value ∧ factor.value ≤ 1 then
    let map : hashmap_t κ β := ⟨0, factor, hash_func, equal_func, 0, 0, [], []⟩
    some (hashmap_reset (hashmap_alloc map initial_capacity))
  else none

def hashmap_init1 (initial_capacity : Nat) (hash_func : κ → Nat)
    (equal_func : κ → κ → Bool) : Option (hashmap_t κ β) :=
  hashmap_init initial_capacity (double_factor (3 / 4)) hash_func equal_func

/-- The field `prev` of an entry, unless the pointer to it is NULL. -/
def set_prev (entries : List (hashmap_entry_t κ β)) (entry prev : Option Nat) :
    List (hashmap_entry_t κ β) :=
  match entry with
  | some i => entries.modify i fun e => { e with prev }
  | none => entries

/-- The field `next` of an entry, unless the pointer to it is NULL. -/
def set_next (entries : List (hashmap_entry_t κ β)) (entry next : Option Nat) :
    List (hashmap_entry_t κ β) :=
  match entry with
  | some i => entries.modify i fun e => { e with next }
  | none => entries

/-- The number of the bucket of a key. -/
def hashmap_bucket (map : hashmap_t κ β) (key : κ) : Option Nat :=
  if map.bucket_num = 0 then none else some (map.hash_func key % map.bucket_num)

/-- The loop along a chain that looks for a key, for at most `fuel` entries. -/
def hashmap_find (map : hashmap_t κ β) (key : κ) : Nat → Option Nat → Option (Option Nat)
  | _, none => some none
  | 0, some _ => none
  | fuel + 1, some i => do
    let entry ← map.entries[i]?
    let (k, _) ← entry.key_value
    if map.equal_func key k then some (some i) else hashmap_find map key fuel entry.next

/-- The loop in the bucket of a key. -/
def hashmap_lookup (map : hashmap_t κ β) (key : κ) : Option (Nat × Option Nat) := do
  let bucket ← hashmap_bucket map key
  let found ← hashmap_find map key map.capacity (map.buckets.getD bucket none)
  return (bucket, found)

/-- The search for an unused entry, from `i` on and around; at most `fuel` entries are tried. -/
def hashmap_probe (map : hashmap_t κ β) : Nat → Nat → Option Nat
  | 0, _ => none
  | fuel + 1, i => do
    let entry ← map.entries[i]?
    if entry.used then hashmap_probe map fuel ((i + 1) % map.capacity) else some i

/-- The second half of `hashmap_put_new`: an unused entry is set and added to its chain. -/
def hashmap_link (map : hashmap_t κ β) (key : κ) (value : β) : Option (hashmap_t κ β) :=
  if map.capacity = 0 ∨ map.bucket_num = 0 then none
  else do
    let hash := map.hash_func key
    let i ← hashmap_probe map map.capacity (hash % map.capacity)
    let bucket := hash % map.bucket_num
    let next := map.buckets.getD bucket none
    let entries := map.entries.set i { key_value := some (key, value), used := true, prev := none, next }
    return { map with
      size := map.size + 1
      buckets := map.buckets.set bucket (some i)
      entries := set_prev entries next (some i) }

section

variable (put : hashmap_t κ β → κ → β → Option (Option β × hashmap_t κ β))

def hashmap_grow (map : hashmap_t κ β) : Option (hashmap_t κ β) :=
  map.entries.foldlM (fun map' entry =>
    if entry.used then do
      let (key, value) ← entry.key_value
      (put map' key value).map Prod.snd
    else some map') (hashmap_reset (hashmap_alloc map (2 * map.capacity)))

/-- The loop that ensures capacity, for at most `fuel` turns. -/
def hashmap_ensure : Nat → hashmap_t κ β → Option (hashmap_t κ β)
  | 0, map => if map.size ≥ map.bucket_num then none else some map
  | fuel + 1, map =>
    if map.size ≥ map.bucket_num then hashmap_grow put map >>= hashmap_ensure fuel else some map

def hashmap_put_new (fuel : Nat) (map : hashmap_t κ β) (key : κ) (value : β) :
    Option (hashmap_t κ β) := do
  let map ← hashmap_ensure put fuel map
  hashmap_link map key value

end

/-- The value replaced, if any. `hashmap_put_new` puts again while it grows, so the fuel counts
both the depth of the calls and the turns of each loop. -/
def hashmap_put : Nat → hashmap_t κ β → κ → β → Option (Option β × hashmap_t κ β)
  | 0, _, _, _ => none
  | fuel + 1, map, key, value => do
    match ← hashmap_lookup map key with
    | (_, some i) =>
      let entry ← map.entries[i]?
      let (k, old_value) ← entry.key_value
      return (some old_value, { map with
        entries := map.entries.set i { entry with key_value := some (k, value) } })
    | (_, none) =>
      let map ← hashmap_put_new (hashmap_put fuel) fuel map key value
      return (none, map)

def hashmap_put_if_absent (fuel : Nat) (map : hashmap_t κ β) (key : κ) (value : β) :
    Option (Bool × hashmap_t κ β) := do
  match ← hashmap_lookup map key with
  | (_, some _) => return (false, map)
  | (_, none) =>
    let map ← hashmap_put_new (hashmap_put fuel) fuel map key value
    return (true, map)

def hashmap_get (map : hashmap_t κ β) (key : κ) : Option (Option (κ × β)) := do
  match ← hashmap_lookup map key with
  | (_, some i) =>
    let entry ← map.entries[i]?
    let key_value ← entry.key_value
    return some key_value
  | (_, none) => return none

/-- An entry is taken out of its chain, as `hashmap_remove` does it. -/
def hashmap_unlink (map : hashmap_t κ β) (bucket i : Nat) (entry : hashmap_entry_t κ β) :
    hashmap_t κ β :=
  let buckets := if entry.prev.isSome then map.buckets else map.buckets.set bucket entry.next
  let entries := set_next map.entries entry.prev entry.next
  let entries := set_prev entries entry.next entry.prev
  { map with
    size := map.size - 1
    buckets
    entries := entries.modify i fun e => { e with used := false } }

def hashmap_remove (map : hashmap_t κ β) (key : κ) :
    Option (Option (κ × β) × hashmap_t κ β) := do
  match ← hashmap_lookup map key with
  | (bucket, some i) =>
    let entry ← map.entries[i]?
    let key_value ← entry.key_value
    return (some key_value, hashmap_unlink map bucket i entry)
  | (_, none) => return (none, map)

def hashmap_clear (map : hashmap_t κ β) : hashmap_t κ β :=
  if map.size = 0 then map else hashmap_reset map

/-! ## Iteration -/

/-- The first used entry of the last `rest` ones, from `i` on. -/
def find_valid_entry (map : hashmap_t κ β) : Nat → Nat → Nat
  | 0, _ => map.capacity
  | rest + 1, i =>
    if (map.entries[i]?).any (·.used) then i else find_valid_entry map rest (i + 1)

def hashmap_begin (map : hashmap_t κ β) : Nat := find_valid_entry map map.capacity 0

def hashmap_end (map : hashmap_t κ β) : Nat := map.capacity

def hashmap_next (map : hashmap_t κ β) (iter : Nat) : Option (Nat × κ × β) :=
  if iter = hashmap_end map then none
  else do
    let entry ← map.entries[iter]?
    if ¬entry.used then none
    else
      let key_value ← entry.key_value
      return (find_valid_entry map (map.capacity - (iter + 1)) (iter + 1), key_value)

/-- The loop over all bindings that callers write, for at most `fuel` turns. -/
def hashmap_iterate (map : hashmap_t κ β) : Nat → Nat → Option (List (κ × β))
  | fuel, iter =>
    if iter = hashmap_end map then some []
    else match fuel with
      | 0 => none
      | fuel + 1 => do
        let (iter, key_value) ← hashmap_next map iter
        let rest ← hashmap_iterate map fuel iter
        return key_value :: rest

end nettle.linked
