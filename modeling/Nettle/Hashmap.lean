-- The hash table of hashmap.c: chains of entry numbers, one for each bucket,
-- over an array of entries that is probed for a free place. A chain is a
-- list, first entry first; `none` stands for a division by zero or a failed
-- `ensure`.
import Nettle.InPlace
import Nettle.Rounding

open in_place

namespace nettle.hashmap

/-- A factor with its products by the capacities, as they are computed. Twice the capacity gives
twice the product. -/
structure factor_t where
  value : ℚ
  times : Nat → ℚ
  times_two_mul : ∀ capacity, times (2 * capacity) = 2 * times capacity

/-- The factors of the program are doubles, whose products are rounded. -/
def double_factor (value : ℚ) : factor_t where
  value
  times capacity := rounding.product 53 capacity value
  times_two_mul capacity := rounding.product_two_mul 53 capacity value

/-- A rational number, whose products are exact. -/
def exact_factor (value : ℚ) : factor_t where
  value
  times capacity := capacity * value
  times_two_mul capacity := by
    push_cast
    ring

structure hashmap_t (κ β : Type) where
  capacity : Nat
  factor : factor_t
  hash_func : κ → Nat
  equal_func : κ → κ → Bool
  bucket_num : Nat
  size : Nat
  buckets : List (List Nat)
  entries : List (Option (κ × β))

variable {κ β : Type}

def hashmap_reset (map : hashmap_t κ β) : hashmap_t κ β :=
  { map with
    size := 0
    buckets := List.replicate map.bucket_num []
    entries := List.replicate map.capacity none }

/-- The new arrays are blank here; every caller resets them next. -/
def hashmap_alloc (map : hashmap_t κ β) (capacity : Nat) : hashmap_t κ β :=
  let bucket_num := (map.factor.times capacity).floor.toNat
  { map with
    capacity
    bucket_num
    buckets := List.replicate bucket_num []
    entries := List.replicate capacity none }

def hashmap_init (initial_capacity : Nat) (factor : factor_t) (hash_func : κ → Nat)
    (equal_func : κ → κ → Bool) : Option (hashmap_t κ β) :=
  if 0 < factor.value ∧ factor.value ≤ 1 then
    let map : hashmap_t κ β := ⟨0, factor, hash_func, equal_func, 0, 0, [], []⟩
    some (hashmap_reset (hashmap_alloc map initial_capacity))
  else none

/-- The chain of a key. -/
def hashmap_bucket (map : hashmap_t κ β) (key : κ) : Option (List Nat) :=
  if map.bucket_num = 0 then none
  else some (map.buckets.getD (map.hash_func key % map.bucket_num) [])

/-- The search through a chain. -/
def hashmap_find (map : hashmap_t κ β) (key : κ) (chain : List Nat) : Option Nat :=
  chain.find? fun i => match map.entries.getD i none with
    | some (k, _) => map.equal_func key k
    | none => false

/-- The search for an unused entry, from `i` on and around; at most `fuel` entries are tried. -/
def hashmap_probe (map : hashmap_t κ β) : Nat → Nat → Option Nat
  | 0, _ => none
  | fuel + 1, i =>
    if (map.entries.getD i none).isSome then hashmap_probe map fuel ((i + 1) % map.capacity)
    else some i

/-- The second half of `hashmap_put_new`: a free entry at the head of its chain. -/
def hashmap_link (map : hashmap_t κ β) (key : κ) (value : β) : Option (hashmap_t κ β) :=
  if map.capacity = 0 ∨ map.bucket_num = 0 then none
  else do
    let hash := map.hash_func key
    let i ← hashmap_probe map map.capacity (hash % map.capacity)
    return { map with
      size := map.size + 1
      buckets := map.buckets.modify (hash % map.bucket_num) (i :: ·)
      entries := map.entries.set i (some (key, value)) }

section

variable (put : hashmap_t κ β → κ → β → Option (Option β × hashmap_t κ β))

def hashmap_grow (map : hashmap_t κ β) : Option (hashmap_t κ β) :=
  map.entries.foldlM (fun map' entry => match entry with
    | some (key, value) => (put map' key value).map Prod.snd
    | none => some map') (hashmap_reset (hashmap_alloc map (2 * map.capacity)))

/-- The loop that ensures capacity, for at most `fuel` turns. -/
def hashmap_ensure : Nat → hashmap_t κ β → Option (hashmap_t κ β)
  | 0, map => if map.size ≥ map.bucket_num then none else some map
  | fuel + 1, map =>
    if map.size ≥ map.bucket_num then hashmap_grow put map >>= hashmap_ensure fuel else some map

def hashmap_put_new (fuel : Nat) (map : hashmap_t κ β) (key : κ) (value : β) :
    Option (hashmap_t κ β) := do
  let map ← hashmap_ensure put fuel map
  hashmap_link map key value

end

/-- The value replaced, if any. `hashmap_put_new` puts again while it grows, so the fuel counts
both the depth of the calls and the turns of each loop. -/
def hashmap_put : Nat → hashmap_t κ β → κ → β → Option (Option β × hashmap_t κ β)
  | 0, _, _, _ => none
  | fuel + 1, map, key, value => do
    let chain ← hashmap_bucket map key
    match hashmap_find map key chain with
    | some i =>
      let entry := map.entries.getD i none
      return (entry.map Prod.snd, { map with
        entries := map.entries.set i (entry.map fun (k, _) => (k, value)) })
    | none =>
      let map ← hashmap_put_new (hashmap_put fuel) fuel map key value
      return (none, map)

def hashmap_put_if_absent (fuel : Nat) (map : hashmap_t κ β) (key : κ) (value : β) :
    Option (Bool × hashmap_t κ β) := do
  let chain ← hashmap_bucket map key
  match hashmap_find map key chain with
  | some _ => return (false, map)
  | none =>
    let map ← hashmap_put_new (hashmap_put fuel) fuel map key value
    return (true, map)

def hashmap_get (map : hashmap_t κ β) (key : κ) : Option (Option (κ × β)) := do
  let chain ← hashmap_bucket map key
  return (hashmap_find map key chain).bind fun i => map.entries.getD i none

def hashmap_remove (map : hashmap_t κ β) (key : κ) :
    Option (Option (κ × β) × hashmap_t κ β) := do
  let chain ← hashmap_bucket map key
  match hashmap_find map key chain with
  | some i =>
    return (map.entries.getD i none, { map with
      size := map.size - 1
      buckets := map.buckets.modify (map.hash_func key % map.bucket_num) (·.erase i)
      entries := map.entries.set i none })
  | none => return (none, map)

def hashmap_clear (map : hashmap_t κ β) : hashmap_t κ β :=
  if map.size = 0 then map else hashmap_reset map

def naive_hash_func (key : Nat) : Nat := key

def naive_equal_func (key1 key2 : Nat) : Bool := key1 == key2

/-- A character is a signed byte, and the sum is a size_t. -/
def str_hash_func (key : List Char) : Nat :=
  key.foldl (fun h s => ((31 * h + (s.toNat : Int).bmod 256) % 2 ^ 64).toNat) 0

/-- `strcmp` finds no difference. -/
def str_equal_func (key1 key2 : List Char) : Bool := key1 == key2

end nettle.hashmap
