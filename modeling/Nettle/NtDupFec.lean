-- The decoder of nt_dup_fec.c: a packet comes in as many copies as there are
-- paths, and a cache of the last block ids tells the first copy from the
-- others. `none` is a failed `ensure` or a division by zero; a callback
-- threads the state behind `extra`.
import Nettle.LinkedLrumap
import Nettle.NtFec

open nettle.hashmap nettle.linked nettle.nt_fec

namespace nettle.nt_dup_fec

/-- The cache maps a block id to the time its packet was delivered. -/
structure nt_dup_fec_t where
  N : UInt8
  dedup_cache : lrumap_t Nat Int
  dedup_timeout : Int

/-- A cache of size 0 disables the deduplication. -/
def nt_dup_fec_init (N : UInt8) (dedup_cache_size : Nat) (dedup_timeout : Int) :
    Option nt_dup_fec_t := do
  let dedup_cache ← lrumap_init1 dedup_cache_size naive_hash_func naive_equal_func
  return { N, dedup_cache, dedup_timeout }

/-- The part of `nt_dup_fec_decode` that looks the block id up: whether the packet is a
duplicate, and the cache. -/
def dedup (fec : nt_dup_fec_t) (block_id : Nat) (current : Int) :
    Option (Bool × lrumap_t Nat Int) := do
  let insert (cache : lrumap_t Nat Int) : Option (Bool × lrumap_t Nat Int) := do
    let (inserted, cache) ← lrumap_put cache block_id current
    if inserted then return (false, cache) else none
  let (key_value, cache) ← lrumap_get fec.dedup_cache block_id
  match key_value with
  | some (_, delivered) =>
    if current - delivered > fec.dedup_timeout then
      -- We have the entry, but it's expired.
      let (removed, cache) ← lrumap_remove cache block_id
      if removed then insert cache else none
    else
      -- We have the entry, duplicate.
      return (true, cache)
  | none =>
    let size ← lrumap_size cache
    if size = cache.capacity then
      -- Expires the oldest data.
      let (key, _) ← ← lrumap_peek cache
      let (removed, cache) ← lrumap_remove cache key
      if removed then insert cache else none
    else insert cache

variable {σ : Type}

/-- We don't care about N here. -/
def nt_dup_fec_decode (fec : nt_dup_fec_t) (header : nt_fec_header_t) (input : List UInt8)
    (current : Int) (extra : σ) (callback : σ → List UInt8 → error_t × σ) :
    Option (error_t × nt_dup_fec_t × σ) :=
  if header.tag ≠ NT_DUP_FEC_TAG ∨ header.K ≠ 1 then some (E_FEC_INVALID_HEADER, fec, extra)
  else do
    let block_id := (nt_fec_header_block_id header).toNat
    if fec.dedup_cache.capacity > 0 then
      let (duplicate, dedup_cache) ← dedup fec block_id current
      let fec := { fec with dedup_cache }
      if duplicate then return (0, fec, extra)
      else
        let (err, extra) := callback extra input
        return (err, fec, extra)
    else
      let (err, extra) := callback extra input
      return (err, fec, extra)

end nettle.nt_dup_fec
