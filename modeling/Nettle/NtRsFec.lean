-- The Reed-Solomon FEC of nt_rs_fec.c. The encoder writes one block after
-- the other under ids of a shared generator; the decoder keeps a fixed pool
-- of buffers, one block each, behind an LRU map. `none` is a failed `ensure`
-- or a division by zero; a callback threads the state behind `extra`.
import Nettle.Rs
import Nettle.Lrumap
import Nettle.NtFec

open nettle.hashmap nettle.lrumap nettle.nt_fec nettle.rs

namespace nettle.nt_rs_fec

structure encode_buffer_t where
  block_id : UInt32
  buffer : rs_ec_t

structure decode_buffer_t where
  block_id : UInt32
  buffer : rs_dc_t
  timestamp : Int

/-- The cache maps a block id to the number of its buffer in the pool. -/
structure nt_rs_fec_t where
  rs : rs_t
  encode_buffer : encode_buffer_t
  decode_buffer_cache : lrumap_t Nat Nat
  decode_buffer_pool : List decode_buffer_t
  decode_buffer_size : Nat
  decode_timeout : Int
  perf : perf_t

/-- The id that the generator gives out next. -/
abbrev idgen_t := UInt32

def idgen_next (idgen : idgen_t) : UInt32 × idgen_t := (idgen, idgen + 1)

def reset_encode_buffer (fec : nt_rs_fec_t) (idgen : idgen_t) : nt_rs_fec_t × idgen_t :=
  let (block_id, idgen) := idgen_next idgen
  ({ fec with
    encode_buffer := { block_id, buffer := rs_reset_ec fec.rs fec.encode_buffer.buffer } }, idgen)

def reset_decode_buffer (rs : rs_t) (decode_buffer : decode_buffer_t) (block_id : UInt32) :
    decode_buffer_t :=
  { decode_buffer with block_id, buffer := rs_reset_dc rs decode_buffer.buffer, timestamp := 0 }

variable {σ : Type}

/-! ## Encoding -/

/-- The header of a packet of the current block. -/
def encode_header (fec : nt_rs_fec_t) (degree size : Nat) : nt_fec_header_t :=
  let max_degree := fec.rs.N - 1
  nt_fec_header_init NT_RS_FEC_TAG (UInt8.ofNat fec.rs.N) (UInt8.ofNat fec.rs.K)
    fec.encode_buffer.block_id (UInt8.ofNat (max_degree - degree)) (UInt16.ofNat size)

/-- The loop over the redundant packets, `rest` of them from `i` on; an error breaks it. -/
def encode_loop (fec : nt_rs_fec_t)
    (callback : σ → nt_fec_header_t → List UInt8 → error_t × σ) : Nat → Nat → σ → error_t × σ
  | 0, _, extra => (0, extra)
  | rest + 1, i, extra =>
    match rs_encode_result fec.rs fec.encode_buffer.buffer i
        (RS_MAX_ENCODED_SIZE fec.rs.max_data_size) with
    | .error _ => (E_FEC_INTERNAL_ERROR, extra)
    | .ok (encoded, degree) =>
      let (err, extra) := callback extra (encode_header fec degree encoded.length) encoded
      if err ≠ 0 then (err, extra) else encode_loop fec callback rest (i + 1) extra

def nt_rs_fec_encode (fec : nt_rs_fec_t) (idgen : idgen_t) (input : List UInt8) (extra : σ)
    (callback : σ → nt_fec_header_t → List UInt8 → error_t × σ) :
    Option (error_t × nt_rs_fec_t × idgen_t × σ) :=
  match rs_encode fec.rs fec.encode_buffer.buffer input with
  | none => none
  | some (_, .error _) => none -- Should not fail.
  | some (buffer, .ok (n, degree)) =>
    let fec := { fec with encode_buffer := { fec.encode_buffer with buffer } }
    let (err, extra) := callback extra (encode_header fec degree input.length) input
    if err ≠ 0 then some (err, fec, idgen, extra)
    else if n = 0 then some (0, fec, idgen, extra)
    else
      let (err, extra) := encode_loop fec callback n 0 extra
      let (fec, idgen) := reset_encode_buffer fec idgen
      some (err, fec, idgen, extra)

/-! ## Decoding -/

/-- The buffer at a number of the pool; the cache holds no other numbers. -/
def pool_get (fec : nt_rs_fec_t) (index : Nat) : Option decode_buffer_t :=
  fec.decode_buffer_pool[index]?

def pool_set (fec : nt_rs_fec_t) (index : Nat) (decode_buffer : decode_buffer_t) : nt_rs_fec_t :=
  { fec with decode_buffer_pool := fec.decode_buffer_pool.set index decode_buffer }

/-- The part of `nt_rs_fec_decode` that looks for the buffer of a block: either the value to
return at once, or the number of the buffer. -/
def select_decode_buffer (fec : nt_rs_fec_t) (block_id : UInt32) (current : Int) :
    Option (nt_rs_fec_t × Except error_t Nat) := do
  let (key_value, cache) ← lrumap_get fec.decode_buffer_cache block_id.toNat
  let fec := { fec with decode_buffer_cache := cache }
  match key_value with
  | some (_, index) =>
    let decode_buffer ← pool_get fec index
    let complete ← rs_is_dc_complete fec.rs decode_buffer.buffer
    if current - decode_buffer.timestamp ≤ fec.decode_timeout then
      -- We have the entry; all messages of a complete block are already processed.
      return (fec, if complete then .error 0 else .ok index)
    else
      -- We have the entry, but it's expired.
      let perf := if ¬complete ∧ decode_buffer.timestamp > 0 then
        perf_inc fec.perf .COUNTER_DECODER_BLOCK_EXPIRE 1 else fec.perf
      return (pool_set { fec with perf } index (reset_decode_buffer fec.rs decode_buffer block_id),
        .ok index)
  | none =>
    -- Expires the oldest data.
    let (key, index) ← ← lrumap_peek fec.decode_buffer_cache
    let decode_buffer ← pool_get fec index
    let complete ← rs_is_dc_complete fec.rs decode_buffer.buffer
    if ¬complete ∧ decode_buffer.timestamp > 0 ∧
        current - decode_buffer.timestamp ≤ fec.decode_timeout then
      return (fec, .error E_FEC_DECODER_BUFFER_FULL)
    else
      let perf := if ¬complete ∧ decode_buffer.timestamp > 0 then
        perf_inc fec.perf .COUNTER_DECODER_BLOCK_EXPIRE 1 else fec.perf
      let (removed, cache) ← lrumap_remove fec.decode_buffer_cache key
      if ¬removed then none
      else
        let (done, cache) ← lrumap_put cache block_id.toNat index
        if ¬done then none
        else
          return (pool_set { fec with perf, decode_buffer_cache := cache } index
            (reset_decode_buffer fec.rs decode_buffer block_id), .ok index)

/-- The loop over the restored messages, `rest` of them from `i` on. -/
def decode_loop (rs : rs_t) (dc : rs_dc_t) (callback : σ → List UInt8 → Int → error_t × σ) :
    Nat → Nat → σ → Option (error_t × σ)
  | 0, _, extra => some (0, extra)
  | rest + 1, i, extra =>
    match rs_decode_result rs dc i rs.max_data_size with
    | none => none
    | some (.error _) => some (E_FEC_INTERNAL_ERROR, extra) -- Should not fail.
    | some (.ok (decoded, decoded_size, _)) =>
      let (err, extra) := callback extra decoded decoded_size
      if err ≠ 0 then some (err, extra) else decode_loop rs dc callback rest (i + 1) extra

/-- The part of `nt_rs_fec_decode` that feeds a packet to a buffer. -/
def feed_decode_buffer (fec : nt_rs_fec_t) (index : Nat) (header : nt_fec_header_t)
    (input : List UInt8) (current : Int) (extra : σ)
    (callback : σ → List UInt8 → Int → error_t × σ) : Option (error_t × nt_rs_fec_t × σ) := do
  let decode_buffer ← pool_get fec index
  let perf := if decode_buffer.timestamp = 0 then
    perf_inc fec.perf .COUNTER_DECODER_BLOCK_COUNT 1 else fec.perf
  let fec := { fec with perf }
  let max_degree : Int := fec.rs.N - 1
  match ← rs_decode fec.rs decode_buffer.buffer input (max_degree - header.block_index.toNat) with
  | (_, .error .E_RS_DUPLICATE) => return (0, fec, extra)
  | (_, .error _) => return (EINVAL, fec, extra)
  | (buffer, .ok (n, is_raw)) =>
    let complete ← rs_is_dc_complete fec.rs buffer
    let perf := if ¬complete then fec.perf
      else if n = 0 then perf_inc fec.perf .COUNTER_DECODER_BLOCK_COMPLETE 1
      else perf_inc (perf_inc fec.perf .COUNTER_DECODER_BLOCK_RESTORE 1) .COUNTER_DECODER_RESTORE n
    let fec := pool_set { fec with perf } index { decode_buffer with buffer, timestamp := current }
    let (err, extra, fec) := if is_raw then
        let (err, extra) := callback extra input input.length
        (err, extra, { fec with perf := perf_inc fec.perf .COUNTER_DECODER_RAW 1 })
      else (0, extra, fec)
    if err ≠ 0 then return (err, fec, extra)
    else
      let (err, extra) ← decode_loop fec.rs buffer callback n 0 extra
      return (err, fec, extra)

def nt_rs_fec_decode (fec : nt_rs_fec_t) (header : nt_fec_header_t) (input : List UInt8)
    (current : Int) (extra : σ) (callback : σ → List UInt8 → Int → error_t × σ) :
    Option (error_t × nt_rs_fec_t × σ) :=
  if header.tag ≠ NT_RS_FEC_TAG ∨ header.N.toNat ≠ fec.rs.N ∨ header.K.toNat ≠ fec.rs.K then
    some (E_FEC_INVALID_HEADER, fec, extra)
  else do
    match ← select_decode_buffer fec (nt_fec_header_block_id header) current with
    | (fec, .error err) => return (err, fec, extra)
    | (fec, .ok index) => feed_decode_buffer fec index header input current extra callback

/-! ## Initialisation -/

def nt_rs_fec_init (N K : UInt8) (max_data_size decode_buffer_size : Nat) (decode_timeout : Int)
    (idgen : idgen_t) (perf : perf_t) : Option (nt_rs_fec_t × idgen_t) := do
  let rs := rs_init N.toNat K.toNat max_data_size
  let cache ← lrumap_init1 decode_buffer_size naive_hash_func naive_equal_func
  let blank_ec : rs_ec_t := ⟨0, []⟩
  let blank_dc : rs_dc_t := ⟨0, bitmap256_reset, [], [], 0, 0⟩
  let pool := (List.range decode_buffer_size).map fun i =>
    reset_decode_buffer rs ⟨0, blank_dc, 0⟩ (UInt32.ofNat i)
  let cache ← (List.range decode_buffer_size).foldlM (fun cache i =>
    (lrumap_put cache (UInt32.ofNat i).toNat i).map Prod.snd) cache
  let fec := {
    rs
    encode_buffer := ⟨0, blank_ec⟩
    decode_buffer_cache := cache
    decode_buffer_pool := pool
    decode_buffer_size
    decode_timeout
    perf }
  return reset_encode_buffer fec idgen

end nettle.nt_rs_fec
