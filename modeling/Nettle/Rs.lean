-- The block codec of rs.c: K messages of one block are coded column by
-- column, each under a header with its size, and N - K redundant payloads
-- stand behind them. An array of `T` words for each column is a row here.
import Nettle.RsCode

open nettle.galois nettle.rscode

namespace nettle.rs

def RS_HEADER_SIZE : Nat := 4

def RS_MAX_ENCODED_SIZE (max_data_size : Nat) : Nat := max_data_size + RS_HEADER_SIZE

def RS_GALOIS_ORDER : Nat := 256

inductive rs_error where
  | E_RS_INVALID_SIZE
  | E_RS_INVALID_INDEX
  | E_RS_INVALID_DEGREE
  | E_RS_INVALID_HEADER
  | E_RS_DUPLICATE
  deriving DecidableEq, Repr

/-! ## The mask of received degrees -/

structure bitmap256_t where
  buffer : List (BitVec 64)
  length_eq : buffer.length = 4

def bitmap256_reset : bitmap256_t := ⟨List.replicate 4 0, rfl⟩

/-- `1 << m` where `1` is an `int`: the shift count is taken modulo 32, as x86 does, and the
result is sign-extended when it meets a `uint64_t`. -/
def bitmap256_bit (m : Nat) : BitVec 64 := (1#32 <<< (m % 32)).signExtend 64

def bitmap256_set (bitmap : bitmap256_t) (key : Nat) : bitmap256_t :=
  let n := key / 64
  let m := key % 64
  ⟨bitmap.buffer.set n (bitmap.buffer.getD n 0 ||| bitmap256_bit m),
    by rw [List.length_set, bitmap.length_eq]⟩

def bitmap256_isset (bitmap : bitmap256_t) (key : Nat) : Bool :=
  let n := key / 64
  let m := key % 64
  bitmap.buffer.getD n 0 &&& bitmap256_bit m != 0

/-! ## The contexts -/

structure rs_ec_t where
  count : Nat
  checks : List (List Nat)

structure rs_dc_t where
  count : Nat
  mask : bitmap256_t
  syndromes : List (List Nat)
  erasure_degrees : List Nat
  erasure_num : Nat
  raw_erasure_num : Nat

structure rs_t where
  N : Nat
  K : Nat
  max_data_size : Nat
  rscode : rscode_t

def T_SIZE (rs : rs_t) : Nat := rs.N - rs.K

def rs_init (N K max_data_size : Nat) : rs_t :=
  { N, K, max_data_size, rscode := rscode_init (RS_GALOIS_ORDER - 1 - (N - K)) galois256_init }

/-- `none` is the failed `ensure`. -/
def rs_is_ec_complete (rs : rs_t) (ec : rs_ec_t) : Option Bool :=
  if ec.count ≤ rs.K then some (ec.count == rs.K) else none

def rs_is_dc_complete (rs : rs_t) (dc : rs_dc_t) : Option Bool :=
  if dc.count ≤ rs.K then some (dc.count == rs.K) else none

/-- One row of `T` zeros for each byte of the largest payload. -/
def zero_rows (rs : rs_t) : List (List Nat) :=
  List.replicate (RS_MAX_ENCODED_SIZE rs.max_data_size) (List.replicate (T_SIZE rs) 0)

def rs_reset_ec (rs : rs_t) (ec : rs_ec_t) : rs_ec_t :=
  { ec with count := 0, checks := zero_rows rs }

def rs_reset_dc (rs : rs_t) (dc : rs_dc_t) : rs_dc_t :=
  { dc with
    count := 0
    mask := bitmap256_reset
    syndromes := zero_rows rs
    erasure_degrees := List.replicate (T_SIZE rs) 0
    erasure_num := 0
    raw_erasure_num := 0 }

/-! ## Encoding -/

/-- A loop that feeds bytes to the rows, one byte a row, from row `i` on. -/
def feed_rows (step : Nat → List Nat → List Nat) : List Nat → Nat → List (List Nat) →
    List (List Nat)
  | [], _, rows => rows
  | b :: bytes, i, rows => feed_rows step bytes (i + 1) (rows.modify i (step b))

/-- The bytes of the size, lowest first. -/
def size_header (size : Nat) : List Nat :=
  (List.range RS_HEADER_SIZE).map fun i => 0xff &&& (size >>> (i * 8))

/-- What `build_redundant` keeps of a column: all but the zeros at its end. The second number
counts the zeros that no other byte follows. -/
def trailing_turn (t : Nat × Nat) (b : UInt8) : Nat × Nat :=
  let (valid_size, trailing_zero) := t
  if b = 0 then (valid_size, trailing_zero + 1) else (valid_size + 1 + trailing_zero, 0)

def build_redundant (from_rows : List (List Nat)) (j : Nat) : List UInt8 × Nat :=
  let column := from_rows.map fun row => UInt8.ofNat (row.getD j 0)
  (column, (column.foldl trailing_turn (0, 0)).1)

/-- The context and either the error or the return value with the degree. -/
def rs_encode (rs : rs_t) (ec : rs_ec_t) (input : List UInt8) :
    Option (rs_ec_t × Except rs_error (Nat × Nat)) :=
  let size := input.length
  if size > rs.max_data_size then some (ec, .error .E_RS_INVALID_SIZE)
  else
    let degree := rs.N - 1 - ec.count
    let encode := rscode_encode rs.rscode
    -- Encode size info.
    let checks := feed_rows encode (size_header size) 0 ec.checks
    -- Encode data.
    let checks := feed_rows encode (input.map UInt8.toNat) RS_HEADER_SIZE checks
    -- Encode padding zeros.
    let checks := feed_rows encode (List.replicate (rs.max_data_size - size) 0)
      (RS_HEADER_SIZE + size) checks
    let ec := { ec with checks, count := ec.count + 1 }
    match rs_is_ec_complete rs ec with
    | none => none
    | some complete => some (ec, .ok (if complete then T_SIZE rs else 0, degree))

/-- The payload, as much of the buffer as `size` covers, and its degree. -/
def rs_encode_result (rs : rs_t) (ec : rs_ec_t) (index size : Nat) :
    Except rs_error (List UInt8 × Nat) :=
  let T := T_SIZE rs
  if index ≥ T then .error .E_RS_INVALID_INDEX
  else if size < RS_MAX_ENCODED_SIZE rs.max_data_size then .error .E_RS_INVALID_SIZE
  else
    let (buffer, s) := build_redundant ec.checks index
    .ok (buffer.take s, T - 1 - index)

/-! ## Decoding -/

def IS_RAW (rs : rs_t) (degree : Nat) : Bool := T_SIZE rs ≤ degree

/-- A loop that lists the degrees that are not set in the mask. -/
def erasure_turn (mask : bitmap256_t) (t : List Nat × Nat) (i : Nat) : List Nat × Nat :=
  let (erasure_degrees, erasure_num) := t
  if bitmap256_isset mask i then (erasure_degrees, erasure_num)
  else (erasure_degrees.set erasure_num i, erasure_num + 1)

/-- The last part of `rs_decode`, for a complete context: the context with its erasures and
the return value. -/
def build_erasures (rs : rs_t) (dc : rs_dc_t) : rs_dc_t × Nat :=
  let T := T_SIZE rs
  let (erasure_degrees, raw_erasure_num) := (List.range' T (rs.N - T)).reverse.foldl
    (erasure_turn dc.mask) (dc.erasure_degrees, 0)
  if raw_erasure_num = 0 then
    ({ dc with erasure_degrees, raw_erasure_num, erasure_num := 0 }, 0)
  else
    let (erasure_degrees, erasure_num) := (List.range T).reverse.foldl
      (erasure_turn dc.mask) (erasure_degrees, raw_erasure_num)
    ({ dc with erasure_degrees, raw_erasure_num, erasure_num }, raw_erasure_num)

/-- The context and either the error or the return value with `is_raw`. -/
def rs_decode (rs : rs_t) (dc : rs_dc_t) (input : List UInt8) (degree : Int) :
    Option (rs_dc_t × Except rs_error (Nat × Bool)) :=
  if degree < 0 ∨ degree ≥ rs.N then some (dc, .error .E_RS_INVALID_DEGREE)
  else
    let degree := degree.toNat
    let size := input.length
    let is_raw := IS_RAW rs degree
    let allowed_size := if is_raw then rs.max_data_size else rs.max_data_size + RS_HEADER_SIZE
    if size > allowed_size then some (dc, .error .E_RS_INVALID_SIZE)
    else if bitmap256_isset dc.mask degree then some (dc, .error .E_RS_DUPLICATE)
    else
      let decode := fun b => rscode_decode_syndromes rs.rscode b degree
      -- Decode size info.
      let syndromes := if is_raw then feed_rows decode (size_header size) 0 dc.syndromes
        else dc.syndromes
      let offset := if is_raw then RS_HEADER_SIZE else 0
      -- Decode data.
      let syndromes := feed_rows decode (input.map UInt8.toNat) offset syndromes
      let dc := { dc with syndromes, count := dc.count + 1, mask := bitmap256_set dc.mask degree }
      match rs_is_dc_complete rs dc with
      | none => none
      | some false => some (dc, .ok (0, is_raw))
      | some true =>
        let (dc, n) := build_erasures rs dc
        some (dc, .ok (n, is_raw))

/-- The symbol of one column at one of the erased degrees; `none` is a division by zero. -/
def decode_column (rs : rs_t) (dc : rs_dc_t) (column index : Nat) : Option Nat :=
  rscode_decode_erasure rs.rscode (dc.syndromes.getD column []) dc.erasure_degrees dc.erasure_num
    index

/-- The header of a restored message, put together in an `int`. -/
def decode_size (rs : rs_t) (dc : rs_dc_t) (index : Nat) : Option Int := do
  let decoded_size ← (List.range RS_HEADER_SIZE).foldlM (fun (decoded_size : BitVec 32) i => do
    let s ← decode_column rs dc i index
    return decoded_size ||| (BitVec.ofNat 32 s <<< (i * 8))) 0
  return decoded_size.toInt

/-- The bytes written to the buffer, their number as the code returns it, which may be
negative, and the degree. -/
def rs_decode_result (rs : rs_t) (dc : rs_dc_t) (index size : Nat) :
    Option (Except rs_error (List UInt8 × Int × Nat)) :=
  if index ≥ dc.raw_erasure_num then some (.error .E_RS_INVALID_INDEX)
  else if size < rs.max_data_size then some (.error .E_RS_INVALID_SIZE)
  else do
    let decoded_size ← decode_size rs dc index
    if decoded_size > rs.max_data_size then return .error .E_RS_INVALID_HEADER
    else
      let buffer ← (List.range decoded_size.toNat).mapM fun i => do
        let s ← decode_column rs dc (i + RS_HEADER_SIZE) index
        return UInt8.ofNat s
      return .ok (buffer, decoded_size, dc.erasure_degrees.getD index 0)

end nettle.rs
