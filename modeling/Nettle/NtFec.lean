-- The header of a tunnel packet (nt_fec.h), with its fields in network byte
-- order, the error numbers of nt_error.h and the counters of nt_perf.def
-- that the modelled functions count in.
import Nettle.LittleEndian

open little_endian

namespace nettle.nt_fec

/-! ## Byte order -/

/-- On a little-endian host `htonl` and `ntohl` turn the bytes of a word around. -/
def htonl (x : UInt32) : UInt32 := UInt32.ofNat (swap 4 x.toNat)

def ntohl (x : UInt32) : UInt32 := htonl x

def htons (x : UInt16) : UInt16 := UInt16.ofNat (swap 2 x.toNat)

def ntohs (x : UInt16) : UInt16 := htons x

@[simp] theorem ntohl_htonl (x : UInt32) : ntohl (htonl x) = x := by
  unfold ntohl htonl
  rw [UInt32.toNat_ofNat_of_lt' (swap_lt 4 _), swap_swap x.toNat_lt, UInt32.ofNat_toNat]

@[simp] theorem ntohs_htons (x : UInt16) : ntohs (htons x) = x := by
  unfold ntohs htons
  rw [UInt16.toNat_ofNat_of_lt' (swap_lt 2 _), swap_swap x.toNat_lt, UInt16.ofNat_toNat]

/-! ## Errors -/

abbrev error_t := Int

def EINVAL : error_t := 22

def ELAST : error_t := 100000

def E_FEC_INTERNAL_ERROR : error_t := ELAST + 1

def E_FEC_INVALID_HEADER : error_t := ELAST + 2

def E_FEC_DECODER_BUFFER_FULL : error_t := ELAST + 3

def E_API_INVALID_HEADER : error_t := ELAST + 4

/-! ## Counters -/

inductive counter where
  | COUNTER_API_SENT
  | COUNTER_TUN_SENT
  | COUNTER_API_RECEIVED
  | COUNTER_TUN_RECEIVED
  | COUNTER_API_SENT_BYTES
  | COUNTER_TUN_SENT_BYTES
  | COUNTER_API_RECEIVED_BYTES
  | COUNTER_TUN_RECEIVED_BYTES
  | COUNTER_API_SEND_ERROR
  | COUNTER_TUN_SEND_ERROR
  | COUNTER_API_RECEIVE_ERROR
  | COUNTER_TUN_RECEIVE_ERROR
  | COUNTER_ENCRYPT_ERROR
  | COUNTER_DECRYPT_ERROR
  | COUNTER_API_SENT_V1
  | COUNTER_API_RECEIVED_V1
  | COUNTER_TTL_EXCEEDED
  | COUNTER_CORRUPT_DECODED_DATA
  | COUNTER_ENCODER_BUSY
  | COUNTER_DECODER_BUSY
  | COUNTER_DECODER_BLOCK_COUNT
  | COUNTER_DECODER_BLOCK_COMPLETE
  | COUNTER_DECODER_BLOCK_RESTORE
  | COUNTER_DECODER_BLOCK_EXPIRE
  | COUNTER_DECODER_RAW
  | COUNTER_DECODER_RESTORE
  deriving DecidableEq, Repr

/-- The counters, every one of them registered. -/
abbrev perf_t := counter → Nat

def perf_inc (perf : perf_t) (name : counter) (n : Nat) : perf_t :=
  Function.update perf name (perf name + n)

theorem perf_inc_apply (perf : perf_t) (name : counter) (n : Nat) (name' : counter) :
    perf_inc perf name n name' = if name' = name then perf name' + n else perf name' := by
  unfold perf_inc
  rw [Function.update_apply]
  split
  · next h => rw [h]
  · rfl

@[simp] theorem perf_inc_self (perf : perf_t) (name : counter) (n : Nat) :
    perf_inc perf name n name = perf name + n := Function.update_self ..

@[simp] theorem perf_inc_ne (perf : perf_t) {name name' : counter} (h : name' ≠ name) (n : Nat) :
    perf_inc perf name n name' = perf name' := Function.update_of_ne h ..

/-! ## The header -/

structure nt_fec_header_t where
  tag : UInt8
  N : UInt8
  K : UInt8
  block_id_n : UInt32
  block_index : UInt8
  payload_size_n : UInt16
  deriving DecidableEq, Repr

def NT_DUP_FEC_TAG : UInt8 := 49

def NT_RS_FEC_TAG : UInt8 := 69

def nt_fec_header_block_id (header : nt_fec_header_t) : UInt32 := ntohl header.block_id_n

def nt_fec_header_set_block_id (header : nt_fec_header_t) (block_id : UInt32) : nt_fec_header_t :=
  { header with block_id_n := htonl block_id }

def nt_fec_header_payload_size (header : nt_fec_header_t) : UInt16 := ntohs header.payload_size_n

/-- The header in memory, 10 bytes. -/
def nt_fec_header_bytes (header : nt_fec_header_t) : List UInt8 :=
  header.tag :: header.N :: header.K :: (bytes 4 header.block_id_n.toNat ++
    header.block_index :: bytes 2 header.payload_size_n.toNat)

/-- The header at the front of a buffer. -/
def nt_fec_header_at (buf : List UInt8) : nt_fec_header_t where
  tag := buf.getD 0 0
  N := buf.getD 1 0
  K := buf.getD 2 0
  block_id_n := UInt32.ofNat (field 3 4 buf)
  block_index := buf.getD 7 0
  payload_size_n := UInt16.ofNat (field 8 2 buf)

/-- The size of a header, which is packed, and its payload. -/
def nt_fec_message_size (header : nt_fec_header_t) : Nat :=
  10 + (nt_fec_header_payload_size header).toNat

def nt_fec_header_init (tag N K : UInt8) (block_id : UInt32) (block_index : UInt8)
    (payload_size : UInt16) : nt_fec_header_t :=
  { tag, N, K, block_id_n := htonl block_id, block_index, payload_size_n := htons payload_size }

@[simp] theorem length_nt_fec_header_bytes (header : nt_fec_header_t) :
    (nt_fec_header_bytes header).length = 10 := by
  simp [nt_fec_header_bytes]

@[simp] theorem block_id_init (tag N K : UInt8) (block_id : UInt32) (block_index : UInt8)
    (payload_size : UInt16) :
    nt_fec_header_block_id (nt_fec_header_init tag N K block_id block_index payload_size) =
      block_id := ntohl_htonl block_id

@[simp] theorem payload_size_init (tag N K : UInt8) (block_id : UInt32) (block_index : UInt8)
    (payload_size : UInt16) :
    nt_fec_header_payload_size (nt_fec_header_init tag N K block_id block_index payload_size) =
      payload_size := ntohs_htons payload_size

@[simp] theorem block_id_set (header : nt_fec_header_t) (block_id : UInt32) :
    nt_fec_header_block_id (nt_fec_header_set_block_id header block_id) = block_id :=
  ntohl_htonl block_id

end nettle.nt_fec
