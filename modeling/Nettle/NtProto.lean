-- The two headers of the tunnel API (nt_proto.c, nt_proto2.c) as they lie in
-- a packet, byte by byte. Addresses and ports are in network byte order
-- already and are copied as they are.
import Nettle.NtFec

open little_endian nettle.nt_fec

namespace nettle.nt_proto

/-! ## Version 1 -/

structure nt_api_header_t where
  tag : UInt8
  id_n : UInt32
  src_ip : UInt32
  src_port : UInt16
  dst_ip : UInt32
  dst_port : UInt16
  payload_size_n : UInt16
  deriving DecidableEq, Repr

def NT_API_TAG : UInt8 := 87

/-- The header in memory, 19 bytes. -/
def nt_api_header_bytes (header : nt_api_header_t) : List UInt8 :=
  header.tag :: (bytes 4 header.id_n.toNat ++ bytes 4 header.src_ip.toNat ++
    bytes 2 header.src_port.toNat ++ bytes 4 header.dst_ip.toNat ++
    bytes 2 header.dst_port.toNat ++ bytes 2 header.payload_size_n.toNat)

/-- The header at the front of a buffer. -/
def nt_api_header_at (buf : List UInt8) : nt_api_header_t where
  tag := buf.getD 0 0
  id_n := UInt32.ofNat (field 1 4 buf)
  src_ip := UInt32.ofNat (field 5 4 buf)
  src_port := UInt16.ofNat (field 9 2 buf)
  dst_ip := UInt32.ofNat (field 11 4 buf)
  dst_port := UInt16.ofNat (field 15 2 buf)
  payload_size_n := UInt16.ofNat (field 17 2 buf)

def nt_api_header_init (id src_ip : UInt32) (src_port : UInt16) (dst_ip : UInt32)
    (dst_port payload_size : UInt16) : nt_api_header_t where
  tag := NT_API_TAG
  id_n := htonl id
  src_ip
  src_port
  dst_ip
  dst_port
  payload_size_n := htons payload_size

def nt_api_header_is_valid (buf : List UInt8) : Bool := (nt_api_header_at buf).tag == NT_API_TAG

def nt_api_header_id (header : nt_api_header_t) : UInt32 := ntohl header.id_n

def nt_api_header_payload_size (header : nt_api_header_t) : UInt16 := ntohs header.payload_size_n

def nt_api_message_size (header : nt_api_header_t) : Nat :=
  19 + (nt_api_header_payload_size header).toNat

def nt_api_message_payload (buf : List UInt8) : List UInt8 := buf.drop 19

/-! ## Version 2 -/

structure nt_api2_header_t where
  tag : UInt8
  id_n : UInt32
  src_ip : UInt32
  src_port : UInt16
  dst_ip : UInt32
  dst_port : UInt16
  encrypt_type : UInt8
  ttl : UInt8
  payload_size_n : UInt16
  reserved : Vector UInt8 7
  deriving DecidableEq, Repr

def NT_API2_TAG : UInt8 := 89

/-- The values of `nt_encrypt_type_t`. -/
def NT_ENCRYPT_TYPE_NONE : UInt8 := 0

def NT_ENCRYPT_TYPE_KC : UInt8 := 1

def NT_ENCRYPT_TYPE_NUM : UInt8 := 2

/-- The header in memory, 28 bytes. -/
def nt_api2_header_bytes (header : nt_api2_header_t) : List UInt8 :=
  header.tag :: (bytes 4 header.id_n.toNat ++ bytes 4 header.src_ip.toNat ++
    bytes 2 header.src_port.toNat ++ bytes 4 header.dst_ip.toNat ++
    bytes 2 header.dst_port.toNat ++ header.encrypt_type :: header.ttl ::
    bytes 2 header.payload_size_n.toNat ++ header.reserved.toList)

/-- The header at the front of a buffer. -/
def nt_api2_header_at (buf : List UInt8) : nt_api2_header_t where
  tag := buf.getD 0 0
  id_n := UInt32.ofNat (field 1 4 buf)
  src_ip := UInt32.ofNat (field 5 4 buf)
  src_port := UInt16.ofNat (field 9 2 buf)
  dst_ip := UInt32.ofNat (field 11 4 buf)
  dst_port := UInt16.ofNat (field 15 2 buf)
  encrypt_type := buf.getD 17 0
  ttl := buf.getD 18 0
  payload_size_n := UInt16.ofNat (field 19 2 buf)
  reserved := Vector.ofFn fun i => buf.getD (21 + i) 0

def nt_api2_header_init (id src_ip : UInt32) (src_port : UInt16) (dst_ip : UInt32)
    (dst_port : UInt16) (encrypt_type ttl : UInt8) (payload_size : UInt16) : nt_api2_header_t where
  tag := NT_API2_TAG
  id_n := htonl id
  src_ip
  src_port
  dst_ip
  dst_port
  encrypt_type
  ttl
  payload_size_n := htons payload_size
  reserved := Vector.replicate 7 0

def nt_api2_header_is_valid (buf : List UInt8) : Bool :=
  let h := nt_api2_header_at buf
  h.tag == NT_API2_TAG && h.encrypt_type ≥ NT_ENCRYPT_TYPE_NONE &&
    h.encrypt_type < NT_ENCRYPT_TYPE_NUM

def nt_api2_header_payload_size (header : nt_api2_header_t) : UInt16 := ntohs header.payload_size_n

def nt_api2_header_set_payload_size (header : nt_api2_header_t) (payload_size : UInt16) :
    nt_api2_header_t :=
  { header with payload_size_n := htons payload_size }

def nt_api2_message_size (header : nt_api2_header_t) : Nat :=
  28 + (nt_api2_header_payload_size header).toNat

def nt_api2_message_payload (buf : List UInt8) : List UInt8 := buf.drop 28

/-- What version 1 has no field for is dropped. -/
def nt_api_header_from (api2 : nt_api2_header_t) : nt_api_header_t where
  tag := NT_API_TAG
  id_n := api2.id_n
  src_ip := api2.src_ip
  src_port := api2.src_port
  dst_ip := api2.dst_ip
  dst_port := api2.dst_port
  payload_size_n := api2.payload_size_n

/-! ## Round trips -/

@[simp] theorem length_nt_api_header_bytes (header : nt_api_header_t) :
    (nt_api_header_bytes header).length = 19 := by
  simp [nt_api_header_bytes]

@[simp] theorem length_nt_api2_header_bytes (header : nt_api2_header_t) :
    (nt_api2_header_bytes header).length = 28 := by
  simp [nt_api2_header_bytes]

section

variable (word : UInt32) (half : UInt16)

theorem word_bytes : UInt32.ofNat (number (bytes 4 word.toNat)) = word := by
  rw [number_bytes word.toNat_lt, UInt32.ofNat_toNat]

theorem half_bytes : UInt16.ofNat (number (bytes 2 half.toNat)) = half := by
  rw [number_bytes half.toNat_lt, UInt16.ofNat_toNat]

end

@[simp] theorem nt_api_header_at_bytes (header : nt_api_header_t) (rest : List UInt8) :
    nt_api_header_at (nt_api_header_bytes header ++ rest) = header := by
  obtain ⟨tag, id_n, src_ip, src_port, dst_ip, dst_port, payload_size_n⟩ := header
  exact (nt_api_header_t.mk.injEq ..).mpr ⟨rfl, word_bytes id_n, word_bytes src_ip,
    half_bytes src_port, word_bytes dst_ip, half_bytes dst_port, half_bytes payload_size_n⟩

@[simp] theorem nt_api2_header_at_bytes (header : nt_api2_header_t) (rest : List UInt8) :
    nt_api2_header_at (nt_api2_header_bytes header ++ rest) = header := by
  obtain ⟨tag, id_n, src_ip, src_port, dst_ip, dst_port, encrypt_type, ttl, payload_size_n,
    reserved⟩ := header
  refine (nt_api2_header_t.mk.injEq ..).mpr ⟨rfl, word_bytes id_n, word_bytes src_ip,
    half_bytes src_port, word_bytes dst_ip, half_bytes dst_port, rfl, rfl,
    half_bytes payload_size_n, ?_⟩
  refine Vector.ext fun i hi => ?_
  rw [Vector.getElem_ofFn, Nat.add_comm]
  change (reserved.toList ++ rest).getD i 0 = reserved[i]
  rw [List.getD_append _ _ _ _ (by rwa [Vector.length_toList]),
    List.getD_eq_getElem _ _ (by rwa [Vector.length_toList]), Vector.getElem_toList]

end nettle.nt_proto
