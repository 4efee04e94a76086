-- The processor of a tunnel (nt_fec_processor.c): its encoder takes messages of
-- the API and sends packets into the tunnel, its decoder takes messages out of
-- the tunnel and sends them on. `none` is a failed `ensure`.
import Nettle.NtProto
import Nettle.Udp

open nettle.nt_fec nettle.nt_proto nettle.udp

namespace nettle.nt_processor

/-! ## The data -/

structure nt_path_t where
  src : address_t
  dst : address_t
  deriving DecidableEq, Repr

structure nt_distributor_t where
  paths : List nt_path_t
  seq2addr : List Int
  seq_num : Nat
  dup_num : Nat

/-- The path that it points at, by its index, or NULL. It gives `none` if it divides by zero or reads
outside the table. -/
def nt_distributor_select (distributor : nt_distributor_t) (seq dup : Nat) : Option (Option Nat) :=
  if dup ≥ distributor.dup_num then some none
  else if distributor.seq_num = 0 then none
  else do
    let n ← distributor.seq2addr[(seq % distributor.seq_num) * distributor.dup_num + dup]?
    return if n < 0 then none else some n.toNat

/-- The key center, whose two functions can fail. -/
structure ka_encryptor_t where
  encrypt : List UInt8 → Option (List UInt8)
  decrypt : List UInt8 → Option (List UInt8)

/-- A processor with the FEC `φ`. -/
structure nt_fec_processor_t (φ : Type) where
  distributor : nt_distributor_t
  api_udp : udp_t
  tun_udp : udp_t
  fec : φ
  encryptor : Option ka_encryptor_t
  perf : perf_t

/-! ## Into the tunnel -/

/-- What `on_encode` changes, nothing left of it after a failed `ensure` or a trap. -/
abbrev tun_state := Option (udp_t × perf_t)

/-- The loop over the paths of a packet, at most `rest` of them from `i` on. -/
def on_encode_loop (distributor : nt_distributor_t) (header : nt_fec_header_t)
    (payload : List UInt8) : Nat → Nat → udp_t → perf_t → tun_state
  | 0, _, tun_udp, perf => some (tun_udp, perf)
  | rest + 1, i, tun_udp, perf => do
    match ← nt_distributor_select distributor header.block_index.toNat i with
    | none => return (tun_udp, perf)
    | some n =>
      let path ← distributor.paths[n]?
      match udp_send_v tun_udp [nt_fec_header_bytes header, payload] (some path.src) path.dst with
      | (.ok sent, tun_udp) =>
        if sent = nt_fec_message_size header then
          on_encode_loop distributor header payload rest (i + 1) tun_udp
            (perf_inc (perf_inc perf .COUNTER_TUN_SENT 1) .COUNTER_TUN_SENT_BYTES sent)
        else none
      | (.error _, tun_udp) =>
        on_encode_loop distributor header payload rest (i + 1) tun_udp
          (perf_inc perf .COUNTER_TUN_SEND_ERROR 1)

def on_encode (distributor : nt_distributor_t) (extra : tun_state) (header : nt_fec_header_t)
    (payload : List UInt8) : error_t × tun_state :=
  (0, extra.bind fun (tun_udp, perf) =>
    on_encode_loop distributor header payload distributor.dup_num 0 tun_udp perf)

/-- The encoder behind `nt_fec_encode`. -/
abbrev nt_fec_encode_t (φ : Type) :=
  φ → List UInt8 → tun_state → (tun_state → nt_fec_header_t → List UInt8 → error_t × tun_state) →
    Option (error_t × φ × tun_state)

variable {φ : Type}

/-- The call of `nt_fec_encode` within `ensure`. -/
def ensure_encode (nt_fec_encode : nt_fec_encode_t φ) (processor : nt_fec_processor_t φ)
    (input : List UInt8) : Option (nt_fec_processor_t φ) := do
  let (err, fec, extra) ← nt_fec_encode processor.fec input
    (some (processor.tun_udp, processor.perf)) (on_encode processor.distributor)
  let (tun_udp, perf) ← extra
  if err = 0 then return { processor with fec, tun_udp, perf } else none

def encoder_on_message (nt_fec_encode : nt_fec_encode_t φ) (processor : nt_fec_processor_t φ)
    (message : List UInt8) : Option (nt_fec_processor_t φ) :=
  if nt_api_header_is_valid message then
    ensure_encode nt_fec_encode processor
      (message.take (nt_api_message_size (nt_api_header_at message)))
  else if nt_api2_header_is_valid message then
    let header := nt_api2_header_at message
    if header.encrypt_type = NT_ENCRYPT_TYPE_NONE then
      ensure_encode nt_fec_encode processor (message.take (nt_api2_message_size header))
    else if header.encrypt_type = NT_ENCRYPT_TYPE_KC then
      let payload := (nt_api2_message_payload message).take
        (nt_api2_header_payload_size header).toNat
      match processor.encryptor.bind fun encryptor => encryptor.encrypt payload with
      | none => some { processor with perf := perf_inc processor.perf .COUNTER_ENCRYPT_ERROR 1 }
      | some encrypted =>
        let header := nt_api2_header_set_payload_size header (UInt16.ofNat encrypted.length)
        let buf := nt_api2_header_bytes header ++ encrypted
        ensure_encode nt_fec_encode processor (buf.take (nt_api2_message_size header))
    else none -- Should not happen because the header is valid.
  else none -- Should not happen and be handled by upstreams (the listener).

/-! ## Out of the tunnel -/

/-- The value of a call that sent a message on, and the counters after it. -/
def api_sent (processor : nt_fec_processor_t φ) (result : Except error_t Nat × udp_t)
    (size : Nat) : Option (error_t × nt_fec_processor_t φ) :=
  let processor := { processor with api_udp := result.2 }
  match result.1 with
  | .ok sent =>
    if sent = size then
      some (0, { processor with perf := perf_inc (perf_inc (perf_inc processor.perf
        .COUNTER_API_SENT_V1 1) .COUNTER_API_SENT 1) .COUNTER_API_SENT_BYTES sent })
    else none
  | .error _ => some (0, { processor with perf := perf_inc processor.perf .COUNTER_API_SEND_ERROR 1 })

def on_decode (processor : nt_fec_processor_t φ) (decoded : List UInt8) :
    Option (error_t × nt_fec_processor_t φ) :=
  let count (name : counter) : Option (error_t × nt_fec_processor_t φ) :=
    some (0, { processor with perf := perf_inc processor.perf name 1 })
  if nt_api_header_is_valid decoded then
    let header := nt_api_header_at decoded
    if decoded.length ≠ nt_api_message_size header then count .COUNTER_CORRUPT_DECODED_DATA
    else
      let dst := address_init4 header.dst_ip header.dst_port
      api_sent processor (udp_sendto processor.api_udp decoded dst) decoded.length
  else if nt_api2_header_is_valid decoded then
    let header := nt_api2_header_at decoded
    if decoded.length ≠ nt_api2_message_size header then count .COUNTER_CORRUPT_DECODED_DATA
    else if header.ttl ≤ 0 then count .COUNTER_TTL_EXCEEDED
    else
      let header := { header with ttl := header.ttl - 1 }
      let payload := (nt_api2_message_payload decoded).take
        (nt_api2_header_payload_size header).toNat
      let send (header : nt_api2_header_t) (payload : List UInt8) :=
        let dst := address_init4 header.dst_ip header.dst_port
        let header1 := nt_api_header_from header
        api_sent processor (udp_send_v processor.api_udp [nt_api_header_bytes header1,
          payload.take (nt_api2_header_payload_size header).toNat] none dst)
          (nt_api_message_size header1)
      if header.encrypt_type = NT_ENCRYPT_TYPE_NONE then send header payload
      else if header.encrypt_type = NT_ENCRYPT_TYPE_KC then
        match processor.encryptor.bind fun encryptor => encryptor.decrypt payload with
        | none => count .COUNTER_DECRYPT_ERROR
        | some decrypted =>
          send (nt_api2_header_set_payload_size header (UInt16.ofNat decrypted.length)) decrypted
      else none -- Should not happen because the header is valid.
  else count .COUNTER_CORRUPT_DECODED_DATA

end nettle.nt_processor
