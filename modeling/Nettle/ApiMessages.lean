-- One message of the API on its way through a tunnel: what the client sends,
-- the listener accepts, the encoder takes, the decoder sends on and the other
-- client gets.
import Nettle.NtClient
import Nettle.NtListener
import Nettle.NtProcessor

open nettle.nt_client nettle.nt_fec nettle.nt_listener nettle.nt_processor nettle.nt_proto nettle.udp

namespace nettle.nt_api

/-! ## Sending on -/

theorem api_sent_spec {φ : Type} {processor : nt_fec_processor_t φ} (hudp : Whole processor.api_udp)
    (udp : udp_t) (src : Option address_t) (dst : address_t) (datagram : List UInt8) :
    ∃ processor', api_sent processor (processor.api_udp.sendmsg src dst datagram, udp)
        datagram.length = some (0, processor') ∧ processor'.api_udp = udp := by
  unfold api_sent
  cases hsend : processor.api_udp.sendmsg src dst datagram with
  | error err => exact ⟨_, rfl, rfl⟩
  | ok n =>
    obtain ⟨rfl, -⟩ := hudp src dst datagram n hsend
    simp only [if_true]
    exact ⟨_, rfl, rfl⟩

/-- A socket that sends every datagram that is not too long. -/
def open_udp : udp_t where
  sendmsg _ _ datagram := if datagram.length ≤ UDP_MAX then .ok datagram.length else .error 90
  sent := []

theorem whole_open_udp : Whole open_udp := by
  intro src dst datagram n h
  simp only [open_udp] at h
  split at h
  · cases h
    exact ⟨rfl, ‹_›⟩
  · cases h

/-- A processor that sends nothing into its tunnel. -/
def idle_processor : nt_fec_processor_t (List (List UInt8)) where
  distributor := ⟨[], [], 1, 0⟩
  api_udp := open_udp
  tun_udp := open_udp
  fec := []
  encryptor := none
  perf := fun _ => 0

/-! ## Version 1 -/

/-- A message of version 1: its header says how long the payload is. -/
structure Message (header : nt_api_header_t) (payload : List UInt8) : Prop where
  tag : header.tag = NT_API_TAG
  size : (nt_api_header_payload_size header).toNat = payload.length

/-- The header with the sender written into it. -/
def stamped (src : address_t) (header : nt_api_header_t) : nt_api_header_t :=
  { header with src_ip := address_get_addr4 src, src_port := address_get_port src }

section

variable {header : nt_api_header_t} {payload : List UInt8}

theorem Message.stamped (h : Message header payload) (src : address_t) :
    Message (stamped src header) payload := ⟨h.tag, h.size⟩

theorem Message.message_size (h : Message header payload) :
    nt_api_message_size header = 19 + payload.length := by
  rw [nt_api_message_size, h.size]

theorem Message.is_valid (h : Message header payload) (rest : List UInt8) :
    nt_api_header_is_valid (nt_api_header_bytes header ++ rest) = true := by
  rw [nt_api_header_is_valid, nt_api_header_at_bytes, h.tag, beq_self_eq_true]

theorem message_init (id src_ip dst_ip : UInt32) (src_port dst_port : UInt16)
    (payload : List UInt8) (h : payload.length < 2 ^ 16) :
    Message (nt_api_header_init id src_ip src_port dst_ip dst_port (UInt16.ofNat payload.length))
      payload := by
  refine ⟨rfl, ?_⟩
  rw [nt_api_header_payload_size, nt_api_header_init, ntohs_htons, UInt16.toNat_ofNat_of_lt' h]

theorem accept_message (h : Message header payload) (src : address_t)
    (hsrc : address_get_addr4 src ≠ 0) (rest : List UInt8) :
    api_accept (nt_api_header_bytes header ++ (payload ++ rest)) src (19 + payload.length) =
      some (true, nt_api_header_bytes (stamped src header) ++ (payload ++ rest)) := by
  unfold api_accept
  rw [if_neg hsrc, if_pos (h.is_valid _)]
  simp only [nt_api_header_at_bytes, h.message_size, ne_eq, not_true_eq_false, if_false,
    nt_api_message_payload]
  rw [List.drop_left' (length_nt_api_header_bytes header)]
  rfl

theorem encode_message {φ : Type} (h : Message header payload) (nt_fec_encode : nt_fec_encode_t φ)
    (processor : nt_fec_processor_t φ) (rest : List UInt8) :
    encoder_on_message nt_fec_encode processor
        (nt_api_header_bytes header ++ (payload ++ rest)) =
      ensure_encode nt_fec_encode processor (nt_api_header_bytes header ++ payload) := by
  unfold encoder_on_message
  rw [if_pos (h.is_valid _), nt_api_header_at_bytes, h.message_size, ← List.append_assoc,
    List.take_left' (by simp)]

theorem decode_message {φ : Type} (h : Message header payload) (processor : nt_fec_processor_t φ)
    (hudp : Whole processor.api_udp) :
    ∃ processor', on_decode processor (nt_api_header_bytes header ++ payload) =
        some (0, processor') ∧
      processor'.api_udp.sent = processor.api_udp.sent ++
        [(.addr_in header.dst_ip header.dst_port, nt_api_header_bytes header ++ payload)] := by
  obtain ⟨processor', hsent, hafter⟩ := api_sent_spec hudp
    (udp_sendto processor.api_udp (nt_api_header_bytes header ++ payload)
      (.addr_in header.dst_ip header.dst_port)).2 none (.addr_in header.dst_ip header.dst_port)
    (nt_api_header_bytes header ++ payload)
  refine ⟨processor', ?_, by rw [hafter]; rfl⟩
  rw [List.length_append, length_nt_api_header_bytes] at hsent
  unfold on_decode
  rw [if_pos (h.is_valid _)]
  simp only [nt_api_header_at_bytes, h.message_size, List.length_append,
    length_nt_api_header_bytes, ne_eq, not_true_eq_false, if_false]
  exact hsent

end

/-! ## Version 2 -/

/-- A message of version 2: its header says how long the payload is and how it is encrypted. -/
structure Message2 (header : nt_api2_header_t) (payload : List UInt8) : Prop where
  tag : header.tag = NT_API2_TAG
  encrypt_type : header.encrypt_type < NT_ENCRYPT_TYPE_NUM
  size : (nt_api2_header_payload_size header).toNat = payload.length

def stamped2 (src : address_t) (header : nt_api2_header_t) : nt_api2_header_t :=
  { header with src_ip := address_get_addr4 src, src_port := address_get_port src }

section

variable {header : nt_api2_header_t} {payload : List UInt8}

theorem Message2.stamped2 (h : Message2 header payload) (src : address_t) :
    Message2 (stamped2 src header) payload := ⟨h.tag, h.encrypt_type, h.size⟩

theorem Message2.sent_on (h : Message2 header payload) :
    Message (nt_api_header_from header) payload := ⟨rfl, h.size⟩

theorem Message2.message_size (h : Message2 header payload) :
    nt_api2_message_size header = 28 + payload.length := by
  rw [nt_api2_message_size, h.size]

theorem api2_is_valid (htag : header.tag = NT_API2_TAG)
    (htype : header.encrypt_type < NT_ENCRYPT_TYPE_NUM) (rest : List UInt8) :
    nt_api2_header_is_valid (nt_api2_header_bytes header ++ rest) = true := by
  simp only [nt_api2_header_is_valid, nt_api2_header_at_bytes, htag, beq_self_eq_true,
    Bool.true_and, Bool.and_eq_true, decide_eq_true_eq]
  exact ⟨UInt8.zero_le, htype⟩

theorem Message2.is_valid (h : Message2 header payload) (rest : List UInt8) :
    nt_api2_header_is_valid (nt_api2_header_bytes header ++ rest) = true :=
  api2_is_valid h.tag h.encrypt_type rest

/-- A message that is not plain is for the key center. -/
theorem for_key_center {encrypt_type : UInt8} (htype : encrypt_type < NT_ENCRYPT_TYPE_NUM)
    (hplain : encrypt_type ≠ NT_ENCRYPT_TYPE_NONE) : encrypt_type = NT_ENCRYPT_TYPE_KC := by
  have hlt := UInt8.lt_iff_toNat_lt.mp htype
  have hpos : encrypt_type.toNat ≠ 0 := fun hzero => hplain (UInt8.toNat_inj.mp hzero)
  rw [← UInt8.toNat_inj]
  simp only [NT_ENCRYPT_TYPE_NUM, NT_ENCRYPT_TYPE_KC, UInt8.toNat_ofNat] at hlt ⊢
  omega

theorem api2_not_valid (htag : header.tag = NT_API2_TAG) (rest : List UInt8) :
    ¬nt_api_header_is_valid (nt_api2_header_bytes header ++ rest) = true := by
  have htag' : (nt_api_header_at (nt_api2_header_bytes header ++ rest)).tag = NT_API2_TAG := htag
  rw [nt_api_header_is_valid, htag']
  decide

theorem Message2.not_valid (h : Message2 header payload) (rest : List UInt8) :
    ¬nt_api_header_is_valid (nt_api2_header_bytes header ++ rest) = true :=
  api2_not_valid h.tag rest

theorem message2_init (id src_ip dst_ip : UInt32) (src_port dst_port : UInt16) (ttl : UInt8)
    (payload : List UInt8) (h : payload.length < 2 ^ 16) :
    Message2 (nt_api2_header_init id src_ip src_port dst_ip dst_port NT_ENCRYPT_TYPE_NONE ttl
      (UInt16.ofNat payload.length)) payload := by
  refine ⟨rfl, show NT_ENCRYPT_TYPE_NONE < NT_ENCRYPT_TYPE_NUM by decide, ?_⟩
  rw [nt_api2_header_payload_size, nt_api2_header_init, ntohs_htons, UInt16.toNat_ofNat_of_lt' h]

theorem accept_message2 (h : Message2 header payload) (src : address_t)
    (hsrc : address_get_addr4 src ≠ 0) (rest : List UInt8) :
    api_accept (nt_api2_header_bytes header ++ (payload ++ rest)) src (28 + payload.length) =
      some (false, nt_api2_header_bytes (stamped2 src header) ++ (payload ++ rest)) := by
  unfold api_accept
  rw [if_neg hsrc, if_neg (h.not_valid _), if_pos (h.is_valid _)]
  simp only [nt_api2_header_at_bytes, h.message_size, ne_eq, not_true_eq_false, if_false,
    nt_api2_message_payload]
  rw [List.drop_left' (length_nt_api2_header_bytes header)]
  rfl

theorem encode_message2 {φ : Type} (h : Message2 header payload)
    (hplain : header.encrypt_type = NT_ENCRYPT_TYPE_NONE) (nt_fec_encode : nt_fec_encode_t φ)
    (processor : nt_fec_processor_t φ) (rest : List UInt8) :
    encoder_on_message nt_fec_encode processor
        (nt_api2_header_bytes header ++ (payload ++ rest)) =
      ensure_encode nt_fec_encode processor (nt_api2_header_bytes header ++ payload) := by
  unfold encoder_on_message
  rw [if_neg (h.not_valid _), if_pos (h.is_valid _)]
  simp only [nt_api2_header_at_bytes, hplain, if_true, h.message_size]
  rw [← List.append_assoc, List.take_left' (by simp)]

theorem encode_message2_encrypted {φ : Type} (h : Message2 header payload)
    (hplain : header.encrypt_type ≠ NT_ENCRYPT_TYPE_NONE) (nt_fec_encode : nt_fec_encode_t φ)
    (processor : nt_fec_processor_t φ) (rest : List UInt8) :
    encoder_on_message nt_fec_encode processor
        (nt_api2_header_bytes header ++ (payload ++ rest)) =
      match processor.encryptor.bind fun encryptor => encryptor.encrypt payload with
      | none => some { processor with perf := perf_inc processor.perf .COUNTER_ENCRYPT_ERROR 1 }
      | some encrypted => ensure_encode nt_fec_encode processor
          (nt_api2_header_bytes (nt_api2_header_set_payload_size header
            (UInt16.ofNat encrypted.length)) ++
            encrypted.take (UInt16.ofNat encrypted.length).toNat) := by
  unfold encoder_on_message
  rw [if_neg (h.not_valid _), if_pos (h.is_valid _)]
  simp only [nt_api2_header_at_bytes, h.size, nt_api2_message_payload]
  rw [if_neg hplain, if_pos (for_key_center h.encrypt_type hplain),
    List.drop_left' (length_nt_api2_header_bytes header), List.take_left]
  cases processor.encryptor.bind fun encryptor => encryptor.encrypt payload with
  | none => rfl
  | some encrypted =>
    simp only
    rw [nt_api2_message_size, nt_api2_header_payload_size, nt_api2_header_set_payload_size,
      ntohs_htons, List.take_append, length_nt_api2_header_bytes,
      List.take_of_length_le (by simp), Nat.add_sub_cancel_left]

/-- What is sent on is of version 1. -/
theorem send_message2 {φ : Type} (hsize : (nt_api2_header_payload_size header).toNat = payload.length)
    {processor : nt_fec_processor_t φ} (hudp : Whole processor.api_udp) :
    ∃ processor', api_sent processor (udp_send_v processor.api_udp
          [nt_api_header_bytes (nt_api_header_from header),
            payload.take (nt_api2_header_payload_size header).toNat] none
          (address_init4 header.dst_ip header.dst_port))
        (nt_api_message_size (nt_api_header_from header)) = some (0, processor') ∧
      processor'.api_udp.sent = processor.api_udp.sent ++
        [(.addr_in header.dst_ip header.dst_port,
          nt_api_header_bytes (nt_api_header_from header) ++ payload)] := by
  have hsent := api_sent_spec hudp
    (udp_send_v processor.api_udp [nt_api_header_bytes (nt_api_header_from header), payload]
      none (.addr_in header.dst_ip header.dst_port)).2 none (.addr_in header.dst_ip header.dst_port)
    [nt_api_header_bytes (nt_api_header_from header), payload].flatten
  have hlen : [nt_api_header_bytes (nt_api_header_from header), payload].flatten.length =
      nt_api_message_size (nt_api_header_from header) := by
    have hmessage : Message (nt_api_header_from header) payload := ⟨rfl, hsize⟩
    rw [hmessage.message_size]
    simp
  rw [hlen] at hsent
  obtain ⟨processor', hsent, hafter⟩ := hsent
  rw [hsize, List.take_length]
  exact ⟨processor', hsent, by rw [hafter]; simp [udp_send_v]⟩

/-- The message that is sent on has no ttl. -/
theorem decode_message2 {φ : Type} (h : Message2 header payload)
    (hplain : header.encrypt_type = NT_ENCRYPT_TYPE_NONE) (httl : header.ttl ≠ 0)
    (processor : nt_fec_processor_t φ) (hudp : Whole processor.api_udp) :
    ∃ processor', on_decode processor (nt_api2_header_bytes header ++ payload) =
        some (0, processor') ∧
      processor'.api_udp.sent = processor.api_udp.sent ++
        [(.addr_in header.dst_ip header.dst_port,
          nt_api_header_bytes (nt_api_header_from header) ++ payload)] := by
  have halive : ¬header.ttl ≤ 0 := by rwa [UInt8.le_zero_iff]
  obtain ⟨processor', hsent, hafter⟩ := send_message2 h.size hudp
  refine ⟨processor', ?_, hafter⟩
  unfold on_decode
  rw [if_neg (h.not_valid _), if_pos (h.is_valid _)]
  simp only [nt_api2_header_at_bytes, h.message_size, List.length_append,
    length_nt_api2_header_bytes, ne_eq, not_true_eq_false, if_false, halive, hplain, if_true,
    nt_api2_message_payload]
  rw [List.drop_left' (length_nt_api2_header_bytes header)]
  change api_sent processor (udp_send_v processor.api_udp
    [nt_api_header_bytes (nt_api_header_from header),
      (payload.take (nt_api2_header_payload_size header).toNat).take
        (nt_api2_header_payload_size header).toNat] none _)
    (nt_api_message_size (nt_api_header_from header)) = _
  rw [List.take_take, Nat.min_self]
  exact hsent

theorem decode_message2_encrypted {φ : Type} (h : Message2 header payload)
    (hplain : header.encrypt_type ≠ NT_ENCRYPT_TYPE_NONE) (httl : header.ttl ≠ 0)
    (processor : nt_fec_processor_t φ) (hudp : Whole processor.api_udp) {decrypted : List UInt8}
    (hdecrypt : (processor.encryptor.bind fun encryptor => encryptor.decrypt payload) =
      some decrypted) (hlen : decrypted.length < 2 ^ 16) :
    ∃ processor', on_decode processor (nt_api2_header_bytes header ++ payload) =
        some (0, processor') ∧
      processor'.api_udp.sent = processor.api_udp.sent ++
        [(.addr_in header.dst_ip header.dst_port,
          nt_api_header_bytes (nt_api_header_from (nt_api2_header_set_payload_size header
            (UInt16.ofNat decrypted.length))) ++ decrypted)] := by
  have halive : ¬header.ttl ≤ 0 := by rwa [UInt8.le_zero_iff]
  have hsize : (nt_api2_header_payload_size (nt_api2_header_set_payload_size header
      (UInt16.ofNat decrypted.length))).toNat = decrypted.length := by
    rw [nt_api2_header_payload_size, nt_api2_header_set_payload_size, ntohs_htons,
      UInt16.toNat_ofNat_of_lt' hlen]
  obtain ⟨processor', hsent, hafter⟩ := send_message2 hsize hudp
  refine ⟨processor', ?_, hafter⟩
  have hpayload : payload.take (nt_api2_header_payload_size header).toNat = payload := by
    rw [h.size, List.take_length]
  unfold on_decode
  rw [if_neg (h.not_valid _), if_pos (h.is_valid _)]
  simp only [nt_api2_header_at_bytes, h.message_size, List.length_append,
    length_nt_api2_header_bytes, ne_eq, not_true_eq_false, if_false, halive,
    nt_api2_message_payload]
  rw [List.drop_left' (length_nt_api2_header_bytes header), if_neg hplain,
    if_pos (for_key_center h.encrypt_type hplain)]
  change (match processor.encryptor.bind fun encryptor => encryptor.decrypt
    (payload.take (nt_api2_header_payload_size header).toNat) with
    | none => _
    | some decrypted => _) = _
  rw [hpayload, hdecrypt]
  exact hsent

/-- A message whose ttl is used up is not sent on, whatever else it holds. -/
theorem decode_expired {φ : Type} {decoded : List UInt8}
    (hvalid : nt_api2_header_is_valid decoded = true) (httl : (nt_api2_header_at decoded).ttl = 0)
    (processor : nt_fec_processor_t φ) :
    ∃ perf, on_decode processor decoded = some (0, { processor with perf }) := by
  have htag : (nt_api_header_at decoded).tag = NT_API2_TAG := by
    simp only [nt_api2_header_is_valid, Bool.and_eq_true, beq_iff_eq] at hvalid
    exact hvalid.1.1
  have hother : ¬nt_api_header_is_valid decoded = true := by
    rw [nt_api_header_is_valid, htag]
    decide
  have hzero : (nt_api2_header_at decoded).ttl ≤ 0 := UInt8.le_zero_iff.mpr httl
  unfold on_decode
  rw [if_neg hother, if_pos hvalid]
  simp only [hzero, if_true]
  split
  · exact ⟨_, rfl⟩
  · exact ⟨_, rfl⟩

end

/-! ## The two ends -/

/-- A client with room for the payload gets the message. -/
theorem receive_message {header : nt_api_header_t} {payload : List UInt8}
    (h : Message header payload) (head buf : List UInt8) {len : Nat} (hlen : payload.length ≤ len)
    (tunnel_addr : address_t) :
    ∃ got, udp_recvfrom_tunnel head buf len
        (.ok (tunnel_addr, nt_api_header_bytes header ++ payload)) = .ok got ∧
      got.src_addr = .addr_in header.src_ip header.src_port ∧
      got.id = nt_api_header_id header ∧ got.tunnel_addr = tunnel_addr ∧
      got.received.toNat = payload.length ∧ got.buf.take payload.length = payload := by
  have hhead : (nt_api_header_bytes header ++ payload).take 19 = nt_api_header_bytes header :=
    List.take_left' (length_nt_api_header_bytes header)
  have htail : (nt_api_header_bytes header ++ payload).drop 19 = payload :=
    List.drop_left' (length_nt_api_header_bytes header)
  have hsize : min (19 + len) (nt_api_header_bytes header ++ payload).length =
      nt_api_message_size header := by
    rw [List.length_append, length_nt_api_header_bytes, h.message_size]
    omega
  unfold udp_recvfrom_tunnel
  simp only [udp_recv_v, udp_recvfrom, hhead, htail, hsize, nt_api_header_at_bytes, h.is_valid,
    not_true_eq_false, ne_eq, or_self, if_false]
  refine ⟨_, rfl, rfl, rfl, rfl, h.size, ?_⟩
  simp only
  rw [List.take_of_length_le hlen, List.take_left]

/-- A datagram that fits is read as it is. -/
theorem recvfrom_fits (buffer : List UInt8) {max_buffer_size : Nat} {datagram : List UInt8}
    (h : datagram.length ≤ max_buffer_size) :
    udp_recvfrom buffer max_buffer_size datagram =
      (datagram ++ buffer.drop datagram.length, datagram.length) := by
  rw [udp_recvfrom, Nat.min_eq_right h, List.take_of_length_le h]

/-- What is dispatched was accepted. -/
theorem handle_read_accepted {context : nt_fec_listener_context_t} {max_buffer_size index : Nat}
    {buffer : List UInt8} {src : address_t} {datagram message : List UInt8}
    (h : (nt_api_handle_read context max_buffer_size (some buffer) (.ok (src, datagram))).2 =
      some (index, message)) :
    ∃ v1, api_accept (udp_recvfrom buffer max_buffer_size datagram).1 src
      (udp_recvfrom buffer max_buffer_size datagram).2 = some (v1, message) := by
  unfold nt_api_handle_read at h
  simp only at h
  cases haccept : api_accept (udp_recvfrom buffer max_buffer_size datagram).1 src
      (udp_recvfrom buffer max_buffer_size datagram).2 with
  | none =>
    rw [haccept] at h
    cases h
  | some accepted =>
    obtain ⟨v1, message'⟩ := accepted
    rw [haccept] at h
    cases hprocessors : context.processors with
    | none =>
      simp only [hprocessors] at h
      cases h
    | some processors =>
      simp only [hprocessors] at h
      rw [apply_ite Prod.snd, Option.ite_none_right_eq_some, Option.some.injEq,
        Prod.mk.injEq] at h
      exact ⟨v1, by rw [h.2.2]⟩

/-! ## Through the tunnel -/

/-- An encoder that only notes what it is given. -/
def note_input : nt_fec_encode_t (List (List UInt8)) := fun fec input extra _ =>
  some (0, fec ++ [input], extra)

theorem ensure_note_input (processor : nt_fec_processor_t (List (List UInt8)))
    (input : List UInt8) : ensure_encode note_input processor input =
      some { processor with fec := processor.fec ++ [input] } := rfl

/-- Whatever message a client sends through a tunnel, in either version and not encrypted: if the
listener dispatches it, the encoder is given one message; the decoder, if it gets that message,
sends one datagram to the destination; and from that a client gets the id, the address of the
sender as the listener saw it, and the payload. A message without ttl is never sent on. -/
theorem api_is_transparent {udp : udp_t} {tunnel_addr : address_t} {payload datagram : List UInt8}
    {dst_ip src_ip id : UInt32} {dst_port src_port : UInt16}
    (hsent : (udp_sendto_tunnel udp payload (.addr_in dst_ip dst_port) id tunnel_addr).2.sent =
        udp.sent ++ [(tunnel_addr, datagram)] ∨
      ∃ ttl ≠ 0, (udp_sendto_tunnel2 udp payload (.addr_in dst_ip dst_port) id tunnel_addr
        NT_ENCRYPT_TYPE_NONE ttl).2.sent = udp.sent ++ [(tunnel_addr, datagram)])
    {max_buffer_size : Nat} (hfit : datagram.length ≤ UDP_MAX ∧ datagram.length ≤ max_buffer_size)
    (hsrc : src_ip ≠ 0) :
    (∀ (context : nt_fec_listener_context_t) (buffer : List UInt8) (index : Nat)
        (message : List UInt8),
      (nt_api_handle_read context max_buffer_size (some buffer)
        (.ok (.addr_in src_ip src_port, datagram))).2 = some (index, message) →
      ∃ input, (∀ processor, encoder_on_message note_input processor message =
          some { processor with fec := processor.fec ++ [input] }) ∧
        ∃ sent_on, (∀ (φ : Type) (processor : nt_fec_processor_t φ), Whole processor.api_udp →
            ∃ processor', on_decode processor input = some (0, processor') ∧
              processor'.api_udp.sent =
                processor.api_udp.sent ++ [(.addr_in dst_ip dst_port, sent_on)]) ∧
          ∀ (head buf : List UInt8) (len : Nat) (sender : address_t), payload.length ≤ len →
            ∃ got, udp_recvfrom_tunnel head buf len (.ok (sender, sent_on)) = .ok got ∧
              got.src_addr = .addr_in src_ip src_port ∧ got.id = id ∧
              got.received.toNat = payload.length ∧ got.buf.take payload.length = payload) ∧
    ∀ (φ : Type) (processor : nt_fec_processor_t φ) (decoded : List UInt8),
      nt_api2_header_is_valid decoded = true → (nt_api2_header_at decoded).ttl = 0 →
      ∃ perf, on_decode processor decoded = some (0, { processor with perf }) := by
  refine ⟨fun context buffer index message hread => ?_, fun φ processor decoded hvalid httl =>
    decode_expired hvalid httl processor⟩
  obtain ⟨v1, haccept⟩ := handle_read_accepted hread
  rw [recvfrom_fits buffer hfit.2] at haccept
  have hUDP : UDP_MAX = 65507 := rfl
  rcases hsent with hsent | ⟨ttl, httl, hsent⟩
  · obtain rfl : nt_api_header_bytes (nt_api_header_init id 0 0 dst_ip dst_port
        (UInt16.ofNat payload.length)) ++ payload = datagram := by
      simpa [udp_sendto_tunnel, udp_send_v, address_get_addr4, address_get_port] using hsent
    rw [List.length_append, length_nt_api_header_bytes] at hfit
    have hm := message_init id 0 dst_ip 0 dst_port payload (by omega)
    rw [List.length_append, length_nt_api_header_bytes, List.append_assoc,
      accept_message hm (.addr_in src_ip src_port) hsrc] at haccept
    cases haccept
    have hm' := hm.stamped (.addr_in src_ip src_port)
    refine ⟨_, fun processor => encode_message hm' note_input processor _, _,
      fun φ processor hudp => decode_message hm' processor hudp, fun head buf len sender hlen => ?_⟩
    obtain ⟨got, hgot, haddr, hid, -, hreceived, hbuf⟩ := receive_message hm' head buf hlen sender
    exact ⟨got, hgot, haddr, hid.trans (ntohl_htonl id), hreceived, hbuf⟩
  · obtain rfl : nt_api2_header_bytes (nt_api2_header_init id 0 0 dst_ip dst_port
        NT_ENCRYPT_TYPE_NONE ttl (UInt16.ofNat payload.length)) ++ payload = datagram := by
      simpa [udp_sendto_tunnel2, udp_send_v, address_get_addr4, address_get_port] using hsent
    rw [List.length_append, length_nt_api2_header_bytes] at hfit
    have hm := message2_init id 0 dst_ip 0 dst_port ttl payload (by omega)
    rw [List.length_append, length_nt_api2_header_bytes, List.append_assoc,
      accept_message2 hm (.addr_in src_ip src_port) hsrc] at haccept
    cases haccept
    have hm' := hm.stamped2 (.addr_in src_ip src_port)
    refine ⟨_, fun processor => encode_message2 hm' rfl note_input processor _, _,
      fun φ processor hudp => decode_message2 hm' rfl httl processor hudp,
      fun head buf len sender hlen => ?_⟩
    obtain ⟨got, hgot, haddr, hid, -, hreceived, hbuf⟩ :=
      receive_message hm'.sent_on head buf hlen sender
    exact ⟨got, hgot, haddr, hid.trans (ntohl_htonl id), hreceived, hbuf⟩

theorem api_is_transparent_three : ∃ index message input processor' sent_on got,
    (nt_api_handle_read ⟨some [⟨0, 8⟩], 0, fun _ => 0⟩ 64 (some (List.replicate 64 0))
      (.ok (.addr_in 5 6, nt_api2_header_bytes (nt_api2_header_init 7 0 0 3 4 NT_ENCRYPT_TYPE_NONE 8 3)
        ++ [10, 20, 30]))).2 = some (index, message) ∧
      encoder_on_message note_input idle_processor message =
        some { idle_processor with fec := [input] } ∧
      on_decode idle_processor input = some (0, processor') ∧
      processor'.api_udp.sent = [(.addr_in 3 4, sent_on)] ∧
      udp_recvfrom_tunnel [] [0, 0, 0] 3 (.ok (.addr_in 1 2, sent_on)) = .ok got ∧
      got.src_addr = .addr_in 5 6 ∧ got.id = 7 ∧ got.buf.take 3 = [10, 20, 30] := by
  have hread : ∃ message, (nt_api_handle_read ⟨some [⟨0, 8⟩], 0, fun _ => 0⟩ 64
      (some (List.replicate 64 0)) (.ok (.addr_in 5 6, nt_api2_header_bytes
        (nt_api2_header_init 7 0 0 3 4 NT_ENCRYPT_TYPE_NONE 8 3) ++ [10, 20, 30]))).2 =
      some (0, message) := ⟨_, rfl⟩
  obtain ⟨message, hread⟩ := hread
  have hsent : (udp_sendto_tunnel2 open_udp [10, 20, 30] (.addr_in 3 4) 7 (.addr_in 1 2)
      NT_ENCRYPT_TYPE_NONE 8).2.sent = open_udp.sent ++ [(.addr_in 1 2, nt_api2_header_bytes
        (nt_api2_header_init 7 0 0 3 4 NT_ENCRYPT_TYPE_NONE 8 3) ++ [10, 20, 30])] := rfl
  have hfit : (nt_api2_header_bytes (nt_api2_header_init 7 0 0 3 4 NT_ENCRYPT_TYPE_NONE 8 3) ++
      [10, 20, 30]).length ≤ 64 := by decide
  obtain ⟨hthrough, -⟩ := api_is_transparent (Or.inr ⟨8, by decide, hsent⟩) ⟨by decide, hfit⟩
    (by decide : (5 : UInt32) ≠ 0)
  obtain ⟨input, hencode, sent_on, hdecode, hget⟩ := hthrough _ _ _ _ hread
  obtain ⟨processor', hsent, hlog⟩ := hdecode _ idle_processor whole_open_udp
  obtain ⟨got, hgot, haddr, hid, -, hbuf⟩ := hget [] [0, 0, 0] 3 (.addr_in 1 2) (by decide)
  exact ⟨0, message, input, processor', sent_on, got, hread, hencode idle_processor, hsent, hlog,
    hgot, haddr, hid, hbuf⟩

end nettle.nt_api
