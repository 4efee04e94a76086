-- A message of the API that comes to an API port again and again: what the
-- ttl of its header can stop, and what not.
import Nettle.ApiMessages

open nettle.nt_fec nettle.nt_listener nettle.nt_processor nettle.nt_proto nettle.udp

namespace nettle.nt_api

/-! ## Hops -/

/-- One pass through a tunnel: the listener that reads the datagram, the address that it sees, the
processor that encodes the message and the one of the peer that decodes it. -/
structure hop where
  context : nt_fec_listener_context_t
  max_buffer_size : Nat
  buffer : List UInt8
  src : address_t
  encoder : nt_fec_processor_t (List (List UInt8))
  decoder : nt_fec_processor_t Unit

/-- The messages that a hop hands to the FEC for a datagram. -/
def encoded_by (h : hop) (datagram : List UInt8) : List (List UInt8) :=
  match (nt_api_handle_read h.context h.max_buffer_size (some h.buffer)
      (.ok (h.src, datagram))).2 with
  | none => []
  | some (_, message) =>
    match encoder_on_message note_input { h.encoder with fec := [] } message with
    | none => []
    | some processor => processor.fec

/-- The datagrams that `on_decode` sends for a message. -/
def decoded_by (h : hop) (input : List UInt8) : List (address_t × List UInt8) :=
  match on_decode { h.decoder with api_udp := { h.decoder.api_udp with sent := [] } } input with
  | none => []
  | some (_, processor) => processor.api_udp.sent

/-- The FEC delivers messages unchanged. -/
def pass (h : hop) (datagram : List UInt8) : List (address_t × List UInt8) :=
  (encoded_by h datagram).flatMap (decoded_by h)

/-- All datagrams that are sent for a message in a run where the API port of the next hop gets
what the hop before sent. -/
def forward : List hop → List UInt8 → List (address_t × List UInt8)
  | [], _ => []
  | h :: hops, datagram => (pass h datagram).flatMap fun sent => sent :: forward hops sent.2

/-! ## Each hop sends at most once -/

theorem length_api_sent {φ : Type} {processor processor' : nt_fec_processor_t φ}
    {result : Except error_t Nat × udp_t} {size : Nat} {err : error_t}
    (h : api_sent processor result size = some (err, processor')) :
    processor'.api_udp = result.2 := by
  unfold api_sent at h
  split at h
  · split at h <;> cases h
    rfl
  · cases h
    rfl

theorem length_decoded_by (h : hop) (input : List UInt8) : (decoded_by h input).length ≤ 1 := by
  unfold decoded_by
  split
  · exact Nat.zero_le 1
  · next err processor hdecode =>
    have hone : ∀ {result : Except error_t Nat × udp_t} {size : Nat},
        result.2.sent.length = 1 → api_sent { h.decoder with
          api_udp := { h.decoder.api_udp with sent := [] } } result size =
            some (err, processor) → processor.api_udp.sent.length ≤ 1 := by
      intro result size hlen hsent
      rw [length_api_sent hsent, hlen]
    unfold on_decode at hdecode
    simp only at hdecode
    split at hdecode
    · split at hdecode
      · cases hdecode
        exact Nat.zero_le 1
      · exact hone rfl hdecode
    split at hdecode
    · split at hdecode
      · cases hdecode
        exact Nat.zero_le 1
      split at hdecode
      · cases hdecode
        exact Nat.zero_le 1
      split at hdecode
      · exact hone rfl hdecode
      split at hdecode
      · split at hdecode
        · cases hdecode
          exact Nat.zero_le 1
        · exact hone rfl hdecode
      · cases hdecode
    · cases hdecode
      exact Nat.zero_le 1

theorem length_encoded_by (h : hop) (datagram : List UInt8) :
    (encoded_by h datagram).length ≤ 1 := by
  have hone : ∀ (input : List UInt8) (processor : nt_fec_processor_t (List (List UInt8))),
      ensure_encode note_input { h.encoder with fec := [] } input = some processor →
        processor.fec.length ≤ 1 := by
    intro input processor hencode
    rw [ensure_note_input] at hencode
    cases hencode
    exact le_rfl
  unfold encoded_by
  split
  · exact Nat.zero_le 1
  split
  · exact Nat.zero_le 1
  · next processor hencode =>
    unfold encoder_on_message at hencode
    simp only at hencode
    split at hencode
    · exact hone _ _ hencode
    split at hencode
    · split at hencode
      · exact hone _ _ hencode
      split at hencode
      · split at hencode
        · cases hencode
          exact Nat.zero_le 1
        · exact hone _ _ hencode
      · cases hencode
    · cases hencode

theorem length_pass (h : hop) (datagram : List UInt8) : (pass h datagram).length ≤ 1 := by
  unfold pass
  have hlen := length_encoded_by h datagram
  match hinputs : encoded_by h datagram, hlen with
  | [], _ => exact Nat.zero_le 1
  | [input], _ =>
    rw [List.flatMap_singleton]
    exact length_decoded_by h input

theorem length_forward (hops : List hop) (datagram : List UInt8) :
    (forward hops datagram).length ≤ hops.length := by
  induction hops generalizing datagram with
  | nil => exact le_rfl
  | cons h hops ih =>
    have hlen := length_pass h datagram
    unfold forward
    match hpass : pass h datagram, hlen with
    | [], _ => exact Nat.zero_le _
    | [sent], _ =>
      rw [List.flatMap_singleton, List.length_cons, List.length_cons]
      exact Nat.succ_le_succ (ih sent.2)

/-! ## A message without ttl -/

section

variable {header : nt_api2_header_t} {payload : List UInt8}

/-- However it is read, a message of version 2 that is accepted is accepted as it is. -/
theorem accept_only_whole (hm : Message2 header payload) {buffer : List UInt8} {src : address_t}
    {max_buffer_size : Nat} {v1 : Bool} {message : List UInt8}
    (h : api_accept
      (udp_recvfrom buffer max_buffer_size (nt_api2_header_bytes header ++ payload)).1 src
      (udp_recvfrom buffer max_buffer_size (nt_api2_header_bytes header ++ payload)).2 =
        some (v1, message)) :
    ∃ rest, message = nt_api2_header_bytes (stamped2 src header) ++ (payload ++ rest) := by
  have hsrc : address_get_addr4 src ≠ 0 := by
    intro hzero
    rw [api_accept, if_pos hzero] at h
    cases h
  rcases Nat.lt_or_ge max_buffer_size (nt_api2_header_bytes header ++ payload).length with
    hcut | hfit
  · -- A message that is cut off does not have the size that its header says.
    exfalso
    rw [udp_recvfrom, Nat.min_eq_left hcut.le] at h
    simp only at h
    rw [List.length_append, length_nt_api2_header_bytes] at hcut
    rcases Nat.lt_or_ge max_buffer_size 28 with hshort | hhead
    · unfold api_accept at h
      simp only [hsrc, if_false] at h
      split at h
      · next hvalid =>
        split at h
        · cases h
        · next hsize =>
          have hpos : max_buffer_size ≠ 0 := by
            rw [not_not, nt_api_message_size] at hsize
            omega
          obtain ⟨n, rfl⟩ := Nat.exists_eq_succ_of_ne_zero hpos
          have htag : header.tag = NT_API_TAG := by
            rw [nt_api_header_is_valid, beq_iff_eq] at hvalid
            exact hvalid
          rw [hm.tag] at htag
          exact absurd htag (by decide)
      · split at h
        · split at h
          · cases h
          · next hsize =>
            rw [not_not, nt_api2_message_size] at hsize
            omega
        · cases h
    · rw [List.take_append, List.take_of_length_le (by simpa using hhead), List.append_assoc,
        length_nt_api2_header_bytes] at h
      unfold api_accept at h
      rw [if_neg hsrc, if_neg (hm.not_valid _), if_pos (hm.is_valid _)] at h
      simp only [nt_api2_header_at_bytes, hm.message_size] at h
      rw [if_pos (by omega)] at h
      cases h
  · rw [recvfrom_fits buffer hfit, List.length_append, length_nt_api2_header_bytes,
      List.append_assoc, accept_message2 hm _ hsrc] at h
    cases h
    exact ⟨_, rfl⟩

/-- What is encoded of a message without ttl is never sent on, encrypted or not. -/
theorem pass_expired (hm : Message2 header payload) (httl : header.ttl = 0) (h : hop) :
    pass h (nt_api2_header_bytes header ++ payload) = [] := by
  have hdrop : ∀ {header' : nt_api2_header_t} {rest : List UInt8}, header'.tag = NT_API2_TAG →
      header'.encrypt_type < NT_ENCRYPT_TYPE_NUM → header'.ttl = 0 →
      decoded_by h (nt_api2_header_bytes header' ++ rest) = [] := by
    intro header' rest htag htype hzero
    obtain ⟨perf, hdecode⟩ := decode_expired (api2_is_valid htag htype rest)
      (by rw [nt_api2_header_at_bytes, hzero])
      { h.decoder with api_udp := { h.decoder.api_udp with sent := [] } }
    rw [decoded_by, hdecode]
  rw [pass, List.flatMap_eq_nil_iff]
  intro input hinput
  unfold encoded_by at hinput
  split at hinput
  · cases hinput
  next index message hread =>
  obtain ⟨v1, haccept⟩ := handle_read_accepted hread
  obtain ⟨rest, rfl⟩ := accept_only_whole hm haccept
  have hm' := hm.stamped2 h.src
  by_cases hplain : header.encrypt_type = NT_ENCRYPT_TYPE_NONE
  · rw [encode_message2 hm' hplain, ensure_note_input] at hinput
    rw [List.mem_singleton.mp hinput]
    exact hdrop hm'.tag hm'.encrypt_type httl
  · rw [encode_message2_encrypted hm' hplain] at hinput
    cases hcipher : h.encoder.encryptor.bind fun encryptor => encryptor.encrypt payload with
    | none =>
      simp only [hcipher] at hinput
      cases hinput
    | some encrypted =>
      simp only [hcipher, ensure_note_input, List.nil_append] at hinput
      rw [List.mem_singleton.mp hinput]
      exact hdrop hm'.tag hm'.encrypt_type httl

end

/-! ## A loop that never ends -/

/-- A key center that leaves everything as it is. -/
def plain_encryptor : ka_encryptor_t := ⟨some, some⟩

/-- A tunnel that lets everything through. -/
def open_hop : hop where
  context := ⟨some [⟨0, 1⟩], 0, fun _ => 0⟩
  max_buffer_size := UDP_MAX
  buffer := []
  src := .addr_in 1 1
  encoder := { idle_processor with encryptor := some plain_encryptor }
  decoder := { idle_processor with fec := (), encryptor := some plain_encryptor }

theorem open_hop_dispatches {datagram message : List UInt8} {v1 : Bool}
    (hfit : datagram.length ≤ UDP_MAX)
    (haccept : api_accept datagram (.addr_in 1 1) datagram.length = some (v1, message)) :
    (nt_api_handle_read open_hop.context open_hop.max_buffer_size (some open_hop.buffer)
      (.ok (open_hop.src, datagram))).2 = some (0, message) := by
  have hread := recvfrom_fits [] hfit
  rw [List.drop_nil, List.append_nil] at hread
  unfold nt_api_handle_read open_hop
  simp only [hread, haccept]
  rfl

/-- The datagrams that an open tunnel sends for a message. -/
theorem decoded_by_open {input : List UInt8} {processor' : nt_fec_processor_t Unit}
    {sent : List (address_t × List UInt8)}
    (h : on_decode open_hop.decoder input = some (0, processor') ∧
      processor'.api_udp.sent = open_hop.decoder.api_udp.sent ++ sent) :
    decoded_by open_hop input = sent := by
  have hopen : { open_hop.decoder with
      api_udp := { open_hop.decoder.api_udp with sent := [] } } = open_hop.decoder := rfl
  rw [decoded_by, hopen, h.1]
  exact h.2

/-- A message that an open tunnel sent goes through it again. -/
theorem pass_open_message {header : nt_api_header_t} {payload : List UInt8}
    (hm : Message header payload) (hfit : 19 + payload.length ≤ UDP_MAX) :
    pass open_hop (nt_api_header_bytes header ++ payload) =
      [(.addr_in header.dst_ip header.dst_port,
        nt_api_header_bytes (stamped (.addr_in 1 1) header) ++ payload)] := by
  have haccept := accept_message hm (.addr_in 1 1) (by decide) []
  rw [List.append_nil] at haccept
  have hlen : (nt_api_header_bytes header ++ payload).length = 19 + payload.length := by simp
  rw [← hlen] at haccept hfit
  have hread := open_hop_dispatches hfit haccept
  have hm' := hm.stamped (.addr_in 1 1)
  have hencode := encode_message hm' note_input { open_hop.encoder with fec := [] } []
  rw [List.append_nil, ensure_note_input] at hencode
  have hencoded : encoded_by open_hop (nt_api_header_bytes header ++ payload) =
      [nt_api_header_bytes (stamped (.addr_in 1 1) header) ++ payload] := by
    simp only [encoded_by, hread, hencode]
    rfl
  obtain ⟨processor', hdecode⟩ := decode_message hm' open_hop.decoder whole_open_udp
  rw [pass, hencoded, List.flatMap_singleton, decoded_by_open hdecode]
  rfl

/-- A message of version 2 comes out of an open tunnel in version 1. -/
theorem pass_open_message2 {header : nt_api2_header_t} {payload : List UInt8}
    (hm : Message2 header payload) (hfit : 28 + payload.length ≤ UDP_MAX) (httl : header.ttl ≠ 0) :
    ∃ (header' : nt_api_header_t) (dst : address_t), Message header' payload ∧
      pass open_hop (nt_api2_header_bytes header ++ payload) =
        [(dst, nt_api_header_bytes header' ++ payload)] := by
  have hUDP : UDP_MAX = 65507 := rfl
  have hshort : payload.length < 2 ^ 16 := by omega
  have haccept := accept_message2 hm (.addr_in 1 1) (by decide) []
  rw [List.append_nil] at haccept
  have hlen : (nt_api2_header_bytes header ++ payload).length = 28 + payload.length := by simp
  rw [← hlen] at haccept hfit
  have hread := open_hop_dispatches hfit haccept
  have hm' := hm.stamped2 (.addr_in 1 1)
  by_cases hplain : header.encrypt_type = NT_ENCRYPT_TYPE_NONE
  · have hencode := encode_message2 hm' hplain note_input { open_hop.encoder with fec := [] } []
    rw [List.append_nil, ensure_note_input] at hencode
    have hencoded : encoded_by open_hop (nt_api2_header_bytes header ++ payload) =
        [nt_api2_header_bytes (stamped2 (.addr_in 1 1) header) ++ payload] := by
      simp only [encoded_by, hread, hencode]
      rfl
    obtain ⟨processor', hdecode⟩ := decode_message2 hm' hplain httl
      open_hop.decoder whole_open_udp
    rw [pass, hencoded, List.flatMap_singleton, decoded_by_open hdecode]
    exact ⟨_, _, hm'.sent_on, rfl⟩
  · have hencode := encode_message2_encrypted hm' hplain note_input
      { open_hop.encoder with fec := [] } []
    have hcipher : (open_hop.encoder.encryptor.bind fun encryptor => encryptor.encrypt payload) =
      some payload := rfl
    have hsize := UInt16.toNat_ofNat_of_lt' hshort
    simp only [hcipher, List.append_nil, hsize, List.take_length, ensure_note_input] at hencode
    have hm₂ : Message2 (nt_api2_header_set_payload_size (stamped2 (.addr_in 1 1) header)
        (UInt16.ofNat payload.length)) payload := by
      refine ⟨hm'.tag, hm'.encrypt_type, ?_⟩
      rw [nt_api2_header_payload_size, nt_api2_header_set_payload_size, ntohs_htons, hsize]
    have hencoded : encoded_by open_hop (nt_api2_header_bytes header ++ payload) =
        [nt_api2_header_bytes (nt_api2_header_set_payload_size (stamped2 (.addr_in 1 1) header)
          (UInt16.ofNat payload.length)) ++ payload] := by
      simp only [encoded_by, hread, hencode]
      rfl
    obtain ⟨processor', hdecode⟩ := decode_message2_encrypted hm₂ hplain httl
      open_hop.decoder whole_open_udp rfl hshort
    rw [pass, hencoded, List.flatMap_singleton, decoded_by_open hdecode]
    refine ⟨_, _, ⟨rfl, ?_⟩, rfl⟩
    exact hm₂.size

theorem forward_open {header : nt_api_header_t} {payload : List UInt8}
    (hm : Message header payload) (hfit : 19 + payload.length ≤ UDP_MAX) (n : Nat) :
    (forward (List.replicate n open_hop) (nt_api_header_bytes header ++ payload)).length = n := by
  induction n generalizing header with
  | zero => rfl
  | succ n ih =>
    rw [List.replicate_succ, forward, pass_open_message hm hfit, List.flatMap_singleton,
      List.length_cons, ih (hm.stamped (.addr_in 1 1))]

/-- A message is sent on no more often than its ttl says in every run where it has no ttl, or comes
to API ports at most so often; and in all runs of at most `n` arrivals at API ports it is so just
under that condition. -/
theorem ttl_bounds_forwarding_iff {header : nt_api2_header_t} {payload : List UInt8}
    (hm : Message2 header payload) (hfit : 28 + payload.length ≤ UDP_MAX) :
    (∀ hops : List hop, header.ttl = 0 ∨ hops.length ≤ header.ttl.toNat →
      (forward hops (nt_api2_header_bytes header ++ payload)).length ≤ header.ttl.toNat) ∧
    ∀ n, (∀ hops : List hop, hops.length ≤ n →
      (forward hops (nt_api2_header_bytes header ++ payload)).length ≤ header.ttl.toNat) ↔
      header.ttl = 0 ∨ n ≤ header.ttl.toNat := by
  have hrun : ∀ hops : List hop, header.ttl = 0 ∨ hops.length ≤ header.ttl.toNat →
      (forward hops (nt_api2_header_bytes header ++ payload)).length ≤ header.ttl.toNat := by
    rintro hops (httl | hle)
    · rcases hops with _ | ⟨h, hops⟩
      · exact Nat.zero_le _
      · rw [forward, pass_expired hm httl, List.flatMap_nil]
        exact Nat.zero_le _
    · exact (length_forward hops _).trans hle
  refine ⟨hrun, fun n => ⟨fun h => ?_, fun h hops hlen => hrun hops (h.imp_right hlen.trans)⟩⟩
  by_cases httl : header.ttl = 0
  · exact Or.inl httl
  · refine Or.inr ?_
    rcases n with _ | n
    · exact Nat.zero_le _
    obtain ⟨header', dst, hm', hpass⟩ := pass_open_message2 hm hfit httl
    have hrun := h (List.replicate (n + 1) open_hop) (by rw [List.length_replicate])
    rwa [List.replicate_succ, forward, hpass, List.flatMap_singleton, List.length_cons,
      forward_open hm' (by omega)] at hrun

theorem ttl_bounds_forwarding_once : (forward [open_hop] (nt_api2_header_bytes
    (nt_api2_header_init 7 0 0 3 4 NT_ENCRYPT_TYPE_NONE 1 0) ++ [])).length ≤ 1 :=
  (ttl_bounds_forwarding_iff (message2_init _ _ _ _ _ _ [] (by decide)) (by decide)).1 [open_hop]
    (Or.inr (le_refl 1))

/-- A message with ttl 1 is sent twice. -/
theorem a_message_goes_round : ∃ hops : List hop, (forward hops (nt_api2_header_bytes
    (nt_api2_header_init 7 0 0 3 4 NT_ENCRYPT_TYPE_NONE 1 0))).length > 1 :=
  ⟨[open_hop, open_hop], by decide +kernel⟩

end nettle.nt_api
