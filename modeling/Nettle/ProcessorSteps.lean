-- What one message does to a processor: an encoder sends packets into the
-- tunnel, a decoder counts a message or sends it on under a header of version
-- 1. Each datagram has the size that its header says, and one counter goes up.
import Nettle.NtFecs

open nettle.nt_fec nettle.nt_proto nettle.udp
open nettle.nt_rs_fec (emit idgen_t packet)

namespace nettle.nt_processor

/-! ## Out of the tunnel -/

section

variable {φ : Type}

/-- The counters after a message was sent on. -/
def api_counts (perf : perf_t) : Except error_t Nat → perf_t
  | .ok sent => perf_inc (perf_inc (perf_inc perf .COUNTER_API_SENT_V1 1) .COUNTER_API_SENT 1)
    .COUNTER_API_SENT_BYTES sent
  | .error _ => perf_inc perf .COUNTER_API_SEND_ERROR 1

/-- A message of version 1 on its way to the destination that it names. -/
def ToApi (x : address_t × List UInt8) : Prop :=
  nt_api_header_is_valid x.2 = true ∧ x.2.length = nt_api_message_size (nt_api_header_at x.2) ∧
    x.1 = .addr_in (nt_api_header_at x.2).dst_ip (nt_api_header_at x.2).dst_port

/-- The processor after `on_decode`. -/
inductive Decoded (processor : nt_fec_processor_t φ) : nt_fec_processor_t φ → Prop
  | counted (name : counter) (h : name ∈ [counter.COUNTER_CORRUPT_DECODED_DATA,
      counter.COUNTER_TTL_EXCEEDED, counter.COUNTER_DECRYPT_ERROR]) :
    Decoded processor { processor with perf := perf_inc processor.perf name 1 }
  | sent (x : address_t × List UInt8) (hx : ToApi x)
      (h : ∀ n, processor.api_udp.sendmsg none x.1 x.2 = .ok n → n = x.2.length) :
    Decoded processor { processor with
      api_udp := { processor.api_udp with sent := processor.api_udp.sent ++ [x] }
      perf := api_counts processor.perf (processor.api_udp.sendmsg none x.1 x.2) }

theorem api_sent_cases {processor processor' : nt_fec_processor_t φ} {x : address_t × List UInt8}
    (hx : ToApi x) {size : Nat} (hsize : size = x.2.length) {err : error_t}
    (h : api_sent processor (processor.api_udp.sendmsg none x.1 x.2,
      { processor.api_udp with sent := processor.api_udp.sent ++ [x] }) size = some (err, processor')) :
    err = 0 ∧ Decoded processor processor' := by
  subst hsize
  have hdone := fun hok => @Decoded.sent _ processor x hx hok
  unfold api_sent at h
  cases hsend : processor.api_udp.sendmsg none x.1 x.2 with
  | error err' =>
    rw [hsend] at h hdone
    cases h
    exact ⟨rfl, hdone fun n hn => by cases hn⟩
  | ok n =>
    rw [hsend] at h hdone
    simp only at h
    split at h
    · next hn =>
      cases h
      exact ⟨rfl, hdone fun n' hn' => by cases hn'; exact hn⟩
    · cases h

/-- A message of version 2 goes on as one of version 1. -/
theorem to_api_header {header : nt_api2_header_t} {payload : List UInt8}
    (h : payload.length = (nt_api2_header_payload_size header).toNat) :
    ToApi (address_init4 header.dst_ip header.dst_port,
      nt_api_header_bytes (nt_api_header_from header) ++ payload) := by
  refine ⟨?_, ?_, ?_⟩
  · simp [nt_api_header_is_valid, nt_api_header_from]
  · rw [nt_api_header_at_bytes, List.length_append, length_nt_api_header_bytes, h]
    rfl
  · rw [nt_api_header_at_bytes]
    rfl

theorem on_decode_cases {processor processor' : nt_fec_processor_t φ} {decoded : List UInt8}
    {err : error_t} (h : on_decode processor decoded = some (err, processor')) :
    err = 0 ∧ Decoded processor processor' := by
  have hcount : ∀ name ∈ [counter.COUNTER_CORRUPT_DECODED_DATA, counter.COUNTER_TTL_EXCEEDED,
      counter.COUNTER_DECRYPT_ERROR],
      some (0, { processor with perf := perf_inc processor.perf name 1 }) = some (err, processor') →
        err = 0 ∧ Decoded processor processor' := by
    intro name hname heq
    cases heq
    exact ⟨rfl, .counted name hname⟩
  have hsend : ∀ (header : nt_api2_header_t) (payload : List UInt8),
      (nt_api2_header_payload_size header).toNat ≤ payload.length →
      api_sent processor (udp_send_v processor.api_udp [nt_api_header_bytes (nt_api_header_from header),
        payload.take (nt_api2_header_payload_size header).toNat] none
          (address_init4 header.dst_ip header.dst_port))
        (nt_api_message_size (nt_api_header_from header)) = some (err, processor') →
        err = 0 ∧ Decoded processor processor' := by
    intro header payload hroom hsent
    have hlen : (payload.take (nt_api2_header_payload_size header).toNat).length =
        (nt_api2_header_payload_size header).toNat := List.length_take_of_le hroom
    refine api_sent_cases (to_api_header hlen) ?_ (by simpa [udp_send_v] using hsent)
    rw [List.length_append, length_nt_api_header_bytes, hlen]
    rfl
  unfold on_decode at h
  simp only at h
  split at h
  · next hv1 =>
    split at h
    · exact hcount _ (by simp) h
    · next hsize =>
      rw [not_not] at hsize
      exact api_sent_cases (x := (address_init4 (nt_api_header_at decoded).dst_ip
        (nt_api_header_at decoded).dst_port, decoded)) ⟨hv1, hsize, rfl⟩ rfl h
  · split at h
    · split at h
      · exact hcount _ (by simp) h
      · next hsize =>
        rw [not_not] at hsize
        have hpayload : ((nt_api2_message_payload decoded).take
            (nt_api2_header_payload_size (nt_api2_header_at decoded)).toNat).length =
              (nt_api2_header_payload_size (nt_api2_header_at decoded)).toNat := by
          rw [nt_api2_message_payload, List.length_take, List.length_drop, hsize, nt_api2_message_size]
          omega
        split at h
        · exact hcount _ (by simp) h
        · split at h
          · exact hsend _ _ hpayload.ge h
          · split at h
            · split at h
              · exact hcount _ (by simp) h
              · next decrypted _ =>
                refine hsend _ decrypted ?_ h
                simp only [nt_api2_header_payload_size, nt_api2_header_set_payload_size, ntohs_htons]
                rw [UInt16.toNat_ofNat']
                exact Nat.mod_le _ _
            · cases h
    · exact hcount _ (by simp) h

/-! ## Into the tunnel -/

/-- The counters after a packet was sent on one path. -/
def tun_counts (perf : perf_t) : Except error_t Nat → perf_t
  | .ok sent => perf_inc (perf_inc perf .COUNTER_TUN_SENT 1) .COUNTER_TUN_SENT_BYTES sent
  | .error _ => perf_inc perf .COUNTER_TUN_SEND_ERROR 1

/-- A packet with a header that has its size. -/
def ToTunnel (x : address_t × List UInt8) : Prop :=
  ∃ header payload, x.2 = nt_fec_header_bytes header ++ payload ∧
    nt_fec_header_payload_size header = UInt16.ofNat payload.length

/-- Some datagrams were sent, each with what the system has answered, and counted. -/
def TunSent (s s' : udp_t × perf_t) : Prop :=
  ∃ sends : List ((address_t × List UInt8) × Except error_t Nat),
    s' = ({ s.1 with sent := s.1.sent ++ sends.map Prod.fst },
      (sends.map Prod.snd).foldl tun_counts s.2) ∧
    ∀ x ∈ sends, ToTunnel x.1 ∧ (∃ src, x.2 = s.1.sendmsg src x.1.1 x.1.2) ∧
      ∀ n, x.2 = .ok n → n ≤ x.1.2.length

theorem TunSent.refl (s : udp_t × perf_t) : TunSent s s :=
  ⟨[], by simp, List.forall_mem_nil _⟩

theorem TunSent.trans {s s' s'' : udp_t × perf_t} (h : TunSent s s') (h' : TunSent s' s'') :
    TunSent s s'' := by
  obtain ⟨sends, rfl, hsends⟩ := h
  obtain ⟨more, rfl, hmore⟩ := h'
  refine ⟨sends ++ more, by simp, fun x hx => ?_⟩
  rcases List.mem_append.mp hx with hx | hx
  · exact hsends x hx
  · exact hmore x hx

theorem on_encode_loop_sent (distributor : nt_distributor_t) {header : nt_fec_header_t}
    {payload : List UInt8} (hsize : nt_fec_header_payload_size header = UInt16.ofNat payload.length)
    {rest i : Nat} {tun_udp : udp_t} {perf : perf_t} {s' : udp_t × perf_t}
    (h : on_encode_loop distributor header payload rest i tun_udp perf = some s') :
    TunSent (tun_udp, perf) s' := by
  induction rest generalizing i tun_udp perf with
  | zero =>
    cases h
    exact TunSent.refl _
  | succ rest ih =>
    rw [on_encode_loop] at h
    obtain ⟨found, -, h⟩ := Option.bind_eq_some_iff.mp h
    cases found with
    | none =>
      cases h
      exact TunSent.refl _
    | some n =>
      obtain ⟨path, -, h⟩ := Option.bind_eq_some_iff.mp h
      have hform : ToTunnel (path.dst, [nt_fec_header_bytes header, payload].flatten) :=
        ⟨header, payload, by simp, hsize⟩
      have hfits : nt_fec_message_size header ≤ [nt_fec_header_bytes header, payload].flatten.length := by
        simp only [nt_fec_message_size, hsize, UInt16.toNat_ofNat', List.flatten_cons, List.flatten_nil,
          List.append_nil, List.length_append, length_nt_fec_header_bytes]
        exact Nat.add_le_add_left (Nat.mod_le _ _) _
      have hone : (∀ n, tun_udp.sendmsg (some path.src) path.dst
            [nt_fec_header_bytes header, payload].flatten = .ok n → n = nt_fec_message_size header) →
          TunSent (tun_udp, perf) ({ tun_udp with
            sent := tun_udp.sent ++ [(path.dst, [nt_fec_header_bytes header, payload].flatten)] },
            tun_counts perf (tun_udp.sendmsg (some path.src) path.dst
              [nt_fec_header_bytes header, payload].flatten)) :=
        fun hok => ⟨[(_, _)], rfl, fun x hx => by
          rw [List.mem_singleton.mp hx]
          exact ⟨hform, ⟨some path.src, rfl⟩, fun n hn => (hok n hn).trans_le hfits⟩⟩
      rw [udp_send_v] at h
      cases hsend : tun_udp.sendmsg (some path.src) path.dst
          [nt_fec_header_bytes header, payload].flatten with
      | ok n =>
        rw [hsend] at h hone
        simp only at h
        split at h
        · next hn => exact (hone fun n' hn' => by cases hn'; exact hn).trans (ih h)
        · cases h
      | error err =>
        rw [hsend] at h hone
        exact (hone fun n hn => by cases hn).trans (ih h)

theorem emit_sent (distributor : nt_distributor_t) {ps : List packet}
    (hsized : ∀ p ∈ ps, nt_fec_header_payload_size p.1 = UInt16.ofNat p.2.length)
    {extra : tun_state} {s' : udp_t × perf_t} (h : emit (on_encode distributor) ps extra = some s') :
    ∃ s, extra = some s ∧ TunSent s s' := by
  induction ps generalizing extra with
  | nil => exact ⟨s', h, TunSent.refl _⟩
  | cons p ps ih =>
    obtain ⟨hp, hps⟩ := List.forall_mem_cons.mp hsized
    rw [emit, List.foldl_cons] at h
    obtain ⟨s₁, hone, hsent⟩ := ih hps h
    obtain ⟨s, rfl, hloop⟩ := Option.bind_eq_some_iff.mp hone
    exact ⟨s, rfl, (on_encode_loop_sent distributor hp hloop).trans hsent⟩

variable {F : Type}

/-- An encoder sends packets into the tunnel or counts that it cannot encrypt. -/
theorem encoder_on_message_cases {nt_fec_encode : nt_fec_encode_t (F × idgen_t)} {encode : encode_t F}
    (hemits : Emits nt_fec_encode encode) {processor processor' : nt_fec_processor_t (F × idgen_t)}
    {message : List UInt8} (h : encoder_on_message nt_fec_encode processor message = some processor') :
    (∃ fec tun_udp perf, processor' = { processor with fec, tun_udp, perf } ∧
      TunSent (processor.tun_udp, processor.perf) (tun_udp, perf)) ∨
    processor' = { processor with perf := perf_inc processor.perf .COUNTER_ENCRYPT_ERROR 1 } := by
  have hensure : ∀ input, ensure_encode nt_fec_encode processor input = some processor' →
      ∃ fec tun_udp perf, processor' = { processor with fec, tun_udp, perf } ∧
        TunSent (processor.tun_udp, processor.perf) (tun_udp, perf) := by
    intro input heq
    unfold ensure_encode at heq
    rw [hemits.emits _ _ _ _ fun _ _ _ => rfl] at heq
    cases hone : encode processor.fec.1 processor.fec.2 input with
    | none =>
      rw [hone] at heq
      cases heq
    | some r =>
      rw [hone] at heq
      simp only [Option.map_some, Option.bind_eq_bind, Option.bind_some, Option.bind_eq_some_iff] at heq
      obtain ⟨⟨tun_udp, perf⟩, hemit, heq⟩ := heq
      obtain ⟨s, hs, hsent⟩ := emit_sent processor.distributor (hemits.sized _ _ _ _ hone) hemit
      obtain rfl := Option.some.inj hs
      split at heq
      · exact ⟨_, _, _, (Option.some.inj heq).symm, hsent⟩
      · cases heq
  unfold encoder_on_message at h
  split at h
  · exact .inl (hensure _ h)
  · split at h
    · simp only at h
      split at h
      · exact .inl (hensure _ h)
      · split at h
        · split at h
          · exact .inr (Option.some.inj h).symm
          · exact .inl (hensure _ h)
        · cases h
    · cases h

/-! ## A whole decoder -/

/-- The messages are decoded one after the other. -/
inductive DecodedAll {φ : Type} (processor : nt_fec_processor_t φ) :
    List (List UInt8) → nt_fec_processor_t φ → Prop
  | start : DecodedAll processor [] processor
  | next {handed : List (List UInt8)} {processor' processor'' : nt_fec_processor_t φ}
      (decoded : List UInt8) : DecodedAll processor handed processor' →
      Decoded processor' processor'' → DecodedAll processor (handed ++ [decoded]) processor''

theorem on_decoded_zero {φ : Type} (extra : api_state φ) (decoded : List UInt8) :
    (on_decoded extra decoded).1 = 0 := by
  unfold on_decoded
  cases h : extra.bind fun processor => on_decode processor decoded with
  | none => rfl
  | some result =>
    obtain ⟨processor, -, hresult⟩ := Option.bind_eq_some_iff.mp h
    exact (on_decode_cases hresult).1

theorem on_decoded_cases {φ : Type} {handed : List (List UInt8)} {extra : api_state φ}
    {processor' : nt_fec_processor_t φ}
    (h : handed.foldl (fun extra decoded => (on_decoded extra decoded).2) extra = some processor') :
    ∃ processor, extra = some processor ∧ DecodedAll processor handed processor' := by
  induction handed using List.reverseRecOn generalizing processor' with
  | nil => exact ⟨processor', h, .start⟩
  | append_singleton handed decoded ih =>
    rw [List.foldl_append, List.foldl_cons, List.foldl_nil] at h
    generalize hbefore : handed.foldl (fun extra decoded => (on_decoded extra decoded).2) extra = middle at h
    unfold on_decoded at h
    cases hone : middle.bind fun processor => on_decode processor decoded with
    | none =>
      rw [hone] at h
      cases h
    | some result =>
      rw [hone] at h
      obtain rfl := Option.some.inj h
      obtain ⟨processor₁, rfl, hresult⟩ := Option.bind_eq_some_iff.mp hone
      obtain ⟨processor, rfl, hall⟩ := ih hbefore
      exact ⟨processor, rfl, .next decoded hall (on_decode_cases hresult).2⟩

/-- A decoder decodes what its FEC hands over. -/
theorem decoder_on_message_cases {nt_fec_decode : nt_fec_decode_t (F × idgen_t)} {decode : decode_t F}
    (hhands : HandsOver nt_fec_decode decode) {processor : nt_fec_processor_t (F × idgen_t)}
    {message : List UInt8} {current : Int} {r : nt_fec_processor_t (F × idgen_t) × Option decode_failure}
    (h : decoder_on_message nt_fec_decode processor message current = some r) :
    ∃ err fec handed processor', decode processor.fec.1 (nt_fec_header_at message) ((message.drop 10).take
        (nt_fec_header_payload_size (nt_fec_header_at message)).toNat) current = some (err, fec, handed) ∧
      DecodedAll processor handed processor' ∧
      r = ({ processor' with fec := (fec, processor.fec.2) }, failure_of err) := by
  unfold decoder_on_message at h
  simp only [hhands _ _ _ _ _ _ on_decoded_zero, Option.bind_eq_bind] at h
  cases hone : decode processor.fec.1 (nt_fec_header_at message) ((message.drop 10).take
      (nt_fec_header_payload_size (nt_fec_header_at message)).toNat) current with
  | none =>
    rw [hone] at h
    cases h
  | some result =>
    obtain ⟨err, fec, handed⟩ := result
    rw [hone] at h
    simp only [Option.map_some, Option.bind_some, Option.bind_eq_some_iff] at h
    obtain ⟨processor', hall, heq⟩ := h
    obtain ⟨processor₀, hstart, hdecoded⟩ := on_decoded_cases hall
    obtain rfl := Option.some.inj hstart
    exact ⟨err, fec, handed, processor', rfl, hdecoded, (Option.some.inj heq).symm⟩

end

end nettle.nt_processor
