-- The two ends of a tunnel as main.c sets them up, each with its processors on
-- shared sockets, and a network between them that loses, repeats and reorders
-- datagrams. Whatever the FEC is, a run comes down to the messages that its
-- encoders take and the packets that reach its decoders.
import Nettle.Listeners
import Nettle.NtDistributor
import Nettle.ProcessorSteps

open nettle.nt_api nettle.nt_distributor nettle.nt_fec nettle.nt_listener nettle.nt_processor
open nettle.nt_proto nettle.udp
open nettle.nt_rs_fec (arrival emit idgen_t packet)

namespace nettle.tunnel

/-! ## One end -/

/-- The variables of `main`. There is no key center, and the processors share all the rest but
their FECs. The counters are those of the processors. -/
structure tunnel_end (F : Type) where
  max_udp_buffer_size : Nat
  distributor : nt_distributor_t
  api_udp : udp_t
  tun_udp : udp_t
  fecs : List F
  idgen : idgen_t
  perf : perf_t
  failures : decode_failure → Nat

/-- A message that the API listener accepts and encoder `i` takes, or a datagram that the tunnel
listener reads and its decoder takes at this time. The buffers hold what was left in them. -/
inductive event where
  | api (i : Nat) (src : address_t) (buffer datagram : List UInt8)
  | tun (buffer datagram : List UInt8) (clock : Int)

/-- What is in the buffer when `nt_api_handle_read` dispatches it. -/
def api_message (max_buffer_size : Nat) (src : address_t) (buffer datagram : List UInt8) :
    Option (List UInt8) :=
  let (buffer, received) := udp_recvfrom buffer max_buffer_size datagram
  (api_accept buffer src received).map Prod.snd

/-- The decoder to which `nt_tun_handle_read` dispatches a datagram, and what is in the buffer. -/
def tun_message (processor_num max_buffer_size : Nat) (buffer datagram : List UInt8) :
    Option (Nat × List UInt8) :=
  let (buffer, received) := udp_recvfrom buffer max_buffer_size datagram
  let header := nt_fec_header_at buffer
  if nt_fec_message_size header ≠ received then none
  else if processor_num = 0 then none
  else
    let block_id := (nt_fec_header_block_id header).toNat
    let header := nt_fec_header_set_block_id header (UInt32.ofNat (block_id / processor_num))
    some (block_id % processor_num, nt_fec_header_bytes header ++ buffer.drop 10)

variable {F : Type}

def processors (t : tunnel_end F) (i : Nat) : Option (nt_fec_processor_t (F × idgen_t)) :=
  t.fecs[i]?.map fun fec => {
    distributor := t.distributor
    api_udp := t.api_udp
    tun_udp := t.tun_udp
    fec := (fec, t.idgen)
    encryptor := none
    perf := t.perf }

/-- The end after a turn of a worker of processor `i`. -/
def store (t : tunnel_end F) (i : Nat) (processor : nt_fec_processor_t (F × idgen_t)) : tunnel_end F :=
  { t with
    api_udp := processor.api_udp
    tun_udp := processor.tun_udp
    fecs := t.fecs.set i processor.fec.1
    idgen := processor.fec.2
    perf := processor.perf }

def count_failure (failures : decode_failure → Nat) : Option decode_failure → decode_failure → Nat
  | none => failures
  | some name => Function.update failures name (failures name + 1)

def end_turn (nt_fec_encode : nt_fec_encode_t (F × idgen_t))
    (nt_fec_decode : nt_fec_decode_t (F × idgen_t)) (t : tunnel_end F) :
    event → Option (tunnel_end F)
  | .api i src buffer datagram =>
    match api_message t.max_udp_buffer_size src buffer datagram with
    | none => some t
    | some message => do
      let processor ← processors t i
      let processor ← encoder_on_message nt_fec_encode processor message
      return store t i processor
  | .tun buffer datagram clock =>
    match tun_message t.fecs.length t.max_udp_buffer_size buffer datagram with
    | none => some t
    | some (q, message) => do
      let processor ← processors t q
      let (processor, failure) ← decoder_on_message nt_fec_decode processor message clock
      return { store t q processor with failures := count_failure t.failures failure }

/-- The messages are those that the listeners dispatch. -/
theorem api_handle_read_dispatches {listener listener' : nt_listener_t} {perf perf' : perf_t}
    {b w : Nat} {buffer message : List UInt8} {src : address_t} {datagram : List UInt8}
    (h : api_handle_read listener perf b buffer (.ok (src, datagram)) = (message, perf', listener'))
    (hsend : listener'.handler = .sending b w) :
    api_message listener.max_buffer_size src buffer datagram = some message := by
  unfold api_handle_read at h
  unfold api_message
  simp only at h ⊢
  split at h
  · cases h
    cases hsend
  · next v1 buffer' haccept =>
    rw [haccept]
    split at h <;> cases h
    · cases hsend
    · rfl

theorem tun_handle_read_dispatches {listener listener' : nt_listener_t} {perf perf' : perf_t}
    {b w : Nat} {buffer message : List UInt8} {src : address_t} {datagram : List UInt8}
    (h : tun_handle_read listener perf b buffer (.ok (src, datagram)) = (message, perf', listener'))
    (hsend : listener'.handler = .sending b w) :
    tun_message listener.workers.length listener.max_buffer_size buffer datagram =
      some (w, message) := by
  unfold tun_handle_read at h
  unfold tun_message
  simp only at h ⊢
  split at h
  · cases h
    cases hsend
  · next hsize =>
    rw [if_neg hsize]
    split at h
    · cases h
      cases hsend
    · next hworkers =>
      rw [if_neg fun hnone => hworkers (List.length_eq_zero_iff.mp hnone)]
      cases h
      cases hsend
      rfl

/-! ## Out of the tunnel -/

/-- What leaves the API port for a message that comes out of the tunnel: the message itself if it is
of version 1, and under a header of version 1 if it is of version 2 and has some ttl left. -/
def forwarded (decoded : List UInt8) : Option (address_t × List UInt8) :=
  if plain_size decoded ≠ some decoded.length then none
  else if nt_api_header_is_valid decoded then
    let header := nt_api_header_at decoded
    some (.addr_in header.dst_ip header.dst_port, decoded)
  else
    let header := nt_api2_header_at decoded
    if header.ttl = 0 then none
    else some (.addr_in header.dst_ip header.dst_port,
      nt_api_header_bytes (nt_api_header_from header) ++ nt_api2_message_payload decoded)

section

variable {φ : Type}

theorem api_sent_keeps {processor : nt_fec_processor_t φ} (hudp : Whole processor.api_udp)
    (udp : udp_t) (src : Option address_t) (dst : address_t) (datagram : List UInt8) :
    ∃ perf, api_sent processor (processor.api_udp.sendmsg src dst datagram, udp) datagram.length =
      some (0, { processor with api_udp := udp, perf }) := by
  unfold api_sent
  cases hsend : processor.api_udp.sendmsg src dst datagram with
  | error err => exact ⟨_, rfl⟩
  | ok n =>
    obtain ⟨rfl, -⟩ := hudp src dst datagram n hsend
    simp only [if_true]
    exact ⟨_, rfl⟩

/-- `on_decode` never fails, and sends what is to be forwarded. -/
theorem on_decode_forwards {processor : nt_fec_processor_t φ} (hudp : Whole processor.api_udp)
    (hnone : processor.encryptor = none) (decoded : List UInt8) :
    ∃ perf, on_decode processor decoded = some (0, { processor with
      api_udp := { processor.api_udp with
        sent := processor.api_udp.sent ++ (forwarded decoded).toList }, perf }) := by
  have hquiet : ∀ perf : perf_t, (some (0, { processor with perf }) :
      Option (error_t × nt_fec_processor_t φ)) = some (0, { processor with
        api_udp := { processor.api_udp with sent := processor.api_udp.sent ++
          (none : Option (address_t × List UInt8)).toList }, perf }) := by
    intro perf
    simp
  unfold on_decode forwarded plain_size
  by_cases hv1 : nt_api_header_is_valid decoded = true
  · simp only [hv1, if_true, ne_eq, Option.some.injEq]
    by_cases hsize : decoded.length = nt_api_message_size (nt_api_header_at decoded)
    · obtain ⟨perf, hsent⟩ := api_sent_keeps hudp (udp_sendto processor.api_udp decoded
        (.addr_in (nt_api_header_at decoded).dst_ip (nt_api_header_at decoded).dst_port)).2 none
        (.addr_in (nt_api_header_at decoded).dst_ip (nt_api_header_at decoded).dst_port) decoded
      rw [if_neg (not_not.mpr hsize), if_neg (not_not.mpr hsize.symm)]
      exact ⟨perf, hsent⟩
    · rw [if_pos hsize, if_pos (Ne.symm hsize)]
      exact ⟨_, hquiet _⟩
  simp only [hv1, Bool.false_eq_true, if_false]
  by_cases hv2 : nt_api2_header_is_valid decoded = true
  · simp only [hv2, if_true, true_and, ne_eq]
    by_cases hsize : decoded.length = nt_api2_message_size (nt_api2_header_at decoded)
    · rw [if_neg (not_not.mpr hsize)]
      have hzero : (nt_api2_header_at decoded).ttl ≤ 0 ↔ (nt_api2_header_at decoded).ttl = 0 :=
        ⟨fun h => UInt8.le_antisymm h UInt8.zero_le, fun h => h ▸ UInt8.le_refl _⟩
      by_cases httl : (nt_api2_header_at decoded).ttl = 0
      · rw [if_pos (hzero.mpr httl), if_pos httl, ite_self]
        exact ⟨_, hquiet _⟩
      · rw [if_neg (hzero.not.mpr httl), if_neg httl]
        by_cases hplain : (nt_api2_header_at decoded).encrypt_type = NT_ENCRYPT_TYPE_NONE
        · simp only [hplain, if_true]
          rw [if_neg (by rw [hsize, not_not])]
          have hpayload : (nt_api2_message_payload decoded).length =
              (nt_api2_header_payload_size (nt_api2_header_at decoded)).toNat := by
            rw [nt_api2_message_payload, List.length_drop, hsize, nt_api2_message_size,
              Nat.add_sub_cancel_left]
          obtain ⟨perf, hsent⟩ := api_sent_keeps hudp (udp_send_v processor.api_udp
            [nt_api_header_bytes (nt_api_header_from (nt_api2_header_at decoded)),
              nt_api2_message_payload decoded] none (.addr_in (nt_api2_header_at decoded).dst_ip
              (nt_api2_header_at decoded).dst_port)).2 none (.addr_in (nt_api2_header_at decoded).dst_ip
              (nt_api2_header_at decoded).dst_port)
            (nt_api_header_bytes (nt_api_header_from (nt_api2_header_at decoded)) ++
              nt_api2_message_payload decoded)
          rw [List.length_append, length_nt_api_header_bytes, hpayload] at hsent
          refine ⟨perf, ?_⟩
          have htake : ((nt_api2_message_payload decoded).take
              (nt_api2_header_payload_size (nt_api2_header_at decoded)).toNat).take
              (nt_api2_header_payload_size (nt_api2_header_at decoded)).toNat =
                nt_api2_message_payload decoded := by
            rw [List.take_take, Nat.min_self, List.take_of_length_le hpayload.le]
          change api_sent processor (udp_send_v processor.api_udp
            [nt_api_header_bytes (nt_api_header_from (nt_api2_header_at decoded)),
              ((nt_api2_message_payload decoded).take
                (nt_api2_header_payload_size (nt_api2_header_at decoded)).toNat).take
                (nt_api2_header_payload_size (nt_api2_header_at decoded)).toNat] none
            (.addr_in (nt_api2_header_at decoded).dst_ip (nt_api2_header_at decoded).dst_port))
            (nt_api_message_size (nt_api_header_from (nt_api2_header_at decoded))) = _
          rw [htake]
          simp only [udp_send_v, List.flatten_cons, List.flatten_nil, List.append_nil] at hsent ⊢
          exact hsent
        · have hkc := for_key_center (by
            simp only [nt_api2_header_is_valid, Bool.and_eq_true, decide_eq_true_eq] at hv2
            exact hv2.2) hplain
          simp only [hkc, if_true, hnone, Option.bind_none]
          have hfailed := hquiet (perf_inc processor.perf .COUNTER_DECRYPT_ERROR 1)
          rw [hnone] at hfailed
          have hother : ¬NT_ENCRYPT_TYPE_KC = NT_ENCRYPT_TYPE_NONE := by decide
          rw [if_neg hother, if_neg hother, if_pos (Option.some_ne_none _).symm]
          exact ⟨_, hfailed⟩
    · rw [if_pos hsize, if_pos fun heq => ?_]
      · exact ⟨_, hquiet _⟩
      · split at heq
        · exact hsize (Option.some.inj heq).symm
        · cases heq
  · simp only [hv2, Bool.false_eq_true, if_false, false_and, ne_eq, reduceCtorEq, not_false_eq_true,
      if_true]
    exact ⟨_, hquiet _⟩

/-- The messages that a decoder hands over are forwarded one after the other. -/
theorem on_decoded_all {processor : nt_fec_processor_t φ} (hudp : Whole processor.api_udp)
    (hnone : processor.encryptor = none) (handed : List (List UInt8)) :
    ∃ perf, handed.foldl (fun extra decoded => (on_decoded extra decoded).2) (some processor) =
      some { processor with
        api_udp := { processor.api_udp with
          sent := processor.api_udp.sent ++ handed.filterMap forwarded }, perf } := by
  induction handed generalizing processor with
  | nil => exact ⟨processor.perf, by simp⟩
  | cons decoded handed ih =>
    obtain ⟨perf, hone⟩ := on_decode_forwards hudp hnone decoded
    obtain ⟨perf', hrest⟩ := @ih { processor with
      api_udp := { processor.api_udp with
        sent := processor.api_udp.sent ++ (forwarded decoded).toList }, perf } hudp hnone
    refine ⟨perf', ?_⟩
    rw [List.foldl_cons, on_decoded, Option.bind_some, hone]
    refine hrest.trans ?_
    cases h : forwarded decoded <;> simp [h]

end

/-- A decoder forwards what its FEC hands over. -/
theorem decoder_forwards {nt_fec_decode : nt_fec_decode_t (F × idgen_t)} {decode : decode_t F}
    (hdecode : HandsOver nt_fec_decode decode) (processor : nt_fec_processor_t (F × idgen_t))
    (hudp : Whole processor.api_udp) (hnone : processor.encryptor = none) {message : List UInt8}
    {clock : Int} {err : error_t} {fec : F} {handed : List (List UInt8)}
    (h : decode processor.fec.1 (nt_fec_header_at message) ((message.drop 10).take
      (nt_fec_header_payload_size (nt_fec_header_at message)).toNat) clock = some (err, fec, handed)) :
    ∃ perf, decoder_on_message nt_fec_decode processor message clock = some ({ processor with
      fec := (fec, processor.fec.2)
      api_udp := { processor.api_udp with
        sent := processor.api_udp.sent ++ handed.filterMap forwarded }
      perf }, failure_of err) := by
  obtain ⟨perf, hall⟩ := on_decoded_all hudp hnone handed
  have hcall := hdecode processor.fec (nt_fec_header_at message) ((message.drop 10).take
    (nt_fec_header_payload_size (nt_fec_header_at message)).toNat) clock (some processor) on_decoded
    on_decoded_zero
  rw [h] at hcall
  refine ⟨perf, ?_⟩
  unfold decoder_on_message
  simp only [hcall, Option.map_some, Option.bind_eq_bind, Option.bind_some, hall]
  rfl

/-! ## Into the tunnel -/

/-- A packet as a datagram. -/
def wire (p : packet) : List UInt8 := nt_fec_header_bytes p.1 ++ p.2

theorem on_encode_loop_wires {distributor : nt_distributor_t} (hd : Usable distributor) {p : packet}
    (hp : nt_fec_header_payload_size p.1 = UInt16.ofNat p.2.length) (rest i : Nat) {tun_udp : udp_t}
    (hudp : Whole tun_udp) (perf : perf_t) :
    ∃ more perf', on_encode_loop distributor p.1 p.2 rest i tun_udp perf =
      some ({ tun_udp with sent := tun_udp.sent ++ more }, perf') ∧ ∀ x ∈ more, x.2 = wire p := by
  induction rest generalizing i tun_udp perf with
  | zero => exact ⟨[], perf, by rw [List.append_nil]; rfl, List.forall_mem_nil _⟩
  | succ rest ih =>
    obtain ⟨n, hselect, hpath⟩ := hd.select p.1.block_index.toNat i
    unfold on_encode_loop
    rw [hselect]
    cases n with
    | none => exact ⟨[], perf, by rw [List.append_nil]; rfl, List.forall_mem_nil _⟩
    | some n =>
      obtain ⟨path, hpath⟩ := hpath n rfl
      have hwire : [nt_fec_header_bytes p.1, p.2].flatten = wire p := by simp [wire]
      have hnext : ∀ perf, ∃ more perf', on_encode_loop distributor p.1 p.2 rest (i + 1)
          { tun_udp with sent := tun_udp.sent ++ [(path.dst, wire p)] } perf =
            some ({ tun_udp with sent := tun_udp.sent ++ more }, perf') ∧
            ∀ x ∈ more, x.2 = wire p := by
        intro perf
        obtain ⟨more, perf', hloop, hmore⟩ := ih (i + 1) (whole_sent hudp _) perf
        refine ⟨(path.dst, wire p) :: more, perf', ?_, List.forall_mem_cons.mpr ⟨rfl, hmore⟩⟩
        rw [hloop, List.append_assoc, List.singleton_append]
      simp only [Option.bind_eq_bind, Option.bind_some, hpath, udp_send_v, hwire]
      cases hsend : tun_udp.sendmsg (some path.src) path.dst (wire p) with
      | error err => exact hnext _
      | ok n =>
        obtain ⟨rfl, hmax⟩ := hudp _ _ _ _ hsend
        have hlen : (wire p).length = 10 + p.2.length := by simp [wire]
        have hUDP : UDP_MAX = 65507 := rfl
        have hsize : nt_fec_message_size p.1 = (wire p).length := by
          rw [hlen, nt_fec_message_size, hp,
            UInt16.toNat_ofNat_of_lt' (show p.2.length < 2 ^ 16 by omega)]
        simp only [hsize, if_true]
        exact hnext _

theorem emit_wires {distributor : nt_distributor_t} (hd : Usable distributor) (ps : List packet)
    (hps : ∀ p ∈ ps, nt_fec_header_payload_size p.1 = UInt16.ofNat p.2.length) {tun_udp : udp_t}
    (hudp : Whole tun_udp) (perf : perf_t) :
    ∃ more perf', emit (on_encode distributor) ps (some (tun_udp, perf)) =
      some ({ tun_udp with sent := tun_udp.sent ++ more }, perf') ∧
      ∀ x ∈ more, ∃ p ∈ ps, x.2 = wire p := by
  induction ps generalizing tun_udp perf with
  | nil => exact ⟨[], perf, by rw [List.append_nil]; rfl, List.forall_mem_nil _⟩
  | cons p ps ih =>
    obtain ⟨hp, hps⟩ := List.forall_mem_cons.mp hps
    obtain ⟨more, perf₁, hloop, hmore⟩ :=
      on_encode_loop_wires hd hp distributor.dup_num 0 hudp perf
    obtain ⟨more', perf', hemit, hmore'⟩ := ih hps (whole_sent hudp (tun_udp.sent ++ more)) perf₁
    refine ⟨more ++ more', perf', ?_, fun x hx => ?_⟩
    · rw [emit, List.foldl_cons]
      simp only [on_encode, Option.bind_some, hloop]
      refine Eq.trans hemit ?_
      rw [List.append_assoc]
    · rcases List.mem_append.mp hx with hx | hx
      · exact ⟨p, List.mem_cons_self, hmore x hx⟩
      · obtain ⟨q, hq, heq⟩ := hmore' x hx
        exact ⟨q, List.mem_cons_of_mem p hq, heq⟩

/-- What is dispatched is a message that is in the buffer as a whole. -/
theorem api_message_whole {max_buffer_size : Nat} {src : address_t} {buffer datagram message : List UInt8}
    (h : api_message max_buffer_size src buffer datagram = some message) :
    (nt_api_header_is_valid message ∨ nt_api2_header_is_valid message) ∧
      ∀ n, plain_size message = some n → n ≤ message.length := by
  obtain ⟨⟨v1, message'⟩, haccept, rfl⟩ := Option.map_eq_some_iff.mp h
  refine @dispatched_message max_buffer_size ⟨⟨some [⟨0, 1⟩], 0, fun _ => 0⟩, buffer, src, datagram, 0⟩
    0 message' ?_
  have haccept' : api_accept (udp_recvfrom buffer max_buffer_size datagram).1 src
    (udp_recvfrom buffer max_buffer_size datagram).2 = some (v1, message') := haccept
  unfold dispatched nt_api_handle_read
  simp only [haccept']
  rfl

/-- It is no longer than the datagram was. -/
theorem plain_size_le {max_buffer_size n : Nat} {src : address_t} {buffer datagram message : List UInt8}
    (h : api_message max_buffer_size src buffer datagram = some message)
    (hplain : plain_size message = some n) : n ≤ datagram.length := by
  obtain ⟨⟨v1, message'⟩, haccept, rfl⟩ := Option.map_eq_some_iff.mp h
  have hle : (udp_recvfrom buffer max_buffer_size datagram).2 ≤ datagram.length := Nat.min_le_right _ _
  change api_accept (udp_recvfrom buffer max_buffer_size datagram).1 src
    (udp_recvfrom buffer max_buffer_size datagram).2 = _ at haccept
  generalize udp_recvfrom buffer max_buffer_size datagram = read at haccept hle
  obtain ⟨buffer, received⟩ := read
  unfold api_accept at haccept
  simp only at haccept hle hplain
  split at haccept
  · cases haccept
  split at haccept
  · next hv1 =>
    split at haccept
    · cases haccept
    next hsize =>
    cases haccept
    have hvalid : nt_api_header_is_valid (nt_api_header_bytes
        (stamped src (nt_api_header_at buffer)) ++ nt_api_message_payload buffer) = true := by
      rw [nt_api_header_is_valid, nt_api_header_at_bytes]
      exact hv1
    replace hplain := (if_pos hvalid).symm.trans hplain
    rw [nt_api_header_at_bytes, Option.some.injEq] at hplain
    exact (hplain.symm.trans (not_not.mp hsize)).trans_le hle
  split at haccept
  · next hv1 hv2 =>
    split at haccept
    · cases haccept
    next hsize =>
    cases haccept
    simp only [nt_api2_header_is_valid, Bool.and_eq_true, beq_iff_eq, decide_eq_true_eq] at hv2
    have htag : (stamped2 src (nt_api2_header_at buffer)).tag = NT_API2_TAG := hv2.1.1
    replace hplain := (if_neg (api2_not_valid htag (nt_api2_message_payload buffer))).symm.trans hplain
    rw [nt_api2_header_at_bytes, Option.ite_none_right_eq_some, Option.some.injEq] at hplain
    exact (hplain.2.symm.trans (not_not.mp hsize)).trans_le hle
  · cases haccept

/-- An encoder without a key center: what it emits for a message goes into the tunnel. -/
theorem encoder_emits {nt_fec_encode : nt_fec_encode_t (F × idgen_t)} {encode : encode_t F}
    (hencode : Emits nt_fec_encode encode) (processor : nt_fec_processor_t (F × idgen_t))
    (hd : Usable processor.distributor) (hudp : Whole processor.tun_udp) {message : List UInt8} {n : Nat}
    (hplain : plain_size message = some n) {fec : F} {idgen : idgen_t} {ps : List packet}
    (h : encode processor.fec.1 processor.fec.2 (message.take n) = some (0, fec, idgen, ps)) :
    ∃ more perf, encoder_on_message nt_fec_encode processor message = some { processor with
        fec := (fec, idgen)
        tun_udp := { processor.tun_udp with sent := processor.tun_udp.sent ++ more }
        perf } ∧
      ∀ x ∈ more, ∃ p ∈ ps, x.2 = wire p := by
  obtain ⟨more, perf, hemit, hmore⟩ := emit_wires hd ps
    (hencode.sized _ _ _ _ h) hudp processor.perf
  have hensure : ensure_encode nt_fec_encode processor (message.take n) = some { processor with
        fec := (fec, idgen)
        tun_udp := { processor.tun_udp with sent := processor.tun_udp.sent ++ more }
        perf } := by
    have hcall := hencode.emits processor.fec (message.take n)
      (some (processor.tun_udp, processor.perf)) (on_encode processor.distributor)
      (fun _ _ _ => rfl)
    rw [h, Option.map_some, hemit] at hcall
    unfold ensure_encode
    simp only [hcall, Option.bind_eq_bind, Option.bind_some, if_true]
    rfl
  refine ⟨more, perf, ?_, hmore⟩
  unfold plain_size at hplain
  unfold encoder_on_message
  split at hplain
  · next hv1 =>
    cases hplain
    rw [if_pos hv1]
    exact hensure
  · next hv1 =>
    split at hplain
    · next hv2 =>
      cases hplain
      rw [if_neg hv1, if_pos hv2.1]
      exact (if_pos hv2.2).trans hensure
    · cases hplain

/-- It has no use for the other messages. -/
theorem encoder_counts (nt_fec_encode : nt_fec_encode_t (F × idgen_t))
    (processor : nt_fec_processor_t (F × idgen_t)) (hnone : processor.encryptor = none)
    {message : List UInt8}
    (hvalid : nt_api_header_is_valid message ∨ nt_api2_header_is_valid message)
    (hplain : plain_size message = none) :
    encoder_on_message nt_fec_encode processor message =
      some { processor with perf := perf_inc processor.perf .COUNTER_ENCRYPT_ERROR 1 } := by
  unfold plain_size at hplain
  split at hplain
  · cases hplain
  · next hv1 =>
    split at hplain
    · cases hplain
    · next hv2 =>
      have hvalid2 := hvalid.resolve_left hv1
      have hencrypted : (nt_api2_header_at message).encrypt_type ≠ NT_ENCRYPT_TYPE_NONE :=
        fun hnone => hv2 ⟨hvalid2, hnone⟩
      have hkc := for_key_center (by
        simp only [nt_api2_header_is_valid, Bool.and_eq_true, decide_eq_true_eq] at hvalid2
        exact hvalid2.2) hencrypted
      unfold encoder_on_message
      simp only [hv1, hvalid2, if_true, hnone, Option.bind_none]
      rw [if_neg Bool.false_ne_true, if_neg hencrypted, if_pos hkc]

/-! ## Datagrams -/

@[simp] theorem nt_fec_header_at_bytes (header : nt_fec_header_t) (rest : List UInt8) :
    nt_fec_header_at (nt_fec_header_bytes header ++ rest) = header := by
  obtain ⟨tag, N, K, block_id_n, block_index, payload_size_n⟩ := header
  exact (nt_fec_header_t.mk.injEq ..).mpr ⟨rfl, rfl, rfl, word_bytes block_id_n, rfl,
    half_bytes payload_size_n⟩

/-- The packet in a datagram that `nt_tun_handle_read` does not drop. -/
def packet_read (max_buffer_size : Nat) (buffer datagram : List UInt8) : Option packet :=
  let (buffer, received) := udp_recvfrom buffer max_buffer_size datagram
  let header := nt_fec_header_at buffer
  if nt_fec_message_size header ≠ received then none
  else some (header, (buffer.drop 10).take (nt_fec_header_payload_size header).toNat)

/-- A packet that is read is one that was sent. -/
theorem packet_read_wire {p q : packet}
    (hp : nt_fec_header_payload_size p.1 = UInt16.ofNat p.2.length) (hmax : (wire p).length ≤ UDP_MAX)
    {max_buffer_size : Nat} {buffer : List UInt8}
    (h : packet_read max_buffer_size buffer (wire p) = some q) : q = p := by
  have hUDP : UDP_MAX = 65507 := rfl
  have hlen : (wire p).length = 10 + p.2.length := by simp [wire]
  have hsize : (nt_fec_header_payload_size p.1).toNat = p.2.length := by
    rw [hp, UInt16.toNat_ofNat_of_lt' (show p.2.length < 2 ^ 16 by omega)]
  unfold packet_read udp_recvfrom at h
  simp only [Option.ite_none_left_eq_some, not_not] at h
  obtain ⟨hreceived, hq⟩ := h
  have hbuffer : 10 ≤ max_buffer_size := by
    rw [nt_fec_message_size] at hreceived
    omega
  have hheader : nt_fec_header_at ((wire p).take max_buffer_size ++
      buffer.drop (min max_buffer_size (wire p).length)) = p.1 := by
    rw [wire, List.take_append, List.take_of_length_le (by
      rw [length_nt_fec_header_bytes]
      exact hbuffer), List.append_assoc]
    exact nt_fec_header_at_bytes _ _
  rw [hheader] at hreceived hq
  rw [nt_fec_message_size, hsize, hlen] at hreceived
  have hwhole : (wire p).take max_buffer_size = wire p := List.take_of_length_le (by omega)
  rw [hsize, hwhole, wire, List.append_assoc, List.drop_left' (length_nt_fec_header_bytes _),
    List.take_left] at hq
  exact (Option.some.inj hq).symm

theorem tun_message_none {processor_num max_buffer_size : Nat} {buffer datagram : List UInt8}
    (h : packet_read max_buffer_size buffer datagram = none) :
    tun_message processor_num max_buffer_size buffer datagram = none := by
  unfold packet_read at h
  unfold tun_message
  simp only at h ⊢
  split at h
  · next hsize => rw [if_pos hsize]
  · cases h

/-- A decoder gets the packet with the key in place of the id. -/
theorem tun_message_some {processor_num max_buffer_size : Nat} {buffer datagram : List UInt8}
    (hnum : 0 < processor_num ∧ processor_num < 2 ^ 32) {p : packet}
    (h : packet_read max_buffer_size buffer datagram = some p) :
    ∃ q header payload message,
      nt_rs_fec.nt_tun_handle_read (UInt32.ofNat processor_num) p = some (q, header, payload) ∧
      tun_message processor_num max_buffer_size buffer datagram = some (q, message) ∧
      nt_fec_header_at message = header ∧
      (message.drop 10).take (nt_fec_header_payload_size header).toNat = payload := by
  unfold packet_read at h
  unfold tun_message
  simp only at h ⊢
  have hroom : (udp_recvfrom buffer max_buffer_size datagram).2 ≤
      (udp_recvfrom buffer max_buffer_size datagram).1.length := by
    simp only [udp_recvfrom, List.length_append, List.length_take]
    exact Nat.le_add_right _ _
  generalize udp_recvfrom buffer max_buffer_size datagram = read at h hroom
  obtain ⟨buffer, received⟩ := read
  simp only [Option.ite_none_left_eq_some, not_not] at h hroom ⊢
  obtain ⟨hreceived, hp⟩ := h
  obtain rfl := Option.some.inj hp
  have hlen : ((buffer.drop 10).take
      (nt_fec_header_payload_size (nt_fec_header_at buffer)).toNat).length =
        (nt_fec_header_payload_size (nt_fec_header_at buffer)).toNat := by
    rw [nt_fec_message_size] at hreceived
    rw [List.length_take, List.length_drop]
    omega
  have hkey : nt_fec_header_block_id (nt_fec_header_at buffer) / UInt32.ofNat processor_num =
      UInt32.ofNat ((nt_fec_header_block_id (nt_fec_header_at buffer)).toNat / processor_num) := by
    rw [← UInt32.toNat_inj, UInt32.toNat_div, UInt32.toNat_ofNat_of_lt' hnum.2,
      UInt32.toNat_ofNat_of_lt' ((Nat.div_le_self _ _).trans_lt (UInt32.toNat_lt _))]
  refine ⟨_, _, _, _, if_neg ?_, ⟨hreceived, hnum.1.ne', congrArg some (Prod.ext ?_ rfl)⟩, ?_, ?_⟩
  · rw [hlen, nt_fec_message_size]
    exact not_not.mpr rfl
  · rw [UInt32.toNat_mod, UInt32.toNat_ofNat_of_lt' hnum.2]
  · rw [nt_fec_header_at_bytes, hkey]
  · rw [List.drop_left' (length_nt_fec_header_bytes _)]
    rfl

/-! ## What an end has taken in -/

/-- The message of a turn that its encoder takes, if it is not encrypted. -/
def call_of_event (max_buffer_size : Nat) : event → Option (Nat × List UInt8)
  | .api i src buffer datagram =>
    (api_message max_buffer_size src buffer datagram).bind fun message =>
      (plain_size message).map fun n => (i, message.take n)
  | .tun .. => none

/-- The packet of a turn that a decoder takes. -/
def arrival_of_event (max_buffer_size : Nat) : event → Option arrival
  | .api .. => none
  | .tun buffer datagram clock =>
    (packet_read max_buffer_size buffer datagram).map fun p => ⟨p, clock, fun _ _ _ => 0⟩

/-- An encoder takes a message; an error fails the `ensure`. -/
def encode_call (encode : encode_t F) (s : List F × idgen_t × List packet) (call : Nat × List UInt8) :
    Option (List F × idgen_t × List packet) := do
  let fec ← s.1[call.1]?
  let (err, fec, idgen, sent) ← encode fec s.2.1 call.2
  if err ≠ 0 then none else return (s.1.set call.1 fec, idgen, s.2.2 ++ sent)

/-- All calls of the encoders, with the packets that they emit. -/
def encode_all (encode : encode_t F) (fecs : List F) (idgen : idgen_t)
    (calls : List (Nat × List UInt8)) : Option (List F × idgen_t × List packet) :=
  calls.foldlM (encode_call encode) (fecs, idgen, [])

theorem encode_all_snoc {encode : encode_t F} {fecs : List F} {idgen : idgen_t}
    {calls : List (Nat × List UInt8)} {e : List F × idgen_t × List packet}
    (h : encode_all encode fecs idgen calls = some e) (call : Nat × List UInt8) :
    encode_all encode fecs idgen (calls ++ [call]) = encode_call encode e call := by
  rw [encode_all] at h ⊢
  rw [List.foldlM_append, h, Option.bind_eq_bind, Option.bind_some, List.foldlM_cons]
  exact bind_pure _

theorem encode_call_more {encode : encode_t F} {e e' : List F × idgen_t × List packet}
    {call : Nat × List UInt8} (h : encode_call encode e call = some e') : e.2.2 ⊆ e'.2.2 := by
  simp only [encode_call, Option.bind_eq_bind, Option.bind_eq_some_iff] at h
  obtain ⟨fec, -, r, -, hok⟩ := h
  obtain ⟨-, heq⟩ := Option.ite_none_left_eq_some.mp hok
  obtain rfl := Option.some.inj heq
  exact List.subset_append_left _ _

/-- A packet comes to its decoder. -/
def decode_arrival (decode : decode_t F) (processor_num : UInt32) (s : List F × List (List UInt8))
    (a : arrival) : Option (List F × List (List UInt8)) :=
  match nt_rs_fec.nt_tun_handle_read processor_num a.packet with
  | none => some s
  | some (q, header, payload) => do
    let fec ← s.1[q]?
    let (_, fec, handed) ← decode fec header payload a.clock
    return (s.1.set q fec, s.2 ++ handed)

/-- All that the decoders get, with the messages that they hand over. -/
def decode_all (decode : decode_t F) (processor_num : UInt32) (fecs : List F)
    (arrivals : List arrival) : Option (List F × List (List UInt8)) :=
  arrivals.foldlM (decode_arrival decode processor_num) (fecs, [])

theorem decode_all_snoc {decode : decode_t F} {processor_num : UInt32} {fecs : List F}
    {arrivals : List arrival} {d : List F × List (List UInt8)}
    (h : decode_all decode processor_num fecs arrivals = some d) (a : arrival) :
    decode_all decode processor_num fecs (arrivals ++ [a]) = decode_arrival decode processor_num d a := by
  rw [decode_all] at h ⊢
  rw [List.foldlM_append, h, Option.bind_eq_bind, Option.bind_some, List.foldlM_cons]
  exact bind_pure _

section

variable {nt_fec_encode : nt_fec_encode_t (F × idgen_t)} {nt_fec_decode : nt_fec_decode_t (F × idgen_t)}
  {encode : encode_t F} {decode : decode_t F} {joined : F → F → F → Prop}

/-- After the calls with the result `e` and the arrivals with the result `d`, an end that has sent
nothing at the start has sent the packets into the tunnel and has forwarded the messages. -/
structure Follows (joined : F → F → F → Prop) (start t : tunnel_end F)
    (e : List F × idgen_t × List packet) (d : List F × List (List UInt8)) : Prop where
  size : t.max_udp_buffer_size = start.max_udp_buffer_size
  distributor : Usable t.distributor
  sockets : Whole t.api_udp ∧ Whole t.tun_udp
  count : t.fecs.length = start.fecs.length ∧ e.1.length = t.fecs.length ∧
    d.1.length = t.fecs.length
  joined : ∀ (i : Nat) (fec fe fd : F), t.fecs[i]? = some fec → e.1[i]? = some fe →
    d.1[i]? = some fd → joined fec fe fd
  idgen : t.idgen = e.2.1
  sized : ∀ p ∈ e.2.2, nt_fec_header_payload_size p.1 = UInt16.ofNat p.2.length
  tun : ∀ x ∈ t.tun_udp.sent, ∃ p ∈ e.2.2, x.2 = wire p
  api : t.api_udp.sent = d.2.filterMap forwarded

variable {start t : tunnel_end F} {e e' : List F × idgen_t × List packet}
  {d d' : List F × List (List UInt8)}

/-- The turn of an encoder. -/
theorem Follows.call (nt_fec_decode : nt_fec_decode_t (F × idgen_t))
    (hemits : Emits nt_fec_encode encode) (hhalves : Halves encode decode joined)
    (h : Follows joined start t e d) {i : Nat} {src : address_t} {buffer datagram : List UInt8}
    {call : Nat × List UInt8}
    (hcall : call_of_event t.max_udp_buffer_size (.api i src buffer datagram) = some call)
    (hencode : encode_call encode e call = some e') :
    ∃ t', end_turn nt_fec_encode nt_fec_decode t (.api i src buffer datagram) = some t' ∧
      Follows joined start t' e' d := by
  obtain ⟨message, hmessage, hsome⟩ := Option.bind_eq_some_iff.mp hcall
  obtain ⟨n, hplain, rfl⟩ := Option.map_eq_some_iff.mp hsome
  simp only [encode_call, Option.bind_eq_bind, Option.bind_eq_some_iff] at hencode
  obtain ⟨fe, hfe, ⟨err, fe', idgen', sent⟩, hone, hok⟩ := hencode
  simp only [ne_eq, Option.ite_none_left_eq_some, not_not] at hok
  obtain ⟨rfl, heq⟩ := hok
  obtain rfl := Option.some.inj heq
  have hlt : i < t.fecs.length := h.count.2.1 ▸ (List.getElem?_eq_some_iff.mp hfe).1
  have hfec := List.getElem?_eq_getElem hlt
  obtain ⟨fd, hfd⟩ : ∃ fd, d.1[i]? = some fd := ⟨_, List.getElem?_eq_getElem (h.count.2.2 ▸ hlt)⟩
  obtain ⟨fec', hone', hjoined'⟩ := hhalves.encode (h.joined i _ fe fd hfec hfe hfd) hone
  rw [← h.idgen] at hone'
  have hprocessor : processors t i = some ⟨t.distributor, t.api_udp, t.tun_udp,
      (t.fecs[i], t.idgen), none, t.perf⟩ := by
    rw [processors, hfec]
    rfl
  obtain ⟨more, perf, hturn, hmore⟩ := encoder_emits hemits
    ⟨t.distributor, t.api_udp, t.tun_udp, (t.fecs[i], t.idgen), none, t.perf⟩
    h.distributor h.sockets.2 hplain hone'
  refine ⟨{ t with
    tun_udp := { t.tun_udp with sent := t.tun_udp.sent ++ more }
    fecs := t.fecs.set i fec'
    idgen := idgen'
    perf }, ?_, ?_⟩
  · unfold end_turn
    simp only [hmessage, hprocessor, hturn, Option.bind_eq_bind, Option.bind_some]
    rfl
  · refine ⟨h.size, h.distributor, ⟨h.sockets.1, whole_sent h.sockets.2 _⟩, ?_, fun j fec fe₁ fd₁ h₁ h₂ h₃ => ?_, rfl,
      fun p hp => ?_, fun x hx => ?_, h.api⟩
    · simp only [List.length_set]
      exact h.count
    · simp only at h₁
      by_cases hij : i = j
      · subst hij
        rw [List.getElem?_set_self hlt, Option.some.injEq] at h₁
        rw [List.getElem?_set_self (h.count.2.1 ▸ hlt), Option.some.injEq] at h₂
        rw [hfd, Option.some.injEq] at h₃
        rw [← h₁, ← h₂, ← h₃]
        exact hjoined'
      · rw [List.getElem?_set_ne hij] at h₁ h₂
        exact h.joined j fec fe₁ fd₁ h₁ h₂ h₃
    · rcases List.mem_append.mp hp with hp | hp
      · exact h.sized p hp
      · exact hemits.sized _ _ _ _ hone p hp
    · rcases List.mem_append.mp hx with hx | hx
      · obtain ⟨p, hp, heq⟩ := h.tun x hx
        exact ⟨p, List.mem_append_left _ hp, heq⟩
      · obtain ⟨p, hp, heq⟩ := hmore x hx
        exact ⟨p, List.mem_append_right _ hp, heq⟩

/-- A turn of the API side without a message for an encoder. -/
theorem Follows.no_call (nt_fec_encode : nt_fec_encode_t (F × idgen_t))
    (nt_fec_decode : nt_fec_decode_t (F × idgen_t)) (h : Follows joined start t e d) {i : Nat} {src : address_t}
    {buffer datagram : List UInt8} (hi : i < start.fecs.length)
    (hcall : call_of_event t.max_udp_buffer_size (.api i src buffer datagram) = none) :
    ∃ t', end_turn nt_fec_encode nt_fec_decode t (.api i src buffer datagram) = some t' ∧
      Follows joined start t' e d := by
  cases hmessage : api_message t.max_udp_buffer_size src buffer datagram with
  | none =>
    refine ⟨t, ?_, h⟩
    unfold end_turn
    simp only [hmessage]
  | some message =>
    have hplain : plain_size message = none := by
      simpa [call_of_event, hmessage] using hcall
    have hlt : i < t.fecs.length := h.count.1 ▸ hi
    have hprocessor : processors t i = some ⟨t.distributor, t.api_udp, t.tun_udp,
        (t.fecs[i], t.idgen), none, t.perf⟩ := by
      rw [processors, List.getElem?_eq_getElem hlt]
      rfl
    have hturn := encoder_counts nt_fec_encode
      ⟨t.distributor, t.api_udp, t.tun_udp, (t.fecs[i], t.idgen), none, t.perf⟩ rfl
      (api_message_whole hmessage).1 hplain
    refine ⟨{ t with perf := perf_inc t.perf .COUNTER_ENCRYPT_ERROR 1 }, ?_, h.size, h.distributor, h.sockets,
      h.count, h.joined, h.idgen, h.sized, h.tun, h.api⟩
    have hsame : t.fecs.set i t.fecs[i] = t.fecs := List.set_getElem_self hlt
    unfold end_turn
    simp only [hmessage, hprocessor, hturn, Option.bind_eq_bind, Option.bind_some, store, hsame]
    rfl

/-- The turn of a decoder. -/
theorem Follows.arrival (hhands : HandsOver nt_fec_decode decode)
    (hhalves : Halves encode decode joined) (h : Follows joined start t e d)
    (hnum : 0 < start.fecs.length ∧ start.fecs.length < 2 ^ 32) {buffer datagram : List UInt8}
    {clock : Int} {p : packet}
    (hread : packet_read t.max_udp_buffer_size buffer datagram = some p)
    (hdecode : decode_arrival decode (UInt32.ofNat start.fecs.length) d ⟨p, clock, fun _ _ _ => 0⟩ =
      some d') :
    ∃ t', end_turn nt_fec_encode nt_fec_decode t (.tun buffer datagram clock) = some t' ∧
      Follows joined start t' e d' := by
  rw [← h.count.1] at hnum hdecode
  obtain ⟨q, header, payload, message, hdispatch, hmessage, rfl, rfl⟩ := tun_message_some hnum hread
  unfold decode_arrival at hdecode
  simp only [hdispatch, Option.bind_eq_bind, Option.bind_eq_some_iff] at hdecode
  obtain ⟨fd, hfd, ⟨err, fd', handed⟩, hone, heq⟩ := hdecode
  obtain rfl := Option.some.inj heq
  have hlt : q < t.fecs.length := h.count.2.2 ▸ (List.getElem?_eq_some_iff.mp hfd).1
  have hfec := List.getElem?_eq_getElem hlt
  obtain ⟨fe, hfe⟩ : ∃ fe, e.1[q]? = some fe := ⟨_, List.getElem?_eq_getElem (h.count.2.1 ▸ hlt)⟩
  obtain ⟨fec', hone', hjoined'⟩ := hhalves.decode (h.joined q _ fe fd hfec hfe hfd) hone
  have hprocessor : processors t q = some ⟨t.distributor, t.api_udp, t.tun_udp,
      (t.fecs[q], t.idgen), none, t.perf⟩ := by
    rw [processors, hfec]
    rfl
  obtain ⟨perf, hturn⟩ := decoder_forwards hhands
    ⟨t.distributor, t.api_udp, t.tun_udp, (t.fecs[q], t.idgen), none, t.perf⟩
    h.sockets.1 rfl hone'
  refine ⟨{ t with
    api_udp := { t.api_udp with sent := t.api_udp.sent ++ handed.filterMap forwarded }
    fecs := t.fecs.set q fec'
    perf
    failures := count_failure t.failures (failure_of err) }, ?_, ?_⟩
  · unfold end_turn
    simp only [hmessage, hprocessor, hturn, Option.bind_eq_bind, Option.bind_some]
    rfl
  · refine ⟨h.size, h.distributor, ⟨whole_sent h.sockets.1 _, h.sockets.2⟩, ?_, fun j fec fe₁ fd₁ h₁ h₂ h₃ => ?_,
      h.idgen, h.sized, h.tun, ?_⟩
    · simp only [List.length_set]
      exact h.count
    · simp only at h₁
      by_cases hij : q = j
      · subst hij
        rw [List.getElem?_set_self hlt, Option.some.injEq] at h₁
        rw [hfe, Option.some.injEq] at h₂
        rw [List.getElem?_set_self (h.count.2.2 ▸ hlt), Option.some.injEq] at h₃
        rw [← h₁, ← h₂, ← h₃]
        exact hjoined'
      · rw [List.getElem?_set_ne hij] at h₁ h₃
        exact h.joined j fec fe₁ fd₁ h₁ h₂ h₃
    · simp only
      rw [h.api, List.filterMap_append]

theorem end_turn_dropped {buffer datagram : List UInt8} {clock : Int}
    (hread : packet_read t.max_udp_buffer_size buffer datagram = none) :
    end_turn nt_fec_encode nt_fec_decode t (.tun buffer datagram clock) = some t := by
  unfold end_turn
  simp only [tun_message_none hread]

end

/-! ## The network -/

inductive peer where
  | left
  | right
  deriving DecidableEq

def peer.other : peer → peer
  | .left => .right
  | .right => .left

theorem peer.other_ne (s : peer) : s.other ≠ s := by cases s <;> decide

/-- What an end can meet: a message for one of its encoders, or any datagram that the other end has
sent before. -/
def Possible (ends : peer → tunnel_end F) (s : peer) : event → Prop
  | .api i _ _ datagram => i < (ends s).fecs.length ∧ datagram.length ≤ UDP_MAX
  | .tun _ datagram _ => datagram ∈ (ends s.other).tun_udp.sent.map Prod.snd ∧
    datagram.length ≤ UDP_MAX

/-- The states that two ends can come to, with the turns so far. -/
inductive Reaches (nt_fec_encode : nt_fec_encode_t (F × idgen_t))
    (nt_fec_decode : nt_fec_decode_t (F × idgen_t)) (start : peer → tunnel_end F) :
    List (peer × event) → (peer → tunnel_end F) → Prop
  | start : Reaches nt_fec_encode nt_fec_decode start [] start
  | turn {turns : List (peer × event)} {ends : peer → tunnel_end F} {s : peer} {e : event}
      {t : tunnel_end F} : Reaches nt_fec_encode nt_fec_decode start turns ends → Possible ends s e →
      end_turn nt_fec_encode nt_fec_decode (ends s) e = some t →
      Reaches nt_fec_encode nt_fec_decode start (turns ++ [(s, e)]) (Function.update ends s t)

/-- The turns of one end. -/
def turns_at (s : peer) (turns : List (peer × event)) : List event :=
  (turns.filter fun turn => turn.1 = s).map Prod.snd

def calls_at (max_buffer_size : Nat) (s : peer) (turns : List (peer × event)) :
    List (Nat × List UInt8) := (turns_at s turns).filterMap (call_of_event max_buffer_size)

def arrivals_at (max_buffer_size : Nat) (s : peer) (turns : List (peer × event)) : List arrival :=
  (turns_at s turns).filterMap (arrival_of_event max_buffer_size)

theorem turns_at_self (s : peer) (turns : List (peer × event)) (e : event) :
    turns_at s (turns ++ [(s, e)]) = turns_at s turns ++ [e] := by
  simp [turns_at]

theorem turns_at_ne {s s' : peer} (h : s' ≠ s) (turns : List (peer × event)) (e : event) :
    turns_at s (turns ++ [(s', e)]) = turns_at s turns := by
  simp [turns_at, h]

theorem calls_at_self (n : Nat) (s : peer) (turns : List (peer × event)) (e : event) :
    calls_at n s (turns ++ [(s, e)]) = calls_at n s turns ++ (call_of_event n e).toList := by
  rw [calls_at, turns_at_self, List.filterMap_append]
  cases h : call_of_event n e <;> simp [calls_at, h]

theorem arrivals_at_self (n : Nat) (s : peer) (turns : List (peer × event)) (e : event) :
    arrivals_at n s (turns ++ [(s, e)]) = arrivals_at n s turns ++ (arrival_of_event n e).toList := by
  rw [arrivals_at, turns_at_self, List.filterMap_append]
  cases h : arrival_of_event n e <;> simp [arrivals_at, h]

theorem calls_at_ne (n : Nat) {s s' : peer} (h : s' ≠ s) (turns : List (peer × event)) (e : event) :
    calls_at n s (turns ++ [(s', e)]) = calls_at n s turns := by
  rw [calls_at, turns_at_ne h, calls_at]

theorem arrivals_at_ne (n : Nat) {s s' : peer} (h : s' ≠ s) (turns : List (peer × event)) (e : event) :
    arrivals_at n s (turns ++ [(s', e)]) = arrivals_at n s turns := by
  rw [arrivals_at, turns_at_ne h, arrivals_at]

section

variable {nt_fec_encode : nt_fec_encode_t (F × idgen_t)} {nt_fec_decode : nt_fec_decode_t (F × idgen_t)}
  {encode : encode_t F} {decode : decode_t F} {joined : F → F → F → Prop}
  {start ends : peer → tunnel_end F}

/-- An end that has paths and has sent nothing. -/
structure Idle (t : tunnel_end F) : Prop where
  distributor : Usable t.distributor
  sockets : Whole t.api_udp ∧ Whole t.tun_udp
  sent : t.api_udp.sent = [] ∧ t.tun_udp.sent = []
  processors : 0 < t.fecs.length ∧ t.fecs.length < 2 ^ 31

/-- Both ends have done what their encoders and decoders by themselves would do, and only packets of
the other end have come to a decoder. -/
structure Followed (encode : encode_t F) (decode : decode_t F) (joined : F → F → F → Prop)
    (start : peer → tunnel_end F) (turns : List (peer × event)) (ends : peer → tunnel_end F)
    (e : peer → List F × idgen_t × List packet) (d : peer → List F × List (List UInt8)) : Prop where
  encoded : ∀ s, encode_all encode (start s).fecs (start s).idgen
    (calls_at (start s).max_udp_buffer_size s turns) = some (e s)
  decoded : ∀ s, decode_all decode (UInt32.ofNat (start s).fecs.length) (start s).fecs
    (arrivals_at (start s).max_udp_buffer_size s turns) = some (d s)
  follows : ∀ s, Follows joined (start s) (ends s) (e s) (d s)
  genuine : ∀ s, ∀ a ∈ arrivals_at (start s).max_udp_buffer_size s turns, a.packet ∈ (e s.other).2.2

theorem followed_start (hhalves : Halves encode decode joined) (hidle : ∀ s, Idle (start s)) :
    Followed encode decode joined start [] start (fun s => ((start s).fecs, (start s).idgen, []))
      fun s => ((start s).fecs, []) := by
  refine ⟨fun s => rfl, fun s => rfl, fun s => ?_, fun s => List.forall_mem_nil _⟩
  refine ⟨rfl, (hidle s).distributor, (hidle s).sockets, ⟨rfl, rfl, rfl⟩, fun i fec fe fd h₁ h₂ h₃ => ?_, rfl,
    List.forall_mem_nil _, fun x hx => ?_, (hidle s).sent.1⟩
  · rw [h₁, Option.some.injEq] at h₂ h₃
    rw [← h₂, ← h₃]
    exact hhalves.start fec
  · rw [(hidle s).sent.2] at hx
    exact absurd hx List.not_mem_nil

theorem Followed.next {turns : List (peer × event)} {e : peer → List F × idgen_t × List packet}
    {d : peer → List F × List (List UInt8)} (h : Followed encode decode joined start turns ends e d)
    {s : peer} {ev : event} {t : tunnel_end F} {es : List F × idgen_t × List packet}
    {ds : List F × List (List UInt8)} (hfollows : Follows joined (start s) t es ds)
    (hencoded : encode_all encode (start s).fecs (start s).idgen
      (calls_at (start s).max_udp_buffer_size s (turns ++ [(s, ev)])) = some es)
    (hdecoded : decode_all decode (UInt32.ofNat (start s).fecs.length) (start s).fecs
      (arrivals_at (start s).max_udp_buffer_size s (turns ++ [(s, ev)])) = some ds)
    (hmore : (e s).2.2 ⊆ es.2.2)
    (hgenuine : ∀ a ∈ arrival_of_event (start s).max_udp_buffer_size ev, a.packet ∈ (e s.other).2.2) :
    Followed encode decode joined start (turns ++ [(s, ev)]) (Function.update ends s t)
      (Function.update e s es) (Function.update d s ds) := by
  refine ⟨fun s' => ?_, fun s' => ?_, fun s' => ?_, fun s' a ha => ?_⟩
  · by_cases hs : s' = s
    · subst hs
      rw [Function.update_self]
      exact hencoded
    · rw [Function.update_of_ne hs, calls_at_ne _ (Ne.symm hs)]
      exact h.encoded s'
  · by_cases hs : s' = s
    · subst hs
      rw [Function.update_self]
      exact hdecoded
    · rw [Function.update_of_ne hs, arrivals_at_ne _ (Ne.symm hs)]
      exact h.decoded s'
  · by_cases hs : s' = s
    · subst hs
      rw [Function.update_self, Function.update_self, Function.update_self]
      exact hfollows
    · rw [Function.update_of_ne hs, Function.update_of_ne hs, Function.update_of_ne hs]
      exact h.follows s'
  · have hkept : (e s'.other).2.2 ⊆ (Function.update e s es s'.other).2.2 := by
      by_cases hs : s'.other = s
      · rw [hs, Function.update_self]
        exact hmore
      · rw [Function.update_of_ne hs]
        exact List.Subset.refl _
    refine hkept ?_
    by_cases hs : s' = s
    · subst hs
      rw [arrivals_at_self, List.mem_append, Option.mem_toList] at ha
      exact ha.elim (h.genuine s' a) (hgenuine a)
    · rw [arrivals_at_ne _ (Ne.symm hs)] at ha
      exact h.genuine s' a ha

/-- As long as the runs keep `P`, the encoders take all messages, and the decoders all packets of
the other end. -/
structure Serves (encode : encode_t F) (decode : decode_t F) (start : peer → tunnel_end F)
    (P : List (peer × event) → Prop) : Prop where
  encodes : ∀ turns, P turns → ∀ s, ∃ e, encode_all encode (start s).fecs (start s).idgen
    (calls_at (start s).max_udp_buffer_size s turns) = some e
  decodes : ∀ turns, P turns → ∀ s e, encode_all encode (start s.other).fecs (start s.other).idgen
      (calls_at (start s.other).max_udp_buffer_size s.other turns) = some e →
    (∀ a ∈ arrivals_at (start s).max_udp_buffer_size s turns, a.packet ∈ e.2.2) →
    ∃ d, decode_all decode (UInt32.ofNat (start s).fecs.length) (start s).fecs
      (arrivals_at (start s).max_udp_buffer_size s turns) = some d

variable {P : List (peer × event) → Prop}

/-- One more turn. -/
theorem Followed.turn (hemits : Emits nt_fec_encode encode) (hhands : HandsOver nt_fec_decode decode)
    (hhalves : Halves encode decode joined) (hidle : ∀ s, Idle (start s))
    (hserves : Serves encode decode start P) {turns : List (peer × event)}
    {e : peer → List F × idgen_t × List packet} {d : peer → List F × List (List UInt8)}
    (h : Followed encode decode joined start turns ends e d) {s : peer} {ev : event}
    (hpossible : Possible ends s ev) (hP : P (turns ++ [(s, ev)])) :
    ∃ t e' d', end_turn nt_fec_encode nt_fec_decode (ends s) ev = some t ∧
      Followed encode decode joined start (turns ++ [(s, ev)]) (Function.update ends s t) e' d' := by
  have hsize := (h.follows s).size
  have hcalls := calls_at_self (start s).max_udp_buffer_size s turns ev
  have harrivals := arrivals_at_self (start s).max_udp_buffer_size s turns ev
  cases ev with
  | api i src buffer datagram =>
    rw [arrival_of_event, Option.toList_none, List.append_nil] at harrivals
    cases hcall : call_of_event (start s).max_udp_buffer_size (.api i src buffer datagram) with
    | none =>
      rw [hcall, Option.toList_none, List.append_nil] at hcalls
      obtain ⟨t, hturn, hfollows⟩ := (h.follows s).no_call nt_fec_encode nt_fec_decode
        ((h.follows s).count.1 ▸ hpossible.1) (hsize ▸ hcall)
      refine ⟨t, _, _, hturn, h.next hfollows ?_ ?_ (List.Subset.refl _) ?_⟩
      · rw [hcalls]
        exact h.encoded s
      · rw [harrivals]
        exact h.decoded s
      · exact fun a ha => by cases ha
    | some call =>
      rw [hcall, Option.toList_some] at hcalls
      obtain ⟨es, hes⟩ := hserves.encodes _ hP s
      have hone := hes
      rw [hcalls, encode_all_snoc (h.encoded s)] at hone
      obtain ⟨t, hturn, hfollows⟩ := (h.follows s).call nt_fec_decode hemits hhalves (hsize ▸ hcall) hone
      refine ⟨t, _, _, hturn, h.next hfollows hes ?_ (encode_call_more hone) ?_⟩
      · rw [harrivals]
        exact h.decoded s
      · exact fun a ha => by cases ha
  | tun buffer datagram clock =>
    rw [call_of_event, Option.toList_none, List.append_nil] at hcalls
    have hes : encode_all encode (start s).fecs (start s).idgen
        (calls_at (start s).max_udp_buffer_size s (turns ++ [(s, .tun buffer datagram clock)])) =
          some (e s) := by
      rw [hcalls]
      exact h.encoded s
    cases hread : packet_read (start s).max_udp_buffer_size buffer datagram with
    | none =>
      rw [arrival_of_event, hread, Option.map_none, Option.toList_none, List.append_nil] at harrivals
      refine ⟨ends s, _, _, end_turn_dropped (hsize ▸ hread),
        h.next (h.follows s) hes ?_ (List.Subset.refl _) ?_⟩
      · rw [harrivals]
        exact h.decoded s
      · rw [arrival_of_event, hread]
        exact fun a ha => by cases ha
    | some q =>
      -- the other end has sent the packet
      obtain ⟨hsent, hmax⟩ := hpossible
      obtain ⟨x, hx, rfl⟩ := List.mem_map.mp hsent
      obtain ⟨p, hp, hwire⟩ := (h.follows s.other).tun x hx
      have hread' := hread
      rw [hwire] at hread' hmax
      obtain rfl := packet_read_wire ((h.follows s.other).sized p hp) hmax hread'
      have hgenuine : ∀ a ∈ arrival_of_event (start s).max_udp_buffer_size (.tun buffer x.2 clock),
          a.packet ∈ (e s.other).2.2 := by
        rw [arrival_of_event, hread]
        intro a ha
        obtain rfl := Option.some.inj ha
        exact hp
      have hall : ∀ a ∈ arrivals_at (start s).max_udp_buffer_size s
          (turns ++ [(s, .tun buffer x.2 clock)]), a.packet ∈ (e s.other).2.2 := by
        rw [harrivals]
        intro a ha
        rw [List.mem_append, Option.mem_toList] at ha
        exact ha.elim (h.genuine s a) (hgenuine a)
      rw [arrival_of_event, hread, Option.map_some, Option.toList_some] at harrivals
      obtain ⟨ds, hds⟩ := hserves.decodes _ hP s (e s.other) (by
        rw [calls_at_ne _ s.other_ne.symm]
        exact h.encoded s.other) hall
      have hone := hds
      rw [harrivals, decode_all_snoc (h.decoded s)] at hone
      obtain ⟨t, hturn, hfollows⟩ := (h.follows s).arrival hhands hhalves
        ⟨(hidle s).processors.1, (hidle s).processors.2.trans (by decide)⟩ (hsize ▸ hread) hone
      exact ⟨t, _, _, hturn, h.next hfollows hes hds (List.Subset.refl _) hgenuine⟩

/-- However the turns of both ends interleave, a run that keeps `P` is followed. -/
theorem followed_run (hemits : Emits nt_fec_encode encode) (hhands : HandsOver nt_fec_decode decode)
    (hhalves : Halves encode decode joined) (hidle : ∀ s, Idle (start s))
    (hserves : Serves encode decode start P)
    (hbefore : ∀ turns turn, P (turns ++ [turn]) → P turns) {turns : List (peer × event)}
    (h : Reaches nt_fec_encode nt_fec_decode start turns ends) (hP : P turns) :
    ∃ e d, Followed encode decode joined start turns ends e d := by
  induction h with
  | start => exact ⟨_, _, followed_start hhalves hidle⟩
  | turn _ hpossible hturn ih =>
    obtain ⟨e, d, hfollowed⟩ := ih (hbefore _ _ hP)
    obtain ⟨t, e', d', hturn', hnext⟩ :=
      hfollowed.turn hemits hhands hhalves hidle hserves hpossible hP
    rw [hturn, Option.some.injEq] at hturn'
    subst hturn'
    exact ⟨e', d', hnext⟩

end

end nettle.tunnel
