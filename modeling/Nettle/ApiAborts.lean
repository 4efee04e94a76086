-- Messages of every size that the listener accepts, at an encoder in any state
-- that it can reach: which of them make it abort.
import Nettle.ApiMessages
import Nettle.DecoderBuffers
import Nettle.DistributorPaths
import Nettle.EncoderStream

open nettle.nt_distributor nettle.nt_fec nettle.nt_listener nettle.nt_processor nettle.nt_proto
open nettle.nt_rs_fec nettle.rs nettle.udp

namespace nettle.nt_api

/-! ## The model -/

/-- The Reed-Solomon FEC with the id generator behind `nt_fec_encode`. -/
def rs_fec_encode : nt_fec_encode_t (nt_rs_fec_t × idgen_t) := fun fec input extra callback =>
  (nt_rs_fec_encode fec.1 fec.2 input extra callback).map fun r =>
    (r.1, (r.2.1, r.2.2.1), r.2.2.2)

/-- A datagram that comes to the API port, with the state of the listener then and the id that the
generator is at when the encoder takes the message. -/
structure api_event where
  context : nt_fec_listener_context_t
  buffer : List UInt8
  src : address_t
  datagram : List UInt8
  idgen : idgen_t

/-- The message that is dispatched for a datagram. -/
def dispatched (max_buffer_size : Nat) (event : api_event) : Option (Nat × List UInt8) :=
  (nt_api_handle_read event.context max_buffer_size (some event.buffer)
    (.ok (event.src, event.datagram))).2

/-- One encoder that gets all the messages. -/
def encoder_run (max_buffer_size : Nat) : nt_fec_processor_t (nt_rs_fec_t × idgen_t) →
    List api_event → Option (nt_fec_processor_t (nt_rs_fec_t × idgen_t))
  | processor, [] => some processor
  | processor, event :: events =>
    match dispatched max_buffer_size event with
    | none => encoder_run max_buffer_size processor events
    | some (_, message) =>
      match encoder_on_message rs_fec_encode
          { processor with fec := (processor.fec.1, event.idgen) } message with
      | none => none
      | some processor => encoder_run max_buffer_size processor events

/-- The size of a message that is not encrypted. -/
def plain_size (message : List UInt8) : Option Nat :=
  if nt_api_header_is_valid message then some (nt_api_message_size (nt_api_header_at message))
  else if nt_api2_header_is_valid message ∧
      (nt_api2_header_at message).encrypt_type = NT_ENCRYPT_TYPE_NONE then
    some (nt_api2_message_size (nt_api2_header_at message))
  else none

/-! ## Into the tunnel -/

theorem whole_sent {udp : udp_t} (h : Whole udp) (sent : List (address_t × List UInt8)) :
    Whole { udp with sent } := h

/-- On its paths no `ensure` fails for a packet whose header has the size of its payload. -/
theorem on_encode_loop_some {distributor : nt_distributor_t} (hd : Usable distributor) {p : packet}
    (hp : nt_fec_header_payload_size p.1 = UInt16.ofNat p.2.length) (rest i : Nat) {tun_udp : udp_t}
    (hudp : Whole tun_udp) (perf : perf_t) :
    ∃ tun_udp' perf', on_encode_loop distributor p.1 p.2 rest i tun_udp perf =
      some (tun_udp', perf') ∧ Whole tun_udp' := by
  induction rest generalizing i tun_udp perf with
  | zero => exact ⟨tun_udp, perf, rfl, hudp⟩
  | succ rest ih =>
    obtain ⟨n, hselect, hpath⟩ := hd.select p.1.block_index.toNat i
    unfold on_encode_loop
    rw [hselect]
    cases n with
    | none => exact ⟨tun_udp, perf, rfl, hudp⟩
    | some n =>
      obtain ⟨path, hpath⟩ := hpath n rfl
      simp only [Option.bind_eq_bind, Option.bind_some, hpath, udp_send_v]
      cases hsend : tun_udp.sendmsg (some path.src) path.dst
          [nt_fec_header_bytes p.1, p.2].flatten with
      | error err => exact ih (i + 1) (whole_sent hudp _) _
      | ok n =>
        obtain ⟨rfl, hmax⟩ := hudp _ _ _ _ hsend
        have hlen : [nt_fec_header_bytes p.1, p.2].flatten.length = 10 + p.2.length := by simp
        have hUDP : UDP_MAX = 65507 := rfl
        have hsize : nt_fec_message_size p.1 = 10 + p.2.length := by
          rw [nt_fec_message_size, hp,
            UInt16.toNat_ofNat_of_lt' (show p.2.length < 2 ^ 16 by omega)]
        simp only [hlen, hsize, if_true]
        exact ih (i + 1) (whole_sent hudp _) _

theorem emit_on_encode {distributor : nt_distributor_t} (hd : Usable distributor) (ps : List packet)
    (hps : ∀ p ∈ ps, nt_fec_header_payload_size p.1 = UInt16.ofNat p.2.length) {tun_udp : udp_t}
    (hudp : Whole tun_udp) (perf : perf_t) :
    ∃ tun_udp' perf', emit (on_encode distributor) ps (some (tun_udp, perf)) =
      some (tun_udp', perf') ∧ Whole tun_udp' := by
  induction ps generalizing tun_udp perf with
  | nil => exact ⟨tun_udp, perf, rfl, hudp⟩
  | cons p ps ih =>
    obtain ⟨tun_udp₁, perf₁, hloop, hudp₁⟩ := on_encode_loop_some hd
      (hps p List.mem_cons_self) distributor.dup_num 0 hudp perf
    obtain ⟨tun_udp', perf', hemit, hudp'⟩ :=
      ih (fun q hq => hps q (List.mem_cons_of_mem p hq)) hudp₁ perf₁
    refine ⟨tun_udp', perf', ?_, hudp'⟩
    rw [emit, List.foldl_cons]
    simp only [on_encode, Option.bind_some, hloop]
    exact hemit

/-- Without a row the first packet divides by zero, and nothing comes after it. -/
theorem emit_pathless {distributor : nt_distributor_t} (hrows : distributor.seq_num = 0)
    (hdup : 0 < distributor.dup_num) (p : packet) (ps : List packet) (extra : tun_state) :
    emit (on_encode distributor) (p :: ps) extra = none := by
  have hnone : ∀ ps : List packet, emit (on_encode distributor) ps none = none := fun ps => by
    induction ps with
    | nil => rfl
    | cons p ps ih => exact ih
  have hfirst : (on_encode distributor extra p.1 p.2).2 = none := by
    cases extra with
    | none => rfl
    | some s =>
      obtain ⟨rest, hrest⟩ := Nat.exists_eq_succ_of_ne_zero hdup.ne'
      have hselect : nt_distributor_select distributor p.1.block_index.toNat 0 = none := by
        unfold nt_distributor_select
        rw [if_neg (by omega), if_pos hrows]
      simp only [on_encode, Option.bind_some, hrest, Nat.succ_eq_add_one, on_encode_loop, hselect,
        Option.bind_eq_bind, Option.bind_none]
  rw [emit, List.foldl_cons, hfirst]
  exact hnone ps

theorem payload_size_call_packets {rs : rs_t} {block_id : UInt32} {messages : List (List UInt8)}
    {input : List UInt8} {p : packet} (h : p ∈ call_packets rs block_id messages input) :
    nt_fec_header_payload_size p.1 = UInt16.ofNat p.2.length := by
  rcases List.mem_cons.mp h with rfl | h
  · exact payload_size_init ..
  · split at h
    · obtain ⟨r, -, rfl⟩ := List.mem_map.mp h
      exact payload_size_init ..
    · cases h

section

variable {N K D : Nat} {block_id : UInt32} {messages : List (List UInt8)}
  {distributor : nt_distributor_t} {processor : nt_fec_processor_t (nt_rs_fec_t × idgen_t)}

/-- The encoder is in the middle of a block. -/
def Ready (N K D : Nat) (distributor : nt_distributor_t)
    (processor : nt_fec_processor_t (nt_rs_fec_t × idgen_t)) : Prop :=
  (∃ block_id messages, Encoding N K D block_id messages processor.fec.1 ∧ messages.length < K) ∧
    processor.distributor = distributor ∧ Whole processor.tun_udp ∧ processor.encryptor = none

/-- A message that fits is encoded, and the encoder goes on. -/
theorem encode_fits (hp : Params N K) (hd : Usable distributor) (h : Ready N K D distributor processor)
    {input : List UInt8} (hsize : input.length ≤ D) :
    ∃ processor', ensure_encode rs_fec_encode processor input = some processor' ∧
      Ready N K D distributor processor' := by
  obtain ⟨⟨block_id, messages, henc, hroom⟩, rfl, hudp, hnone⟩ := h
  obtain ⟨err, fec', idgen', hcall, hok, hnext⟩ := nt_rs_fec_encode_spec hp henc hroom hsize
    (fun _ => 0) processor.fec.2
  rw [until_error_ok] at hcall
  obtain rfl := hok fun _ => rfl
  obtain ⟨tun_udp', perf', hemit, hudp'⟩ := emit_on_encode hd
    (call_packets (rs_init N K D) block_id messages input)
    (fun p => payload_size_call_packets) hudp processor.perf
  unfold ensure_encode rs_fec_encode
  rw [encode_accepting (fun _ _ _ => rfl), hcall]
  simp only [Option.map_some, Option.bind_eq_bind, Option.bind_some, hemit, if_true]
  refine ⟨_, rfl, ?_, rfl, hudp', hnone⟩
  rcases hnext with ⟨-, -, henc', -⟩ | ⟨hmid, henc', -⟩
  · exact ⟨_, [], henc', hp.pos⟩
  · refine ⟨_, _, henc', ?_⟩
    rw [List.length_append, List.length_singleton]
    have : messages.length + 1 ≠ K := fun hlast => hmid ⟨hlast, rfl⟩
    omega

/-- A message that does not fit fails the `ensure` behind `rs_encode`. -/
theorem encode_oversize (h : Ready N K D distributor processor) {input : List UInt8}
    (hsize : D < input.length) : ensure_encode rs_fec_encode processor input = none := by
  obtain ⟨⟨block_id, messages, henc, -⟩, -⟩ := h
  have hencode : rs_encode processor.fec.1.rs processor.fec.1.encode_buffer.buffer input =
      some (processor.fec.1.encode_buffer.buffer, .error .E_RS_INVALID_SIZE) := by
    rw [rs_encode, henc.rs]
    exact if_pos hsize
  unfold ensure_encode rs_fec_encode nt_rs_fec_encode
  rw [hencode]
  rfl

/-- A message that fits needs a path. -/
theorem encode_pathless (hp : Params N K) (hrows : distributor.seq_num = 0)
    (hdup : 0 < distributor.dup_num) (h : Ready N K D distributor processor) {input : List UInt8}
    (hsize : input.length ≤ D) : ensure_encode rs_fec_encode processor input = none := by
  obtain ⟨⟨block_id, messages, henc, hroom⟩, rfl, -⟩ := h
  obtain ⟨err, fec', idgen', hcall, -, -⟩ := nt_rs_fec_encode_spec hp henc hroom hsize
    (fun _ => 0) processor.fec.2
  rw [until_error_ok] at hcall
  unfold ensure_encode rs_fec_encode
  rw [encode_accepting (fun _ _ _ => rfl), hcall, call_packets]
  simp only [Option.map_some, Option.bind_eq_bind, Option.bind_some, emit_pathless hrows hdup,
    Option.bind_none]

/-- A message of this size, if it is not encrypted, is encoded just if it fits and there is a path;
one that is encrypted does not get that far. -/
theorem encoder_step (hp : Params N K) (hd : 0 < distributor.seq_num → Usable distributor)
    (hdup : 0 < distributor.dup_num) (h : Ready N K D distributor processor) {message : List UInt8}
    (hsize : ∀ n, plain_size message = some n → n ≤ message.length)
    (hvalid : nt_api_header_is_valid message ∨ nt_api2_header_is_valid message) :
    (∃ processor', encoder_on_message rs_fec_encode processor message = some processor' ∧
        Ready N K D distributor processor' ∧
        ∀ n, plain_size message = some n → n ≤ D ∧ 0 < distributor.seq_num) ∨
      encoder_on_message rs_fec_encode processor message = none ∧
        ∃ n, plain_size message = some n ∧ ¬(n ≤ D ∧ 0 < distributor.seq_num) := by
  have htake : ∀ n, plain_size message = some n →
      encoder_on_message rs_fec_encode processor message =
        ensure_encode rs_fec_encode processor (message.take n) := by
    intro n hn
    unfold plain_size at hn
    unfold encoder_on_message
    split at hn
    · next hv1 =>
      cases hn
      rw [if_pos hv1]
    · next hv1 =>
      split at hn
      · next hv2 =>
        cases hn
        rw [if_neg hv1, if_pos hv2.1]
        exact if_pos hv2.2
      · cases hn
  cases hplain : plain_size message with
  | some n =>
    have hlen : (message.take n).length = n := List.length_take_of_le (hsize n hplain)
    rw [htake n hplain]
    rcases Nat.lt_or_ge D n with hover | hfits
    · exact Or.inr ⟨encode_oversize h (hlen.symm ▸ hover), n, rfl, by omega⟩
    · rcases Nat.eq_zero_or_pos distributor.seq_num with hrows | hrows
      · exact Or.inr ⟨encode_pathless hp hrows hdup h (hlen.symm ▸ hfits), n, rfl, by omega⟩
      · obtain ⟨processor', hencode, h'⟩ := encode_fits hp (hd hrows) h (hlen.symm ▸ hfits)
        exact Or.inl ⟨processor', hencode, h', fun m hm => by cases hm; exact ⟨hfits, hrows⟩⟩
  | none =>
    refine Or.inl ⟨{ processor with
      perf := perf_inc processor.perf .COUNTER_ENCRYPT_ERROR 1 }, ?_, h, nofun⟩
    unfold plain_size at hplain
    split at hplain
    · cases hplain
    · next hv1 =>
      split at hplain
      · cases hplain
      · next hv2 =>
        have hvalid2 := hvalid.resolve_left hv1
        have htype : (nt_api2_header_at message).encrypt_type < NT_ENCRYPT_TYPE_NUM := by
          simp only [nt_api2_header_is_valid, Bool.and_eq_true, decide_eq_true_eq] at hvalid2
          exact hvalid2.2
        have hencrypted : (nt_api2_header_at message).encrypt_type ≠ NT_ENCRYPT_TYPE_NONE :=
          fun hnone => hv2 ⟨hvalid2, hnone⟩
        unfold encoder_on_message
        simp only [hv1, hvalid2, if_true, h.2.2.2, Option.bind_none]
        rw [if_neg Bool.false_ne_true, if_neg hencrypted, if_pos (for_key_center htype hencrypted)]

/-- What is dispatched is a message that is in the buffer as a whole. -/
theorem dispatched_message {max_buffer_size : Nat} {event : api_event} {index : Nat}
    {message : List UInt8} (h : dispatched max_buffer_size event = some (index, message)) :
    (nt_api_header_is_valid message ∨ nt_api2_header_is_valid message) ∧
      ∀ n, plain_size message = some n → n ≤ message.length := by
  obtain ⟨v1, haccept⟩ := handle_read_accepted h
  have hlen : (udp_recvfrom event.buffer max_buffer_size event.datagram).2 ≤
      (udp_recvfrom event.buffer max_buffer_size event.datagram).1.length := by
    simp only [udp_recvfrom, List.length_append, List.length_take]
    exact Nat.le_add_right _ _
  generalize udp_recvfrom event.buffer max_buffer_size event.datagram = read at haccept hlen
  obtain ⟨buffer, received⟩ := read
  unfold api_accept at haccept
  simp only at haccept hlen
  split at haccept
  · cases haccept
  split at haccept
  · next hv1 =>
    split at haccept
    · cases haccept
    next hsize =>
    cases haccept
    have hvalid : nt_api_header_is_valid (nt_api_header_bytes
        (stamped event.src (nt_api_header_at buffer)) ++ nt_api_message_payload buffer) = true := by
      rw [nt_api_header_is_valid, nt_api_header_at_bytes]
      exact hv1
    refine ⟨Or.inl hvalid, fun n hn => ?_⟩
    replace hn := (if_pos hvalid).symm.trans hn
    rw [nt_api_header_at_bytes, Option.some.injEq] at hn
    rw [not_not] at hsize
    have hn' : n = received := hn.symm.trans hsize
    have hmin : 19 ≤ received := by
      rw [← hsize, nt_api_message_size]
      exact Nat.le_add_right _ _
    rw [List.length_append, length_nt_api_header_bytes, nt_api_message_payload, List.length_drop]
    omega
  split at haccept
  · next hv1 hv2 =>
    split at haccept
    · cases haccept
    next hsize =>
    cases haccept
    have hv2' := hv2
    simp only [nt_api2_header_is_valid, Bool.and_eq_true, beq_iff_eq, decide_eq_true_eq] at hv2'
    have htag : (stamped2 event.src (nt_api2_header_at buffer)).tag = NT_API2_TAG := hv2'.1.1
    have htype : (stamped2 event.src (nt_api2_header_at buffer)).encrypt_type <
      NT_ENCRYPT_TYPE_NUM := hv2'.2
    have hvalid := api2_is_valid htag htype (nt_api2_message_payload buffer)
    have hnot := api2_not_valid htag (nt_api2_message_payload buffer)
    refine ⟨Or.inr hvalid, fun n hn => ?_⟩
    replace hn := (if_neg hnot).symm.trans hn
    rw [nt_api2_header_at_bytes, Option.ite_none_right_eq_some, Option.some.injEq] at hn
    rw [not_not] at hsize
    have hn' : n = received := hn.2.symm.trans hsize
    have hmin : 28 ≤ received := by
      rw [← hsize, nt_api2_message_size]
      exact Nat.le_add_right _ _
    rw [List.length_append, length_nt_api2_header_bytes, nt_api2_message_payload, List.length_drop]
    omega
  · cases haccept

/-- A run of the encoder aborts just if it comes to a message that is not encrypted and does not
fit or has no path. -/
theorem encoder_run_iff (hp : Params N K) (hd : 0 < distributor.seq_num → Usable distributor)
    (hdup : 0 < distributor.dup_num) (max_buffer_size : Nat) (events : List api_event)
    (h : Ready N K D distributor processor) :
    encoder_run max_buffer_size processor events ≠ none ↔
      ∀ event ∈ events, ∀ index message n, dispatched max_buffer_size event = some (index, message) →
        plain_size message = some n → n ≤ D ∧ 0 < distributor.seq_num := by
  induction events generalizing processor with
  | nil => exact ⟨fun _ => nofun, fun _ => nofun⟩
  | cons event events ih =>
    rw [List.forall_mem_cons]
    unfold encoder_run
    cases hdispatch : dispatched max_buffer_size event with
    | none => exact (ih h).trans ⟨fun hrest => ⟨nofun, hrest⟩, fun hall => hall.2⟩
    | some sent =>
      obtain ⟨index, message⟩ := sent
      obtain ⟨hvalid, hwhole⟩ := dispatched_message hdispatch
      have hready : Ready N K D distributor
        { processor with fec := (processor.fec.1, event.idgen) } := h
      simp only
      rcases encoder_step hp hd hdup hready hwhole hvalid with ⟨processor', hencode, h', hfits⟩ |
        ⟨habort, n, hsize, hover⟩
      · rw [hencode, ih h']
        refine ⟨fun hrest => ⟨fun _ _ n heq hn => ?_, hrest⟩, fun hall => hall.2⟩
        cases heq
        exact hfits n hn
      · rw [habort]
        refine ⟨fun hnone => absurd rfl hnone, fun hall => ?_⟩
        exact absurd (hall.1 index message n rfl hsize) hover

end

/-- From its start on, and with no key center, an encoder survives a run of datagrams exactly if
every message that it gets, encrypted ones apart, is no longer than `max_fec_data_size` and finds a
table that starts with a path. -/
theorem the_encoder_survives_iff {N K : UInt8} (hp : Params N.toNat K.toNat)
    {max_fec_data_size decode_buffer_num : Nat} {decode_timeout : Int} {first idgen : idgen_t}
    {perf : perf_t} {fec : nt_rs_fec_t}
    (hinit : nt_rs_fec_init N K max_fec_data_size decode_buffer_num decode_timeout first perf =
      some (fec, idgen))
    {paths : List nt_path_t} {path_num : Int} {seq2addr : List Int} {seq_num dup_num : Int}
    (hpaths : path_num ≤ paths.length) (hseq_num : 0 ≤ seq_num) (hdup_num : 1 ≤ dup_num)
    (htable : (seq2addr.length : Int) = seq_num * dup_num)
    {processor : nt_fec_processor_t (nt_rs_fec_t × idgen_t)} (hfec : processor.fec = (fec, idgen))
    (hdistributor : nt_distributor_init paths path_num seq2addr seq_num dup_num =
      some processor.distributor)
    (hudp : Whole processor.tun_udp) (hnone : processor.encryptor = none)
    (max_udp_buffer_size : Nat) (events : List api_event) :
    encoder_run max_udp_buffer_size processor events ≠ none ↔
      ∀ event ∈ events, ∀ index message n,
        dispatched max_udp_buffer_size event = some (index, message) →
        plain_size message = some n → n ≤ max_fec_data_size ∧ ∃ path ∈ seq2addr.head?, 0 ≤ path := by
  obtain ⟨hdup, husable, hhead⟩ := usable_of_init hpaths hseq_num hdup_num htable hdistributor
  rw [hhead]
  exact encoder_run_iff hp husable hdup max_udp_buffer_size events
    ⟨⟨_, [], by rw [hfec]; exact (nt_rs_fec_init_encoding hinit).1, hp.pos⟩, rfl, hudp, hnone⟩

/-- The shipped configuration. -/
theorem shipped_encoder : ∃ fec idgen,
    nt_rs_fec_init 10 6 2000 4000 2000 0 (fun _ => 0) = some (fec, idgen) := by
  obtain ⟨fec, idgen, hinit, -⟩ := nt_rs_fec_init_shelved 10 6 2000 (B := 4000)
    ⟨by decide, by decide⟩ 2000 0 (fun _ => 0)
  exact ⟨fec, idgen, hinit⟩

/-- A processor that takes messages for a FEC and has one path for its packets. -/
def fec_processor (fec : nt_rs_fec_t) (idgen : idgen_t) :
    nt_fec_processor_t (nt_rs_fec_t × idgen_t) :=
  { idle_processor with
    distributor := ⟨[⟨.addr_in 1 1, .addr_in 2 2⟩], [0], 1, 1⟩
    fec := (fec, idgen) }

theorem one_path (fec : nt_rs_fec_t) (idgen : idgen_t) :
    nt_distributor_init [⟨.addr_in 1 1, .addr_in 2 2⟩] 1 [0] 1 1 =
      some (fec_processor fec idgen).distributor := rfl

/-- A datagram of version 1 with so many bytes of payload. -/
def long_datagram (n : Nat) : api_event where
  context := ⟨some [⟨0, 1⟩], 0, fun _ => 0⟩
  buffer := []
  src := .addr_in 5 6
  datagram := nt_api_header_bytes (nt_api_header_init 7 0 0 3 4 (UInt16.ofNat n)) ++
    List.replicate n 0
  idgen := 0

theorem long_datagram_dispatched {n : Nat} (max_buffer_size : Nat) (hn : n < 2 ^ 16)
    (hfit : 19 + n ≤ max_buffer_size) : ∃ message,
      dispatched max_buffer_size (long_datagram n) = some (0, message) ∧
      plain_size message = some (19 + n) := by
  have hm : Message (nt_api_header_init 7 0 0 3 4 (UInt16.ofNat n)) (List.replicate n 0) := by
    have hm := message_init 7 0 3 0 4 (List.replicate n 0) (by rwa [List.length_replicate])
    rwa [List.length_replicate] at hm
  have haccept := accept_message hm (.addr_in 5 6) (by decide) []
  rw [List.append_nil, List.length_replicate] at haccept
  have hlen : (long_datagram n).datagram.length = 19 + n := by simp [long_datagram]
  have hread := recvfrom_fits [] (hlen.trans_le hfit)
  rw [List.drop_nil, List.append_nil] at hread
  have hm' := hm.stamped (.addr_in 5 6)
  have hsize : plain_size (nt_api_header_bytes (stamped (.addr_in 5 6)
      (nt_api_header_init 7 0 0 3 4 (UInt16.ofNat n))) ++ List.replicate n 0) = some (19 + n) := by
    rw [plain_size, if_pos (hm'.is_valid _), nt_api_header_at_bytes, hm'.message_size,
      List.length_replicate]
  refine ⟨_, ?_, hsize⟩
  unfold dispatched nt_api_handle_read
  rw [show (long_datagram n).buffer = [] from rfl]
  simp only [hread, hlen]
  rw [show (long_datagram n).src = .addr_in 5 6 from rfl, show (long_datagram n).datagram =
    nt_api_header_bytes (nt_api_header_init 7 0 0 3 4 (UInt16.ofNat n)) ++ List.replicate n 0
    from rfl, haccept]
  rfl

/-- In the shipped configuration, a datagram of 2000 bytes is encoded. -/
theorem the_encoder_survives_full_size : ∃ fec idgen,
    nt_rs_fec_init 10 6 2000 4000 2000 0 (fun _ => 0) = some (fec, idgen) ∧
    encoder_run 4000 (fec_processor fec idgen) [long_datagram 1981] ≠ none := by
  obtain ⟨fec, idgen, hinit⟩ := shipped_encoder
  obtain ⟨message, hdispatch, hsize⟩ := long_datagram_dispatched (n := 1981) 4000
    (by decide) (by decide)
  refine ⟨fec, idgen, hinit, (the_encoder_survives_iff ⟨by decide, by decide, by decide⟩ hinit
    (by decide) (by decide) (by decide) (by decide) rfl (one_path fec idgen) whole_open_udp rfl
    4000 _).mpr ?_⟩
  intro event hevent index message' n hevent' hn
  obtain rfl := List.mem_singleton.mp hevent
  rw [hdispatch] at hevent'
  cases hevent'
  rw [hsize] at hn
  cases hn
  exact ⟨by decide, 0, rfl, le_refl 0⟩

/-- One more byte, and it aborts. -/
theorem a_long_message_aborts : ∃ fec idgen,
    nt_rs_fec_init 10 6 2000 4000 2000 0 (fun _ => 0) = some (fec, idgen) ∧
    (∃ message, dispatched 4000 (long_datagram 1982) = some (0, message) ∧
      plain_size message = some 2001) ∧
    encoder_run 4000 (fec_processor fec idgen) [long_datagram 1982] = none := by
  obtain ⟨fec, idgen, hinit⟩ := shipped_encoder
  obtain ⟨message, hdispatch, hsize⟩ := long_datagram_dispatched (n := 1982) 4000
    (by decide) (by decide)
  refine ⟨fec, idgen, hinit, ⟨message, hdispatch, hsize⟩, ?_⟩
  by_contra halive
  have hp : Params 10 6 := ⟨by decide, by decide, by decide⟩
  have hready : Ready 10 6 2000 (fec_processor fec idgen).distributor (fec_processor fec idgen) :=
    ⟨⟨_, [], (nt_rs_fec_init_encoding hinit).1, hp.pos⟩, rfl, whole_open_udp, rfl⟩
  have husable : Usable (fec_processor fec idgen).distributor :=
    (usable_of_init (by decide) (by decide) (by decide) (by decide) (one_path fec idgen)).2.1
      Nat.one_pos
  have hfits := (encoder_run_iff hp (fun _ => husable) Nat.one_pos 4000 _ hready).mp halive _
    List.mem_cons_self 0 message 2001 hdispatch hsize
  exact absurd hfits.1 (by decide)

end nettle.nt_api
