-- What the encoder of nt_rs_fec.c hands to its callback: packet by packet for
-- one call, then over runs, with a callback that may refuse any packet and
-- with several encoders on one id generator.
import Nettle.NtRsFec
import Nettle.RsBlock

open nettle.nt_fec nettle.rs

namespace nettle.nt_rs_fec

abbrev packet := nt_fec_header_t × List UInt8

/-! ## The packets of a block -/

/-- Packet `i` of a block, with a payload. -/
def packet_at (rs : rs_t) (block_id : UInt32) (i : Nat) (payload : List UInt8) : packet :=
  (nt_fec_header_init NT_RS_FEC_TAG (UInt8.ofNat rs.N) (UInt8.ofNat rs.K) block_id (UInt8.ofNat i)
    (UInt16.ofNat payload.length), payload)

/-- The redundant packets of a block. -/
def redundant_packets (rs : rs_t) (block_id : UInt32) (messages : List (List UInt8)) :
    List packet :=
  (List.range (T_SIZE rs)).map fun r =>
    packet_at rs block_id (rs.K + r) (redundant rs messages r)

/-- What one call emits after the messages of its block so far: the raw packet, and all
redundant ones directly after the last message. -/
def call_packets (rs : rs_t) (block_id : UInt32) (messages : List (List UInt8))
    (input : List UInt8) : List packet :=
  packet_at rs block_id messages.length input ::
    if messages.length + 1 = rs.K then redundant_packets rs block_id (messages ++ [input]) else []

/-- A callback that notes every packet and fails as told by the packet's index. -/
def offer (errors : Nat → error_t) (sent : List packet) (header : nt_fec_header_t)
    (payload : List UInt8) : error_t × List packet :=
  (errors header.block_index.toNat, sent ++ [(header, payload)])

/-- The packets up to the first that is refused, that one included. -/
def until_error (errors : Nat → error_t) : List packet → List packet
  | [] => []
  | p :: ps => p :: if errors p.1.block_index.toNat ≠ 0 then [] else until_error errors ps

theorem until_error_ok (ps : List packet) : until_error (fun _ => 0) ps = ps := by
  induction ps with
  | nil => rfl
  | cons p ps ih => simp [until_error, ih]

/-! ## One call of the encoder -/

/-- The encoder is in the middle of a block with these messages. -/
structure Encoding (N K D : Nat) (block_id : UInt32) (messages : List (List UInt8))
    (fec : nt_rs_fec_t) : Prop where
  rs : fec.rs = rs_init N K D
  block_id : fec.encode_buffer.block_id = block_id
  encoded : Encoded fec.rs messages fec.encode_buffer.buffer

theorem encoding_reset {N K D : Nat} {fec : nt_rs_fec_t} (h : fec.rs = rs_init N K D)
    (idgen : idgen_t) : Encoding N K D idgen [] (reset_encode_buffer fec idgen).1 :=
  ⟨h, rfl, encoded_reset fec.rs fec.encode_buffer.buffer⟩

theorem encode_header_raw (fec : nt_rs_fec_t) {i : Nat} (hi : i < fec.rs.N)
    (payload : List UInt8) :
    (encode_header fec (fec.rs.N - 1 - i) payload.length, payload) =
      packet_at fec.rs fec.encode_buffer.block_id i payload := by
  unfold encode_header packet_at
  simp only
  rw [show fec.rs.N - 1 - (fec.rs.N - 1 - i) = i by omega]

/-- The loop over the redundant packets stops at the first that is refused. -/
theorem encode_loop_spec (fec : nt_rs_fec_t) {messages : List (List UInt8)}
    (h : Encoded fec.rs messages fec.encode_buffer.buffer) (hKN : fec.rs.K < fec.rs.N)
    (errors : Nat → error_t) (rest i : Nat) (hi : i + rest = T_SIZE fec.rs) (sent : List packet) :
    (encode_loop fec (offer errors) rest i sent).2 = sent ++ until_error errors
      ((List.range' i rest).map fun r => packet_at fec.rs fec.encode_buffer.block_id (fec.rs.K + r)
        (redundant fec.rs messages r)) := by
  induction rest generalizing i sent with
  | zero => simp [encode_loop, until_error]
  | succ rest ih =>
    have hdegree : T_SIZE fec.rs - 1 - i = fec.rs.N - 1 - (fec.rs.K + i) := by
      unfold T_SIZE at hi ⊢
      omega
    unfold encode_loop
    rw [rs_encode_result_spec h (by omega) le_rfl]
    have hp := encode_header_raw fec (i := fec.rs.K + i)
      (by unfold T_SIZE at hi; omega) (redundant fec.rs messages i)
    rw [← hdegree] at hp
    simp only [offer, List.range'_succ, List.map_cons, until_error, ← hp]
    by_cases herr : errors (encode_header fec (T_SIZE fec.rs - 1 - i)
        (redundant fec.rs messages i).length).block_index.toNat = 0
    · simp only [herr, ne_eq, not_true_eq_false, if_false]
      rw [ih (i + 1) (by omega), List.append_assoc]
      rfl
    · simp only [herr, ne_eq, not_false_eq_true, if_true]

theorem encode_loop_ok {fec : nt_rs_fec_t} {messages : List (List UInt8)}
    (h : Encoded fec.rs messages fec.encode_buffer.buffer) {errors : Nat → error_t}
    (hok : ∀ i, errors i = 0) (rest i : Nat) (hi : i + rest = T_SIZE fec.rs) (sent : List packet) :
    (encode_loop fec (offer errors) rest i sent).1 = 0 := by
  induction rest generalizing i sent with
  | zero => rfl
  | succ rest ih =>
    unfold encode_loop
    rw [rs_encode_result_spec h (by omega) le_rfl]
    simp only [offer, hok, ne_eq, not_true_eq_false, if_false]
    exact ih (i + 1) (by omega) _

/-- One call: it emits the packets of its place in the block up to the first that is refused,
and goes on to a new block after the last message, unless its raw packet was refused. -/
theorem nt_rs_fec_encode_spec {N K D : Nat} (hp : Params N K) {block_id : UInt32}
    {messages : List (List UInt8)} {fec : nt_rs_fec_t} (h : Encoding N K D block_id messages fec)
    (hroom : messages.length < K) {input : List UInt8} (hsize : input.length ≤ D)
    (errors : Nat → error_t) (idgen : idgen_t) :
    ∃ err fec' idgen',
      nt_rs_fec_encode fec idgen input [] (offer errors) = some (err, fec', idgen',
        until_error errors (call_packets (rs_init N K D) block_id messages input)) ∧
      ((∀ i, errors i = 0) → err = 0) ∧
      (messages.length + 1 = K ∧ errors (K - 1) = 0 ∧
          Encoding N K D idgen [] fec' ∧ idgen' = idgen + 1 ∨
        ¬(messages.length + 1 = K ∧ errors (K - 1) = 0) ∧
          Encoding N K D block_id (messages ++ [input]) fec' ∧ idgen' = idgen) := by
  obtain ⟨hrs, hid, henc⟩ := h
  have hK : fec.rs.K = K := by rw [hrs, rs_init_K]
  have hN : fec.rs.N = N := by rw [hrs, rs_init_N]
  have hT : T_SIZE fec.rs = N - K := by rw [hrs, T_SIZE_init]
  have hlt := hp.lt
  have hle := hp.le
  obtain ⟨buffer, hstep, hbuffer⟩ := rs_encode_step henc
    (by rw [hrs, rs_init_max_data_size]; exact hsize) (by rwa [hK])
  have hraw := encode_header_raw { fec with
    encode_buffer := { fec.encode_buffer with buffer } } (i := messages.length)
    (by simp only; omega) input
  simp only at hraw
  have hidx : (packet_at fec.rs fec.encode_buffer.block_id messages.length
      input).1.block_index.toNat = messages.length :=
    UInt8.toNat_ofNat_of_lt' (show messages.length < 256 by omega)
  rw [← hrs, ← hid]
  unfold nt_rs_fec_encode call_packets
  rw [hstep]
  simp only [offer, List.nil_append, until_error]
  rw [← hraw] at hidx ⊢
  simp only at hidx
  simp only [hidx, hK]
  by_cases herr : errors messages.length = 0
  · simp only [herr, ne_eq, not_true_eq_false, if_false]
    by_cases hlast : messages.length + 1 = K
    · have hloop := encode_loop_spec { fec with
        encode_buffer := { fec.encode_buffer with buffer } } hbuffer (by simp only; omega) errors
        (N - K) 0 (by rw [Nat.zero_add]; exact hT.symm)
        [(encode_header { fec with encode_buffer := { fec.encode_buffer with buffer } }
          (fec.rs.N - 1 - messages.length) input.length, input)]
      simp only at hloop
      have hpos : N - K ≠ 0 := by omega
      have hred : redundant_packets fec.rs fec.encode_buffer.block_id (messages ++ [input]) =
          (List.range' 0 (N - K)).map fun r => packet_at fec.rs fec.encode_buffer.block_id
            (fec.rs.K + r) (redundant fec.rs (messages ++ [input]) r) := by
        rw [redundant_packets, hT, List.range_eq_range']
      simp only [hlast, if_true, hT, hpos, if_false, hloop, hred]
      refine ⟨_, _, _, rfl, fun hok => ?_, Or.inl ⟨trivial, ?_, encoding_reset hrs idgen, rfl⟩⟩
      · exact encode_loop_ok hbuffer hok (N - K) 0
          (by rw [Nat.zero_add]; exact hT.symm) _
      rwa [show K - 1 = messages.length by omega]
    · simp only [hlast, if_true, if_false]
      exact ⟨_, _, _, rfl, fun _ => rfl, Or.inr ⟨fun hc => hc.1, ⟨hrs, rfl, hbuffer⟩, rfl⟩⟩
  · simp only [herr, ne_eq, not_false_eq_true, if_true]
    refine ⟨_, _, _, rfl, fun hok => absurd (hok _) herr,
      Or.inr ⟨fun hc => herr ?_, ⟨hrs, rfl, hbuffer⟩, rfl⟩⟩
    rw [show messages.length = K - 1 by omega]
    exact hc.2

/-! ## Callbacks that accept everything -/

section

variable {σ : Type} {callback : σ → nt_fec_header_t → List UInt8 → error_t × σ}

/-- Packets handed to a callback one after the other. -/
def emit (callback : σ → nt_fec_header_t → List UInt8 → error_t × σ) (ps : List packet)
    (extra : σ) : σ :=
  ps.foldl (fun extra p => (callback extra p.1 p.2).2) extra

theorem encode_loop_accepting (hok : ∀ extra header payload, (callback extra header payload).1 = 0)
    (fec : nt_rs_fec_t) (rest i : Nat) (sent : List packet) (extra : σ) :
    ∃ err ps, encode_loop fec (offer fun _ => 0) rest i sent = (err, sent ++ ps) ∧
      encode_loop fec callback rest i extra = (err, emit callback ps extra) := by
  induction rest generalizing i sent extra with
  | zero => exact ⟨0, [], by rw [List.append_nil]; rfl, rfl⟩
  | succ rest ih =>
    unfold encode_loop
    cases hresult : rs_encode_result fec.rs fec.encode_buffer.buffer i
        (RS_MAX_ENCODED_SIZE fec.rs.max_data_size) with
    | error err => exact ⟨E_FEC_INTERNAL_ERROR, [], by rw [List.append_nil], rfl⟩
    | ok result =>
      obtain ⟨encoded, degree⟩ := result
      obtain ⟨err, ps, hsent, hextra⟩ := ih (i + 1)
        (sent ++ [(encode_header fec degree encoded.length, encoded)])
        (callback extra (encode_header fec degree encoded.length) encoded).2
      refine ⟨err, (encode_header fec degree encoded.length, encoded) :: ps, ?_, ?_⟩
      · simp only [offer, ne_eq, not_true_eq_false, if_false]
        rw [hsent, List.append_assoc]
        rfl
      · simp only [hok, ne_eq, not_true_eq_false, if_false]
        exact hextra

/-- A callback that accepts every packet gets what the call emits. -/
theorem encode_accepting (hok : ∀ extra header payload, (callback extra header payload).1 = 0)
    (fec : nt_rs_fec_t) (idgen : idgen_t) (input : List UInt8) (extra : σ) :
    nt_rs_fec_encode fec idgen input extra callback =
      (nt_rs_fec_encode fec idgen input [] (offer fun _ => 0)).map fun r =>
        (r.1, r.2.1, r.2.2.1, emit callback r.2.2.2 extra) := by
  unfold nt_rs_fec_encode
  cases rs_encode fec.rs fec.encode_buffer.buffer input with
  | none => rfl
  | some step =>
    obtain ⟨buffer, err | ⟨n, degree⟩⟩ := step
    · rfl
    · simp only [offer, hok, ne_eq, not_true_eq_false, if_false]
      by_cases hn : n = 0
      · simp only [hn, if_true]
        rfl
      · simp only [hn, if_false]
        obtain ⟨err, ps, hsent, hextra⟩ := encode_loop_accepting hok
          { fec with encode_buffer := { fec.encode_buffer with buffer } } n 0
          [(encode_header { fec with encode_buffer := { fec.encode_buffer with buffer } } degree
            input.length, input)]
          (callback extra (encode_header { fec with
            encode_buffer := { fec.encode_buffer with buffer } } degree input.length) input).2
        rw [List.nil_append, hsent, hextra]
        rfl

end

/-! ## The place of a call in its block -/

/-- The messages of the block of call `c` before that call, K calls to a block. -/
def messages_before (K : Nat) (inputs : List (List UInt8)) (c : Nat) : List (List UInt8) :=
  (inputs.take c).drop (c / K * K)

theorem length_messages_before {K c : Nat} {inputs : List (List UInt8)} (h : c ≤ inputs.length) :
    (messages_before K inputs c).length = c % K := by
  rw [messages_before, List.length_drop, List.length_take, Nat.min_eq_left h]
  have := Nat.div_add_mod' c K
  omega

theorem place_mod {K : Nat} (hK : 1 ≤ K) (c : Nat) : (c + 1) % K = 0 ↔ c % K + 1 = K := by
  obtain ⟨k, rfl⟩ : ∃ k, K = k + 1 := ⟨K - 1, by omega⟩
  rw [Nat.succ_mod_succ_eq_zero_iff]
  omega

theorem div_last {K c : Nat} (h : (c + 1) % K = 0) :
    (c + 1) / K = c / K + 1 ∧ (c + 1) / K * K = c + 1 :=
  ⟨by rw [Nat.succ_div, if_pos (Nat.dvd_of_mod_eq_zero h)],
    Nat.div_mul_cancel (Nat.dvd_of_mod_eq_zero h)⟩

theorem div_next {K c : Nat} (h : (c + 1) % K ≠ 0) : (c + 1) / K = c / K := by
  rw [Nat.succ_div, if_neg fun hd => h (Nat.mod_eq_zero_of_dvd hd), Nat.add_zero]

/-- The call after the last message of a block begins a new one. -/
theorem messages_before_last {K c : Nat} (h : (c + 1) % K = 0) (inputs : List (List UInt8)) :
    messages_before K inputs (c + 1) = [] := by
  rw [messages_before, (div_last h).2, List.drop_eq_nil_of_le (List.length_take_le _ _)]

theorem messages_with {K c : Nat} {inputs : List (List UInt8)} {input : List UInt8}
    (hin : inputs[c]? = some input) :
    (inputs.take (c + 1)).drop (c / K * K) = messages_before K inputs c ++ [input] := by
  obtain ⟨hlt, rfl⟩ := List.getElem?_eq_some_iff.mp hin
  have hle : c / K * K ≤ (inputs.take c).length := by
    rw [List.length_take, Nat.min_eq_left hlt.le]
    exact Nat.div_mul_le_self c K
  rw [messages_before, List.take_succ_eq_append_getElem hlt, List.drop_append_of_le_length hle]

/-- Any other call goes on with the block. -/
theorem messages_before_next {K c : Nat} (h : (c + 1) % K ≠ 0) {inputs : List (List UInt8)}
    {input : List UInt8} (hin : inputs[c]? = some input) :
    messages_before K inputs (c + 1) = messages_before K inputs c ++ [input] := by
  rw [messages_before, div_next h]
  exact messages_with hin

/-- The encoder has taken `c` of the inputs, and block `b` has the id `ids b`. -/
def Placed (N K D : Nat) (ids : Nat → UInt32) (inputs : List (List UInt8)) (c : Nat)
    (fec : nt_rs_fec_t) : Prop :=
  Encoding N K D (ids (c / K)) (messages_before K inputs c) fec

section

variable {N K D : Nat} {ids : Nat → UInt32} {inputs : List (List UInt8)} {c : Nat}
  {fec : nt_rs_fec_t}

theorem Placed.count (h : Placed N K D ids inputs c fec) (hc : c ≤ inputs.length) :
    fec.encode_buffer.buffer.count = c % K := by
  rw [h.encoded.count, length_messages_before hc]

/-- One call at its place. Only the refusal of a raw packet that completes a block leaves the
encoder out of place. -/
theorem encode_placed (hp : Params N K) (h : Placed N K D ids inputs c fec) {input : List UInt8}
    (hin : inputs[c]? = some input) (hsize : input.length ≤ D) (errors : Nat → error_t)
    (idgen : idgen_t) :
    ∃ err fec' idgen', nt_rs_fec_encode fec idgen input [] (offer errors) =
        some (err, fec', idgen', until_error errors
          (call_packets (rs_init N K D) (ids (c / K)) (messages_before K inputs c) input)) ∧
      ((c + 1) % K = 0 ∧ errors (K - 1) = 0 ∧ idgen' = idgen + 1 ∧
          (ids ((c + 1) / K) = idgen → Placed N K D ids inputs (c + 1) fec') ∨
        (c + 1) % K = 0 ∧ errors (K - 1) ≠ 0 ∧ fec'.encode_buffer.buffer.count = K ∨
        (c + 1) % K ≠ 0 ∧ idgen' = idgen ∧ Placed N K D ids inputs (c + 1) fec') := by
  have hlt := (List.getElem?_eq_some_iff.mp hin).1
  have hlen := length_messages_before (K := K) hlt.le
  have hmod := Nat.mod_lt c hp.pos
  obtain ⟨err, fec', idgen', hcall, -, hnext⟩ :=
    nt_rs_fec_encode_spec hp h (by omega) hsize errors idgen
  rw [hlen, ← place_mod hp.pos] at hnext
  refine ⟨err, fec', idgen', hcall, ?_⟩
  rcases hnext with ⟨hlast, herr, henc, hid⟩ | ⟨hno, henc, hid⟩
  · refine Or.inl ⟨hlast, herr, hid, fun hfresh => ?_⟩
    rw [Placed, hfresh, messages_before_last hlast]
    exact henc
  · by_cases hlast : (c + 1) % K = 0
    · refine Or.inr (Or.inl ⟨hlast, fun herr => hno ⟨hlast, herr⟩, ?_⟩)
      rw [henc.encoded.count, List.length_append, hlen]
      exact (place_mod hp.pos c).mp hlast
    · refine Or.inr (Or.inr ⟨hlast, hid, ?_⟩)
      rw [Placed, div_next hlast, messages_before_next hlast hin]
      exact henc

end

/-! ## Callbacks that fail -/

/-- What is seen of a call: the packets offered to the callback, and the count after it. -/
structure call_record where
  sent : List packet
  count : Nat

/-- Calls of one encoder, each with the number of ids that other encoders drew from the shared
generator before it. Call `c` has packet `i` of its block refused with `errors c i`, unless
that is zero. -/
def encode_calls (errors : Nat → Nat → error_t) :
    Nat → nt_rs_fec_t → idgen_t → List (Nat × List UInt8) → Option (List call_record)
  | _, _, _, [] => some []
  | c, fec, idgen, (drawn, input) :: calls =>
    match nt_rs_fec_encode fec (idgen + UInt32.ofNat drawn) input [] (offer (errors c)) with
    | none => none
    | some (_, fec, idgen, sent) =>
      (encode_calls errors (c + 1) fec idgen calls).map
        ({ sent, count := fec.encode_buffer.buffer.count } :: ·)

/-- The ids drawn before call `c`: those of the other encoders, and one for each block that has
ended by then. -/
def ids_drawn (K : Nat) (calls : List (Nat × List UInt8)) (c : Nat) : Nat :=
  ((calls.take c).map Prod.fst).sum + c / K

/-- The id of block `b`. -/
def block_id_of (K : Nat) (first : UInt32) (calls : List (Nat × List UInt8)) (b : Nat) : UInt32 :=
  first + UInt32.ofNat (ids_drawn K calls (b * K))

/-- What call `c` offers: the packets of its place in its block up to the first that is
refused. -/
def offered (N K D : Nat) (first : UInt32) (errors : Nat → Nat → error_t)
    (calls : List (Nat × List UInt8)) (c : Nat) : List packet :=
  until_error (errors c) (call_packets (rs_init N K D) (block_id_of K first calls (c / K))
    (messages_before K (calls.map Prod.snd) c) ((calls.map Prod.snd).getD c []))

/-- From call `c` on no call aborts, the count is below K after each, and each offers what it
should. -/
def RunsOn (K : Nat) (errors : Nat → Nat → error_t) (should : Nat → List packet) (c : Nat)
    (fec : nt_rs_fec_t) (idgen : idgen_t) (calls : List (Nat × List UInt8)) : Prop :=
  ∃ records, encode_calls errors c fec idgen calls = some records ∧
    records.length = calls.length ∧
    ∀ k record, records[k]? = some record → record.count < K ∧ record.sent = should (c + k)

/-- The last message of no block is refused, from call `c` on. -/
def LastAccepted (K : Nat) (errors : Nat → Nat → error_t) (c calls : Nat) : Prop :=
  ∀ k < calls, (c + k + 1) % K = 0 → errors (c + k) (K - 1) = 0

theorem ids_drawn_next {K c : Nat} {calls : List (Nat × List UInt8)} {call : Nat × List UInt8}
    (h : calls[c]? = some call) :
    ids_drawn K calls (c + 1) + c / K = ids_drawn K calls c + call.1 + (c + 1) / K := by
  obtain ⟨hlt, rfl⟩ := List.getElem?_eq_some_iff.mp h
  rw [ids_drawn, ids_drawn, List.take_succ_eq_append_getElem hlt]
  simp only [List.map_append, List.sum_append, List.map_cons, List.map_nil, List.sum_cons,
    List.sum_nil]
  omega

/-- A call that leaves the encoder in step hands over to the calls after it. -/
theorem runs_on_cons {errors : Nat → Nat → error_t} {should : Nat → List packet} {c K : Nat}
    {err : error_t} {fec fec' : nt_rs_fec_t} {idgen idgen' : idgen_t} {drawn : Nat}
    {input : List UInt8} {calls : List (Nat × List UInt8)}
    (hcall : nt_rs_fec_encode fec (idgen + UInt32.ofNat drawn) input [] (offer (errors c)) =
      some (err, fec', idgen', should c))
    (hcount : fec'.encode_buffer.buffer.count < K)
    (herr : (c + 1) % K = 0 → errors c (K - 1) = 0)
    (hrest : RunsOn K errors should (c + 1) fec' idgen' calls ↔
      LastAccepted K errors (c + 1) calls.length) :
    RunsOn K errors should c fec idgen ((drawn, input) :: calls) ↔
      LastAccepted K errors c (calls.length + 1) := by
  have hstep : ∀ k, c + (k + 1) = c + 1 + k := fun k => by omega
  constructor
  · rintro ⟨records, hrun, hlen, hall⟩ k hk hmod
    unfold encode_calls at hrun
    rw [hcall] at hrun
    obtain ⟨rest, hrest', rfl⟩ := Option.map_eq_some_iff.mp hrun
    rcases k with _ | k
    · exact herr hmod
    · rw [hstep] at hmod ⊢
      refine hrest.mp ⟨rest, hrest', Nat.succ.inj hlen, fun j record hj => ?_⟩ k (by omega) hmod
      rw [← hstep]
      exact hall (j + 1) record (by rwa [List.getElem?_cons_succ])
  · intro hall
    obtain ⟨rest, hrun, hlen, hrest'⟩ := hrest.mpr fun k hk hmod => by
      rw [← hstep] at hmod ⊢
      exact hall (k + 1) (by omega) hmod
    refine ⟨{ sent := should c, count := fec'.encode_buffer.buffer.count } :: rest, ?_, by simpa,
      fun k record hk => ?_⟩
    · unfold encode_calls
      rw [hcall]
      simp only [hrun, Option.map_some]
    · rcases k with _ | k
      · rw [List.getElem?_cons_zero, Option.some.injEq] at hk
        rw [← hk]
        exact ⟨hcount, rfl⟩
      · rw [hstep]
        exact hrest' k record (by rwa [List.getElem?_cons_succ] at hk)

/-- A refused last message leaves the block full, which the call itself shows. -/
theorem not_runs_on {errors : Nat → Nat → error_t} {should : Nat → List packet} {c K : Nat}
    {err : error_t} {fec fec' : nt_rs_fec_t} {idgen idgen' : idgen_t} {drawn : Nat}
    {input : List UInt8} {sent : List packet} {calls : List (Nat × List UInt8)}
    (hcall : nt_rs_fec_encode fec (idgen + UInt32.ofNat drawn) input [] (offer (errors c)) =
      some (err, fec', idgen', sent))
    (hcount : fec'.encode_buffer.buffer.count = K) :
    ¬RunsOn K errors should c fec idgen ((drawn, input) :: calls) := by
  rintro ⟨records, hrun, -, hall⟩
  unfold encode_calls at hrun
  rw [hcall] at hrun
  obtain ⟨rest, -, rfl⟩ := Option.map_eq_some_iff.mp hrun
  have := (hall 0 _ rfl).1
  simp only at this
  omega

/-- The run from any point on: the blocks stay whole exactly when every raw packet that ends a
block is accepted. -/
theorem runs_on_iff {N K D : Nat} (hp : Params N K) (errors : Nat → Nat → error_t)
    (first : UInt32) {all : List (Nat × List UInt8)} (hsize : ∀ call ∈ all, call.2.length ≤ D)
    (c : Nat) (calls : List (Nat × List UInt8)) (hall : all.drop c = calls) {fec : nt_rs_fec_t}
    (h : Placed N K D (block_id_of K first all) (all.map Prod.snd) c fec) (idgen : idgen_t)
    (hidgen : idgen = first + 1 + UInt32.ofNat (ids_drawn K all c)) :
    RunsOn K errors (offered N K D first errors all) c fec idgen calls ↔
      LastAccepted K errors c calls.length := by
  induction calls generalizing c fec idgen with
  | nil =>
    exact ⟨fun _ k hk => absurd hk (Nat.not_lt_zero k), fun _ => ⟨[], rfl, rfl, by simp⟩⟩
  | cons call calls ih =>
    have hlt : c < all.length := by
      rw [← Nat.not_le, ← List.drop_eq_nil_iff, hall]
      exact List.cons_ne_nil _ _
    rw [List.drop_eq_getElem_cons hlt, List.cons.injEq] at hall
    obtain ⟨rfl, hall⟩ := hall
    have hcall : all[c]? = some all[c] := List.getElem?_eq_getElem hlt
    have hin : (all.map Prod.snd)[c]? = some all[c].2 := by rw [List.getElem?_map, hcall]; rfl
    obtain ⟨err, fec', idgen', hcode, hnext⟩ := encode_placed hp h hin
      (hsize _ (List.getElem_mem hlt)) (errors c) (idgen + UInt32.ofNat all[c].1)
    have hoffered : offered N K D first errors all c = until_error (errors c)
        (call_packets (rs_init N K D) (block_id_of K first all (c / K))
          (messages_before K (all.map Prod.snd) c) all[c].2) := by
      rw [offered, List.getD_eq_getElem?_getD, hin, Option.getD_some]
    rw [← hoffered] at hcode
    have hdrawn := ids_drawn_next (K := K) hcall
    have hcount : ∀ {fec'}, Placed N K D (block_id_of K first all) (all.map Prod.snd) (c + 1) fec' →
        fec'.encode_buffer.buffer.count < K := fun h' => by
      rw [h'.count (by rw [List.length_map]; exact hlt)]
      exact Nat.mod_lt _ hp.pos
    rcases hnext with ⟨hlast, herr, hgen, hplaced⟩ | ⟨hlast, herr, hfull⟩ | ⟨hmid, hgen, hplaced⟩
    · obtain ⟨hdiv, hmul⟩ := div_last hlast
      have hid : idgen + UInt32.ofNat all[c].1 =
          first + UInt32.ofNat (ids_drawn K all (c + 1)) := by
        rw [hidgen, show ids_drawn K all (c + 1) = 1 + (ids_drawn K all c + all[c].1) by omega,
          UInt32.ofNat_add, UInt32.ofNat_add]
        simp only [UInt32.add_assoc]
        rfl
      have hplaced := hplaced (by rw [block_id_of, hmul, hid])
      refine runs_on_cons hcode (hcount hplaced) (fun _ => herr) (ih (c + 1) hall hplaced _ ?_)
      rw [hgen, hid, UInt32.add_assoc, UInt32.add_comm (UInt32.ofNat _), UInt32.add_assoc]
    · exact iff_of_false (not_runs_on hcode hfull) fun h' => herr (h' 0 (by simp) hlast)
    · have hdiv := div_next hmid
      refine runs_on_cons hcode (hcount hplaced) (fun hc => absurd hc hmid)
        (ih (c + 1) hall hplaced _ ?_)
      rw [hgen, hidgen, show ids_drawn K all (c + 1) = ids_drawn K all c + all[c].1 by omega,
        UInt32.ofNat_add, UInt32.add_assoc]

/-- Nettle's own start: the encoder that `nt_rs_fec_init` leaves has the first id and an empty
block. -/
theorem nt_rs_fec_init_encoding {N K : UInt8} {D B : Nat} {timeout : Int}
    {idgen idgen' : idgen_t} {perf : perf_t} {fec : nt_rs_fec_t}
    (h : nt_rs_fec_init N K D B timeout idgen perf = some (fec, idgen')) :
    Encoding N.toNat K.toNat D idgen [] fec ∧ idgen' = idgen + 1 := by
  unfold nt_rs_fec_init at h
  simp only [Option.bind_eq_bind, Option.bind_eq_some_iff] at h
  obtain ⟨_, -, _, -, h⟩ := h
  cases h
  exact ⟨encoding_reset rfl idgen, rfl⟩

/-- Two blocks have two ids, as long as the generator has not gone round. -/
theorem block_id_of_ne {K : Nat} (hK : 1 ≤ K) (first : UInt32) {calls : List (Nat × List UInt8)}
    (hids : ids_drawn K calls calls.length < 2 ^ 32) {b b' : Nat} (hlt : b < b')
    (hle : b' * K ≤ calls.length) : block_id_of K first calls b ≠ block_id_of K first calls b' := by
  have hsum : ∀ {d d'}, d ≤ d' →
      ((calls.take d).map Prod.fst).sum ≤ ((calls.take d').map Prod.fst).sum :=
    fun h => (((List.take_prefix_take_left h).sublist).map Prod.fst).sum_le_sum
      fun _ _ => Nat.zero_le _
  have hbb : ids_drawn K calls (b * K) < ids_drawn K calls (b' * K) := by
    have := hsum (Nat.mul_le_mul_right K hlt.le)
    rw [ids_drawn, ids_drawn, Nat.mul_div_cancel _ hK, Nat.mul_div_cancel _ hK]
    omega
  have hall : ids_drawn K calls (b' * K) ≤ ids_drawn K calls calls.length :=
    Nat.add_le_add (hsum hle) (Nat.div_le_div_right hle)
  intro heq
  have heq := congrArg UInt32.toNat ((UInt32.add_right_inj _).mp heq)
  rw [UInt32.toNat_ofNat_of_lt' (by simpa [UInt32.size] using by omega),
    UInt32.toNat_ofNat_of_lt' (by simpa [UInt32.size] using by omega)] at heq
  omega

/-- No call aborts, the count is below K after each call, and the calls fall into blocks of K:
each call offers its raw packet and each K-th call the redundant ones too, all under the block's
own id, up to the first packet of the call that is refused. -/
def BlocksWhole (N K D : Nat) (first : UInt32) (errors : Nat → Nat → error_t)
    (calls : List (Nat × List UInt8)) (fec : nt_rs_fec_t) (idgen : idgen_t) : Prop :=
  RunsOn K errors (offered N K D first errors calls) 0 fec idgen calls ∧
    (ids_drawn K calls calls.length < 2 ^ 32 → ∀ b b', b < b' → b' * K ≤ calls.length →
      block_id_of K first calls b ≠ block_id_of K first calls b')

/-- The blocks stay whole exactly when the callback accepts every raw packet that completes a
block; any other failure is harmless. -/
theorem blocks_stay_whole_iff {N K : UInt8} (hp : Params N.toNat K.toNat) {D B : Nat}
    {timeout : Int} {first idgen : idgen_t} {perf : perf_t} {fec : nt_rs_fec_t}
    (hinit : nt_rs_fec_init N K D B timeout first perf = some (fec, idgen))
    (errors : Nat → Nat → error_t) {calls : List (Nat × List UInt8)}
    (hsize : ∀ call ∈ calls, call.2.length ≤ D) :
    BlocksWhole N.toNat K.toNat D first errors calls fec idgen ↔
      ∀ c < calls.length, (c + 1) % K.toNat = 0 → errors c (K.toNat - 1) = 0 := by
  obtain ⟨hfec, hidgen⟩ := nt_rs_fec_init_encoding hinit
  have hdrawn : ids_drawn K.toNat calls 0 = 0 := by simp [ids_drawn]
  have hplaced : Placed N.toNat K.toNat D (block_id_of K.toNat first calls)
      (calls.map Prod.snd) 0 fec := by
    simpa [Placed, messages_before, block_id_of, hdrawn] using hfec
  have hrun := runs_on_iff hp errors first hsize 0 calls rfl hplaced idgen (by simp [hidgen, hdrawn])
  simp only [LastAccepted, Nat.zero_add] at hrun
  rw [BlocksWhole, hrun, and_iff_left]
  exact fun hids b b' hlt hle => block_id_of_ne hp.pos first hids hlt hle

theorem blocks_stay_whole_two : ∃ fec idgen,
    nt_rs_fec_init 2 1 4 2 100 0 (fun _ => 0) = some (fec, idgen) ∧
      BlocksWhole 2 1 4 0 (fun _ i => i) [(0, [7]), (3, [])] fec idgen := by
  obtain ⟨⟨fec, idgen⟩, h⟩ := Option.isSome_iff_exists.mp
    (by decide +kernel : (nt_rs_fec_init 2 1 4 2 100 0 (fun _ => 0)).isSome = true)
  exact ⟨fec, idgen, h, (blocks_stay_whole_iff ⟨by decide, by decide, by decide⟩ h (fun _ i => i)
    (by decide)).mpr fun _ _ _ => rfl⟩

/-- With K = 1 the first message is the last of its block; refused, it leaves the block full, and
the next call aborts. -/
theorem the_call_after_a_refusal_aborts : ∃ fec idgen,
    nt_rs_fec_init 2 1 4 2 100 0 (fun _ => 0) = some (fec, idgen) ∧
      encode_calls (fun c _ => if c = 0 then 1 else 0) 0 fec idgen [(0, [7]), (0, [8])] = none ∧
      ¬BlocksWhole 2 1 4 0 (fun c _ => if c = 0 then 1 else 0) [(0, [7]), (0, [8])] fec idgen := by
  obtain ⟨⟨fec, idgen⟩, h⟩ := Option.isSome_iff_exists.mp
    (by decide +kernel : (nt_rs_fec_init 2 1 4 2 100 0 (fun _ => 0)).isSome = true)
  have hnone : encode_calls (fun c _ => if c = 0 then 1 else 0) 0 fec idgen [(0, [7]), (0, [8])] =
      none := by
    have hrun : ((nt_rs_fec_init 2 1 4 2 100 0 (fun _ => 0)).map fun start =>
        (encode_calls (fun c _ => if c = 0 then 1 else 0) 0 start.1 start.2
          [(0, [7]), (0, [8])]).isNone) = some true := by decide +kernel
    rw [h, Option.map_some, Option.some.injEq, Option.isNone_iff_eq_none] at hrun
    exact hrun
  refine ⟨fec, idgen, h, hnone, ?_⟩
  rintro ⟨⟨records, hrun, -⟩, -⟩
  rw [hnone] at hrun
  cases hrun

end nettle.nt_rs_fec
