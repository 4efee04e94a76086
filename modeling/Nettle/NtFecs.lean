-- The three FECs behind nt_fec_t as a processor uses them (nt_fec.h, nt_fec.c,
-- nt_fec_processor.c): with callbacks that accept everything, each of them
-- comes down to the packets it emits and the messages it hands over.
import Nettle.ApiAborts
import Nettle.DupTunnel

open nettle.nt_api (rs_fec_encode payload_size_call_packets)
open nettle.nt_dup_fec (nt_dup_fec_t nt_dup_fec_encode nt_dup_fec_decode)
open nettle.nt_fec nettle.nt_proto nettle.udp
open nettle.nt_rs_fec (emit idgen_t nt_rs_fec_t nt_rs_fec_encode nt_rs_fec_decode offer packet record)
open nettle.rs (rs_dc_t rs_decode rs_decode_result rs_is_dc_complete rs_t)

namespace nettle.nt_processor

/-! ## The FEC that does nothing -/

def NT_DUMMY_FEC_TAG : UInt8 := 39

section

variable {σ : Type}

def nt_dummy_fec_encode (input : List UInt8) (extra : σ)
    (callback : σ → nt_fec_header_t → List UInt8 → error_t × σ) : error_t × σ :=
  callback extra (nt_fec_header_init NT_DUMMY_FEC_TAG 0 0 0 0 (UInt16.ofNat input.length)) input

def nt_dummy_fec_decode (header : nt_fec_header_t) (input : List UInt8) (extra : σ)
    (callback : σ → List UInt8 → error_t × σ) : error_t × σ :=
  if header.tag ≠ NT_DUMMY_FEC_TAG ∨ header.N ≠ 0 ∨ header.K ≠ 0 then (E_FEC_INVALID_HEADER, extra)
  else callback extra input

end

/-! ## Behind the interface -/

variable {φ F : Type}

/-- The processor while it is decoding, nothing left of it after a failed `ensure`. -/
abbrev api_state (φ : Type) := Option (nt_fec_processor_t φ)

/-- The decoder behind `nt_fec_decode`, with the time of the call. -/
abbrev nt_fec_decode_t (φ : Type) :=
  φ → nt_fec_header_t → List UInt8 → Int → api_state φ →
    (api_state φ → List UInt8 → error_t × api_state φ) → Option (error_t × φ × api_state φ)

def dup_fec_encode : nt_fec_encode_t (nt_dup_fec_t × idgen_t) := fun fec input extra callback =>
  let (err, idgen, extra) := nt_dup_fec_encode fec.1 fec.2 input extra callback
  some (err, (fec.1, idgen), extra)

def dummy_fec_encode : nt_fec_encode_t (Unit × idgen_t) := fun fec input extra callback =>
  let (err, extra) := nt_dummy_fec_encode input extra callback
  some (err, fec, extra)

/-- A message is given as the bytes that its size counts: those of a negative size, which a forged
header can lead to, are none, and are corrupt like the others. -/
def rs_fec_decode : nt_fec_decode_t (nt_rs_fec_t × idgen_t) :=
  fun fec header input current extra callback =>
    (nt_rs_fec_decode fec.1 header input current extra fun extra decoded _ => callback extra decoded).map
      fun r => (r.1, (r.2.1, fec.2), r.2.2)

def dup_fec_decode : nt_fec_decode_t (nt_dup_fec_t × idgen_t) :=
  fun fec header input current extra callback =>
    (nt_dup_fec_decode fec.1 header input current extra callback).map fun r =>
      (r.1, (r.2.1, fec.2), r.2.2)

def dummy_fec_decode : nt_fec_decode_t (Unit × idgen_t) := fun fec header input _ extra callback =>
  let (err, extra) := nt_dummy_fec_decode header input extra callback
  some (err, fec, extra)

/-! ## The decoder of a processor -/

/-- The counters that `decoder_on_message` counts in. -/
inductive decode_failure where
  | COUNTER_DECODER_BUFFER_FULL
  | COUNTER_INVALID_ENCODED_DATA
  | COUNTER_DECODE_ERROR
  deriving DecidableEq

/-- `on_decode` as a callback. -/
def on_decoded (extra : api_state φ) (decoded : List UInt8) : error_t × api_state φ :=
  match extra.bind fun processor => on_decode processor decoded with
  | none => (0, none)
  | some (err, processor) => (err, some processor)

/-- The counter of an error, if it is one. -/
def failure_of (err : error_t) : Option decode_failure :=
  if err = 0 then none
  else if err = E_FEC_DECODER_BUFFER_FULL then some .COUNTER_DECODER_BUFFER_FULL
  else if err = E_FEC_INVALID_HEADER then some .COUNTER_INVALID_ENCODED_DATA
  else some .COUNTER_DECODE_ERROR

/-- The processor after a message and the counter that goes up, if one does. -/
def decoder_on_message (nt_fec_decode : nt_fec_decode_t φ) (processor : nt_fec_processor_t φ)
    (message : List UInt8) (current : Int) :
    Option (nt_fec_processor_t φ × Option decode_failure) := do
  let header := nt_fec_header_at message
  let payload := (message.drop 10).take (nt_fec_header_payload_size header).toNat
  let (err, fec, extra) ← nt_fec_decode processor.fec header payload current (some processor) on_decoded
  let processor ← extra
  return ({ processor with fec }, failure_of err)

/-! ## What a FEC does -/

/-- What an encoder returns, and the packets it emits into a callback that accepts everything. -/
abbrev encode_t (F : Type) := F → idgen_t → List UInt8 → Option (error_t × F × idgen_t × List packet)

/-- What a decoder returns, and the messages it hands to a callback that accepts everything. -/
abbrev decode_t (F : Type) :=
  F → nt_fec_header_t → List UInt8 → Int → Option (error_t × F × List (List UInt8))

/-- The encoder behind `nt_fec_encode` emits these packets, each with a header that has its size. -/
structure Emits (nt_fec_encode : nt_fec_encode_t (F × idgen_t)) (encode : encode_t F) : Prop where
  emits : ∀ (fec : F × idgen_t) (input : List UInt8) (extra : tun_state)
    (callback : tun_state → nt_fec_header_t → List UInt8 → error_t × tun_state),
    (∀ extra header payload, (callback extra header payload).1 = 0) →
      nt_fec_encode fec input extra callback = (encode fec.1 fec.2 input).map fun r =>
        (r.1, (r.2.1, r.2.2.1), emit callback r.2.2.2 extra)
  sized : ∀ (fec : F) (idgen : idgen_t) (input : List UInt8)
    (r : error_t × F × idgen_t × List packet), encode fec idgen input = some r →
      ∀ p ∈ r.2.2.2, nt_fec_header_payload_size p.1 = UInt16.ofNat p.2.length

/-- The decoder behind `nt_fec_decode` hands over these messages. -/
def HandsOver (nt_fec_decode : nt_fec_decode_t (F × idgen_t)) (decode : decode_t F) : Prop :=
  ∀ (fec : F × idgen_t) (header : nt_fec_header_t) (input : List UInt8) (current : Int)
    (extra : api_state (F × idgen_t))
    (callback : api_state (F × idgen_t) → List UInt8 → error_t × api_state (F × idgen_t)),
    (∀ extra decoded, (callback extra decoded).1 = 0) →
      nt_fec_decode fec header input current extra callback =
        (decode fec.1 header input current).map fun r => (r.1, (r.2.1, fec.2),
          r.2.2.foldl (fun extra decoded => (callback extra decoded).2) extra)

/-- The encoder and the decoder of a processor share its FEC: `fec` is the encoder's half of one
FEC and the decoder's half of another, which are the same otherwise. Neither changes what the other
does. -/
structure Halves (encode : encode_t F) (decode : decode_t F) (joined : F → F → F → Prop) : Prop where
  start : ∀ fec, joined fec fec fec
  encode : ∀ {fec e d e' : F} {idgen idgen' : idgen_t} {input : List UInt8} {err : error_t}
    {ps : List packet}, joined fec e d → encode e idgen input = some (err, e', idgen', ps) →
      ∃ fec', encode fec idgen input = some (err, fec', idgen', ps) ∧ joined fec' e' d
  decode : ∀ {fec e d d' : F} {header : nt_fec_header_t} {input : List UInt8} {current : Int}
    {err : error_t} {handed : List (List UInt8)}, joined fec e d →
      decode d header input current = some (err, d', handed) →
        ∃ fec', decode fec header input current = some (err, fec', handed) ∧ joined fec' e d'

def rs_emitted : encode_t nt_rs_fec_t := fun fec idgen input =>
  nt_rs_fec_encode fec idgen input [] (offer fun _ => 0)

def dup_emitted : encode_t nt_dup_fec_t := fun fec idgen input =>
  some (0, fec, idgen + 1, nt_dup_fec.copies fec.N idgen input)

def dummy_emitted : encode_t Unit := fun fec idgen input =>
  some (0, fec, idgen,
    [(nt_fec_header_init NT_DUMMY_FEC_TAG 0 0 0 0 (UInt16.ofNat input.length), input)])

def rs_handed : decode_t nt_rs_fec_t := fun fec header input current =>
  (nt_rs_fec_decode fec header input current [] (record fun _ _ _ => 0)).map fun r =>
    (r.1, r.2.1, r.2.2.map Prod.fst)

def dup_handed : decode_t nt_dup_fec_t := fun fec header input current =>
  (nt_dup_fec_decode fec header input current [] fun seen input =>
    record (fun _ _ _ => 0) seen input input.length).map fun r => (r.1, r.2.1, r.2.2.map Prod.fst)

def dummy_handed : decode_t Unit := fun fec header input _ =>
  if header.tag ≠ NT_DUMMY_FEC_TAG ∨ header.N ≠ 0 ∨ header.K ≠ 0 then
    some (E_FEC_INVALID_HEADER, fec, [])
  else some (0, fec, [input])

/-! ## The encoders -/

theorem rs_sized {fec : nt_rs_fec_t} {idgen : idgen_t} {input : List UInt8}
    {r : error_t × nt_rs_fec_t × idgen_t × List packet}
    (h : nt_rs_fec_encode fec idgen input [] (offer fun _ => 0) = some r) :
    ∀ p ∈ r.2.2.2, nt_fec_header_payload_size p.1 = UInt16.ofNat p.2.length := by
  have hloop : ∀ (fec : nt_rs_fec_t) (rest i : Nat) (sent : List packet),
      (∀ p ∈ sent, nt_fec_header_payload_size p.1 = UInt16.ofNat p.2.length) →
      ∀ p ∈ (nt_rs_fec.encode_loop fec (offer fun _ => 0) rest i sent).2,
        nt_fec_header_payload_size p.1 = UInt16.ofNat p.2.length := by
    intro fec rest
    induction rest with
    | zero => exact fun i sent hsent => hsent
    | succ rest ih =>
      intro i sent hsent
      unfold nt_rs_fec.encode_loop
      split
      · exact hsent
      · simp only [offer, ne_eq, not_true_eq_false, if_false]
        refine ih (i + 1) _ fun p hp => ?_
        rcases List.mem_append.mp hp with hp | hp
        · exact hsent p hp
        · rw [List.mem_singleton.mp hp]
          exact payload_size_init ..
  unfold nt_rs_fec_encode at h
  split at h
  · cases h
  · cases h
  · next buffer n degree _ =>
    simp only [offer, ne_eq, not_true_eq_false, if_false, List.nil_append] at h
    have hraw : ∀ p ∈ [(nt_rs_fec.encode_header { fec with
        encode_buffer := { fec.encode_buffer with buffer } } degree input.length, input)],
        nt_fec_header_payload_size p.1 = UInt16.ofNat p.2.length := fun p hp => by
      rw [List.mem_singleton.mp hp]
      exact payload_size_init ..
    split at h
    · cases h
      exact hraw
    · cases h
      exact hloop _ n 0 _ hraw

theorem rs_emits : Emits rs_fec_encode rs_emitted := by
  refine ⟨fun fec input extra callback hok => ?_, fun fec idgen input r h => rs_sized h⟩
  rw [rs_fec_encode, rs_emitted, nt_rs_fec.encode_accepting hok, Option.map_map]
  rfl

theorem dup_emits : Emits dup_fec_encode dup_emitted := by
  refine ⟨fun fec input extra callback hok => ?_, fun fec idgen input r h => ?_⟩
  · have hloop : ∀ (rest i : Nat) (extra : tun_state),
        nt_dup_fec.encode_loop fec.1 fec.2 input callback rest i extra =
          (0, emit callback ((List.range' i rest).map fun i =>
            (nt_dup_fec.encode_header fec.1 fec.2 i input.length, input)) extra) := by
      intro rest
      induction rest with
      | zero => exact fun i extra => rfl
      | succ rest ih =>
        intro i extra
        unfold nt_dup_fec.encode_loop
        simp only [hok, ne_eq, not_true_eq_false, if_false]
        rw [ih, List.range'_succ, List.map_cons]
        rfl
    unfold dup_fec_encode nt_dup_fec_encode
    simp only [nt_rs_fec.idgen_next, hloop, ← List.range_eq_range']
    rfl
  · cases h
    intro p hp
    obtain ⟨i, -, rfl⟩ := List.mem_map.mp hp
    exact payload_size_init ..

theorem dummy_emits : Emits dummy_fec_encode dummy_emitted := by
  refine ⟨fun fec input extra callback hok => ?_, fun fec idgen input r h => ?_⟩
  · unfold dummy_fec_encode nt_dummy_fec_encode
    simp only [dummy_emitted, Option.map_some, emit, List.foldl_cons, List.foldl_nil, hok]
  · cases h
    intro p hp
    rw [List.mem_singleton.mp hp]
    exact payload_size_init ..

/-! ## The decoders -/

section

variable {σ τ : Type} {f : σ → τ}

/-- Callbacks that do the same on states that belong together are called alike. -/
theorem decode_loop_natural {callback : σ → List UInt8 → Int → error_t × σ}
    {callback' : τ → List UInt8 → Int → error_t × τ}
    (h : ∀ extra decoded size, callback' (f extra) decoded size =
      ((callback extra decoded size).1, f (callback extra decoded size).2))
    (rs : rs_t) (dc : rs_dc_t) (rest i : Nat) (extra : σ) :
    nt_rs_fec.decode_loop rs dc callback' rest i (f extra) =
      (nt_rs_fec.decode_loop rs dc callback rest i extra).map fun r => (r.1, f r.2) := by
  induction rest generalizing i extra with
  | zero => rfl
  | succ rest ih =>
    unfold nt_rs_fec.decode_loop
    cases rs_decode_result rs dc i rs.max_data_size with
    | none => rfl
    | some result =>
      cases result with
      | error err => rfl
      | ok decoded =>
        simp only [h]
        split
        · rfl
        · exact ih (i + 1) _

theorem feed_natural {callback : σ → List UInt8 → Int → error_t × σ}
    {callback' : τ → List UInt8 → Int → error_t × τ}
    (h : ∀ extra decoded size, callback' (f extra) decoded size =
      ((callback extra decoded size).1, f (callback extra decoded size).2))
    (fec : nt_rs_fec_t) (index : Nat) (header : nt_fec_header_t) (input : List UInt8) (current : Int)
    (extra : σ) :
    nt_rs_fec.feed_decode_buffer fec index header input current (f extra) callback' =
      (nt_rs_fec.feed_decode_buffer fec index header input current extra callback).map fun r =>
        (r.1, r.2.1, f r.2.2) := by
  unfold nt_rs_fec.feed_decode_buffer
  cases nt_rs_fec.pool_get fec index with
  | none => rfl
  | some decode_buffer =>
    simp only [Option.bind_eq_bind, Option.bind_some]
    cases rs_decode _ decode_buffer.buffer input _ with
    | none => rfl
    | some result =>
      obtain ⟨buffer, err | ⟨n, is_raw⟩⟩ := result
      · cases err <;> rfl
      · simp only [Option.bind_some]
        cases rs_is_dc_complete _ buffer with
        | none => rfl
        | some complete =>
          simp only [Option.bind_some]
          cases is_raw
          · simp only [Bool.false_eq_true, if_false, ne_eq, not_true_eq_false,
              decode_loop_natural h, Option.map_bind, Option.bind_map]
            rfl
          · simp only [if_true, h]
            split
            · rfl
            · simp only [decode_loop_natural h, Option.map_bind, Option.bind_map]
              rfl

theorem decode_natural {callback : σ → List UInt8 → Int → error_t × σ}
    (callback' : τ → List UInt8 → Int → error_t × τ)
    (h : ∀ extra decoded size, callback' (f extra) decoded size =
      ((callback extra decoded size).1, f (callback extra decoded size).2))
    (fec : nt_rs_fec_t) (header : nt_fec_header_t) (input : List UInt8) (current : Int) (extra : σ) :
    nt_rs_fec_decode fec header input current (f extra) callback' =
      (nt_rs_fec_decode fec header input current extra callback).map fun r =>
        (r.1, r.2.1, f r.2.2) := by
  unfold nt_rs_fec_decode
  split
  · rfl
  · cases nt_rs_fec.select_decode_buffer fec (nt_fec_header_block_id header) current with
    | none => rfl
    | some result =>
      obtain ⟨fec', err | index⟩ := result
      · rfl
      · exact feed_natural h fec' index header input current extra

theorem dup_decode_natural {callback : σ → List UInt8 → error_t × σ}
    (callback' : τ → List UInt8 → error_t × τ)
    (h : ∀ extra decoded, callback' (f extra) decoded =
      ((callback extra decoded).1, f (callback extra decoded).2))
    (fec : nt_dup_fec_t) (header : nt_fec_header_t) (input : List UInt8) (current : Int) (extra : σ) :
    nt_dup_fec_decode fec header input current (f extra) callback' =
      (nt_dup_fec_decode fec header input current extra callback).map fun r =>
        (r.1, r.2.1, f r.2.2) := by
  unfold nt_dup_fec_decode
  split
  · rfl
  · split
    · simp only [Option.bind_eq_bind, h]
      cases nt_dup_fec.dedup fec (nt_fec_header_block_id header).toNat current with
      | none => rfl
      | some result =>
        simp only [Option.bind_some]
        split <;> rfl
    · simp only [h]
      rfl

end

/-- What was seen comes to a callback one message after the other. -/
def told {τ : Type} (callback : τ → List UInt8 → error_t × τ) (extra : τ)
    (seen : List (List UInt8 × Int)) : τ :=
  (seen.map Prod.fst).foldl (fun extra decoded => (callback extra decoded).2) extra

theorem told_record {τ : Type} {callback : τ → List UInt8 → error_t × τ}
    (hok : ∀ extra decoded, (callback extra decoded).1 = 0) (extra : τ)
    (seen : List (List UInt8 × Int)) (decoded : List UInt8) (size : Int) :
    callback (told callback extra seen) decoded =
      ((record (fun _ _ _ => 0) seen decoded size).1,
        told callback extra (record (fun _ _ _ => 0) seen decoded size).2) := by
  simp only [record, told, List.map_append, List.map_cons, List.map_nil, List.foldl_append,
    List.foldl_cons, List.foldl_nil]
  exact Prod.ext (hok _ _) rfl

theorem rs_hands : HandsOver rs_fec_decode rs_handed := by
  intro fec header input current extra callback hok
  have h := decode_natural (f := told callback extra) (fun extra decoded _ => callback extra decoded)
    (told_record hok extra) fec.1 header input current []
  rw [rs_fec_decode, rs_handed, Option.map_map]
  refine (congrArg (Option.map _) h).trans ?_
  rw [Option.map_map]
  rfl

theorem dup_hands : HandsOver dup_fec_decode dup_handed := by
  intro fec header input current extra callback hok
  have h := dup_decode_natural (f := told callback extra) callback
    (fun seen decoded => told_record hok extra seen decoded decoded.length) fec.1 header input current []
  rw [dup_fec_decode, dup_handed, Option.map_map]
  refine (congrArg (Option.map _) h).trans ?_
  rw [Option.map_map]
  rfl

theorem dummy_hands : HandsOver dummy_fec_decode dummy_handed := by
  intro fec header input current extra callback hok
  unfold dummy_fec_decode nt_dummy_fec_decode dummy_handed
  by_cases hheader : header.tag ≠ NT_DUMMY_FEC_TAG ∨ header.N ≠ 0 ∨ header.K ≠ 0
  · rw [if_pos hheader, if_pos hheader]
    rfl
  · rw [if_neg hheader, if_neg hheader]
    simp only [Option.map_some, List.foldl_cons, List.foldl_nil]
    rw [← hok extra input]

/-! ## The halves -/

/-- The encoder writes to its buffer, the decoder to the rest. -/
def rs_joined (fec e d : nt_rs_fec_t) : Prop :=
  e.rs = d.rs ∧ fec = { d with encode_buffer := e.encode_buffer }

theorem encode_loop_joined {σ : Type} (callback : σ → nt_fec_header_t → List UInt8 → error_t × σ)
    (e d : nt_rs_fec_t) (rest i : Nat) (extra : σ) :
    nt_rs_fec.encode_loop { d with rs := e.rs, encode_buffer := e.encode_buffer } callback rest i extra =
      nt_rs_fec.encode_loop e callback rest i extra := by
  induction rest generalizing i extra with
  | zero => rfl
  | succ rest ih =>
    unfold nt_rs_fec.encode_loop nt_rs_fec.encode_header
    simp only [ih]

theorem rs_encode_joined {fec e d e' : nt_rs_fec_t} {idgen idgen' : idgen_t} {input : List UInt8}
    {err : error_t} {ps : List packet} (h : rs_joined fec e d)
    (hencode : rs_emitted e idgen input = some (err, e', idgen', ps)) :
    ∃ fec', rs_emitted fec idgen input = some (err, fec', idgen', ps) ∧ rs_joined fec' e' d := by
  obtain ⟨hrs, rfl⟩ := h
  unfold rs_emitted nt_rs_fec_encode at hencode ⊢
  simp only [← hrs]
  cases hresult : rs.rs_encode e.rs e.encode_buffer.buffer input with
  | none =>
    rw [hresult] at hencode
    cases hencode
  | some result =>
    obtain ⟨buffer, err' | ⟨n, degree⟩⟩ := result
    · rw [hresult] at hencode
      cases hencode
    · rw [hresult] at hencode
      simp only [offer, ne_eq, not_true_eq_false, if_false, List.nil_append,
        nt_rs_fec.encode_header, nt_rs_fec.reset_encode_buffer] at hencode ⊢
      by_cases hn : n = 0
      · rw [if_pos hn] at hencode ⊢
        cases hencode
        exact ⟨_, rfl, hrs, by rw [hrs]⟩
      · rw [if_neg hn] at hencode ⊢
        rw [encode_loop_joined _ { e with encode_buffer := ⟨e.encode_buffer.block_id, buffer⟩ } d]
        cases hencode
        exact ⟨_, rfl, hrs, by rw [hrs]⟩

/-- The decoder does not look at the buffer of the encoder, and leaves the code as it is. -/
theorem select_joined (fec : nt_rs_fec_t) (buffer : nt_rs_fec.encode_buffer_t) (block_id : UInt32)
    (current : Int) :
    nt_rs_fec.select_decode_buffer { fec with encode_buffer := buffer } block_id current =
        (nt_rs_fec.select_decode_buffer fec block_id current).map (fun r =>
          ({ r.1 with encode_buffer := buffer }, r.2)) ∧
      ∀ r, nt_rs_fec.select_decode_buffer fec block_id current = some r → r.1.rs = fec.rs := by
  unfold nt_rs_fec.select_decode_buffer
  cases hget : lrumap.lrumap_get fec.decode_buffer_cache block_id.toNat with
  | none => exact ⟨rfl, fun r h => by cases h⟩
  | some result =>
    obtain ⟨key_value, cache⟩ := result
    simp only [Option.bind_eq_bind, Option.bind_some]
    cases key_value with
    | some entry =>
      simp only [nt_rs_fec.pool_get, nt_rs_fec.pool_set]
      cases fec.decode_buffer_pool[entry.2]? with
      | none => exact ⟨rfl, fun r h => by cases h⟩
      | some decode_buffer =>
        simp only [Option.bind_some]
        cases rs_is_dc_complete fec.rs decode_buffer.buffer with
        | none => exact ⟨rfl, fun r h => by cases h⟩
        | some complete =>
          simp only [Option.bind_some]
          split
          · exact ⟨rfl, fun r h => by cases h; rfl⟩
          · exact ⟨rfl, fun r h => by cases h; rfl⟩
    | none =>
      simp only [nt_rs_fec.pool_get, nt_rs_fec.pool_set]
      cases lrumap.lrumap_peek cache with
      | none => exact ⟨rfl, fun r h => by cases h⟩
      | some eldest =>
        cases eldest with
        | none => exact ⟨rfl, fun r h => by cases h⟩
        | some entry =>
          simp only [Option.bind_some]
          cases fec.decode_buffer_pool[entry.2]? with
          | none => exact ⟨rfl, fun r h => by cases h⟩
          | some decode_buffer =>
            simp only [Option.bind_some]
            cases rs_is_dc_complete fec.rs decode_buffer.buffer with
            | none => exact ⟨rfl, fun r h => by cases h⟩
            | some complete =>
              simp only [Option.bind_some]
              split
              · exact ⟨rfl, fun r h => by cases h; rfl⟩
              · cases lrumap.lrumap_remove cache entry.1 with
                | none => exact ⟨rfl, fun r h => by cases h⟩
                | some removed =>
                  simp only [Option.bind_some]
                  split
                  · exact ⟨rfl, fun r h => by cases h⟩
                  · cases lrumap.lrumap_put removed.2 block_id.toNat entry.2 with
                    | none => exact ⟨rfl, fun r h => by cases h⟩
                    | some put =>
                      simp only [Option.bind_some]
                      split
                      · exact ⟨rfl, fun r h => by cases h⟩
                      · exact ⟨rfl, fun r h => by cases h; rfl⟩

theorem feed_joined {σ : Type} (callback : σ → List UInt8 → Int → error_t × σ) (fec : nt_rs_fec_t)
    (buffer : nt_rs_fec.encode_buffer_t) (index : Nat) (header : nt_fec_header_t)
    (input : List UInt8) (current : Int) (extra : σ) :
    nt_rs_fec.feed_decode_buffer { fec with encode_buffer := buffer } index header input current extra
        callback = (nt_rs_fec.feed_decode_buffer fec index header input current extra callback).map
          (fun r => (r.1, { r.2.1 with encode_buffer := buffer }, r.2.2)) ∧
      ∀ r, nt_rs_fec.feed_decode_buffer fec index header input current extra callback = some r →
        r.2.1.rs = fec.rs := by
  unfold nt_rs_fec.feed_decode_buffer
  simp only [nt_rs_fec.pool_get, nt_rs_fec.pool_set, Option.bind_eq_bind]
  cases fec.decode_buffer_pool[index]? with
  | none => exact ⟨rfl, fun r h => by cases h⟩
  | some decode_buffer =>
    simp only [Option.bind_some]
    cases rs_decode fec.rs decode_buffer.buffer input
        ((fec.rs.N : Int) - 1 - (header.block_index.toNat : Int)) with
    | none => exact ⟨rfl, fun r h => by cases h⟩
    | some result =>
      obtain ⟨dc, err | ⟨n, is_raw⟩⟩ := result
      · cases err <;> exact ⟨rfl, fun r h => by cases h; rfl⟩
      · simp only [Option.bind_some]
        cases rs_is_dc_complete fec.rs dc with
        | none => exact ⟨rfl, fun r h => by cases h⟩
        | some complete =>
          simp only [Option.bind_some]
          cases is_raw
          · simp only [Bool.false_eq_true, if_false, ne_eq, not_true_eq_false]
            cases nt_rs_fec.decode_loop fec.rs dc callback n 0 extra with
            | none => exact ⟨rfl, fun r h => by cases h⟩
            | some last => exact ⟨rfl, fun r h => by cases h; rfl⟩
          · simp only [if_true]
            split
            · exact ⟨rfl, fun r h => by cases h; rfl⟩
            · cases nt_rs_fec.decode_loop fec.rs dc callback n 0 (callback extra input input.length).2 with
              | none => exact ⟨rfl, fun r h => by cases h⟩
              | some last => exact ⟨rfl, fun r h => by cases h; rfl⟩

theorem rs_decode_joined {fec e d d' : nt_rs_fec_t} {header : nt_fec_header_t} {input : List UInt8}
    {current : Int} {err : error_t} {handed : List (List UInt8)} (h : rs_joined fec e d)
    (hdecode : rs_handed d header input current = some (err, d', handed)) :
    ∃ fec', rs_handed fec header input current = some (err, fec', handed) ∧ rs_joined fec' e d' := by
  obtain ⟨hrs, rfl⟩ := h
  suffices hboth : rs_handed { d with encode_buffer := e.encode_buffer } header input current =
      (rs_handed d header input current).map (fun r =>
        (r.1, { r.2.1 with encode_buffer := e.encode_buffer }, r.2.2)) ∧
      ∀ r, rs_handed d header input current = some r → r.2.1.rs = d.rs by
    refine ⟨{ d' with encode_buffer := e.encode_buffer }, ?_, ?_, rfl⟩
    · rw [hboth.1, hdecode]
      rfl
    · exact hrs.trans (hboth.2 _ hdecode).symm
  unfold rs_handed nt_rs_fec_decode
  obtain ⟨hselect, hkeep⟩ := select_joined d e.encode_buffer (nt_fec_header_block_id header) current
  simp only [hselect]
  split
  · exact ⟨rfl, fun r h => by cases h; rfl⟩
  · cases hresult : nt_rs_fec.select_decode_buffer d (nt_fec_header_block_id header) current with
    | none => exact ⟨rfl, fun r h => by cases h⟩
    | some result =>
      obtain ⟨fec', err' | index⟩ := result
      · exact ⟨rfl, fun r h => by cases h; exact hkeep _ hresult⟩
      · obtain ⟨hfeed, hkeep'⟩ := feed_joined (record fun _ _ _ => 0) fec' e.encode_buffer index header
          input current []
        simp only [Option.map_some, Option.bind_eq_bind, Option.bind_some, hfeed, Option.map_map]
        refine ⟨rfl, fun r h => ?_⟩
        obtain ⟨r', hr, rfl⟩ := Option.map_eq_some_iff.mp h
        exact (hkeep' r' hr).trans (hkeep _ hresult)

theorem rs_halves : Halves rs_emitted rs_handed rs_joined :=
  ⟨fun _ => ⟨rfl, rfl⟩, rs_encode_joined, rs_decode_joined⟩

/-- The encoder writes to nothing. -/
def dup_joined (fec e d : nt_dup_fec_t) : Prop := e.N = d.N ∧ fec = d

theorem dup_halves : Halves dup_emitted dup_handed dup_joined := by
  refine ⟨fun _ => ⟨rfl, rfl⟩, ?_, ?_⟩
  · rintro fec e d e' idgen idgen' input err ps ⟨hN, rfl⟩ h
    cases h
    exact ⟨fec, by rw [dup_emitted, hN], hN, rfl⟩
  · rintro fec e d d' header input current err handed ⟨hN, rfl⟩ h
    refine ⟨d', h, hN.trans ?_, rfl⟩
    unfold dup_handed nt_dup_fec_decode at h
    split at h
    · cases h
      rfl
    · split at h
      · cases hdedup : nt_dup_fec.dedup fec (nt_fec_header_block_id header).toNat current with
        | none =>
          simp only [hdedup, Option.bind_eq_bind, Option.bind_none] at h
          cases h
        | some result =>
          simp only [hdedup, Option.bind_eq_bind, Option.bind_some] at h
          split at h <;> cases h <;> rfl
      · cases h
        rfl

theorem dummy_halves : Halves dummy_emitted dummy_handed fun _ _ _ => True := by
  refine ⟨fun _ => trivial, fun {fec e d e' idgen idgen' input err ps} _ h => ⟨fec, h, trivial⟩,
    fun {fec e d d' header input current err handed} _ h => ⟨fec, h, trivial⟩⟩

end nettle.nt_processor
