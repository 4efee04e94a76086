-- Several encoders on one id generator: each emits one whole block after the
-- other, and no two blocks of any of them share an id.
import Nettle.EncoderStream

open nettle.nt_fec nettle.rs

namespace nettle.nt_rs_fec

/-! ## The model -/

/-- What `nt_rs_fec_init` is given. -/
structure config where
  N : UInt8
  K : UInt8
  max_data_size : Nat
  decode_buffer_size : Nat
  decode_timeout : Int
  perf : perf_t

/-- Several codecs are initialised one after the other, with one id generator. -/
def fecs_init : List config → idgen_t → Option (List nt_rs_fec_t × idgen_t)
  | [], idgen => some ([], idgen)
  | c :: configs, idgen => do
    let (fec, idgen) ← nt_rs_fec_init c.N c.K c.max_data_size c.decode_buffer_size
      c.decode_timeout idgen c.perf
    let (fecs, idgen) ← fecs_init configs idgen
    return (fec :: fecs, idgen)

/-- Calls of the encoders in any order: each names the encoder and its message, and is answered
by what that encoder emits. No packet is refused. -/
def encoders_run : List nt_rs_fec_t → idgen_t → List (Nat × List UInt8) →
    Option (List (Nat × List packet))
  | _, _, [] => some []
  | fecs, idgen, (e, input) :: calls => do
    let fec ← fecs[e]?
    let (_, fec, idgen, sent) ← nt_rs_fec_encode fec idgen input [] (offer fun _ => 0)
    let log ← encoders_run (fecs.set e fec) idgen calls
    return (e, sent) :: log

/-- The entries under one number, an encoder or a block, in order. -/
def entries_of {α : Type} (e : Nat) (calls : List (Nat × α)) : List α :=
  (calls.filter fun call => call.1 = e).map Prod.snd

section

variable {α : Type} {e e' : Nat}

@[simp] theorem entries_of_nil : entries_of e ([] : List (Nat × α)) = [] := rfl

@[simp] theorem entries_of_self (x : α) (calls : List (Nat × α)) :
    entries_of e ((e, x) :: calls) = x :: entries_of e calls := by
  simp [entries_of]

theorem entries_of_ne (h : e' ≠ e) (x : α) (calls : List (Nat × α)) :
    entries_of e ((e', x) :: calls) = entries_of e calls := by
  simp [entries_of, h]

theorem mem_entries_of {x : α} {calls : List (Nat × α)} :
    x ∈ entries_of e calls ↔ (e, x) ∈ calls := by
  simp [entries_of]

theorem entries_of_append (calls calls' : List (Nat × α)) :
    entries_of e (calls ++ calls') = entries_of e calls ++ entries_of e calls' := by
  simp [entries_of]

end

/-! ## Blocks -/

/-- The messages of block `b`. -/
def block_of (K : Nat) (inputs : List (List UInt8)) (b : Nat) : List (List UInt8) :=
  (inputs.drop (b * K)).take K

/-- The packets of a block with these messages; the redundant ones follow the last message. -/
def block_packets (rs : rs_t) (block_id : UInt32) (messages : List (List UInt8)) : List packet :=
  messages.mapIdx (packet_at rs block_id) ++
    if messages.length = rs.K then redundant_packets rs block_id messages else []

theorem block_packets_append (rs : rs_t) (block_id : UInt32) {messages : List (List UInt8)}
    (h : messages.length < rs.K) (input : List UInt8) :
    block_packets rs block_id (messages ++ [input]) =
      block_packets rs block_id messages ++ call_packets rs block_id messages input := by
  rw [block_packets, block_packets, call_packets, if_neg h.ne, List.length_append,
    List.length_singleton, List.mapIdx_append]
  simp

/-- What call `k` of an encoder emits. -/
def call_of (c : config) (ids : Nat → UInt32) (inputs : List (List UInt8)) (k : Nat) :
    List packet :=
  call_packets (rs_init c.N.toNat c.K.toNat c.max_data_size) (ids (k / c.K.toNat))
    (messages_before c.K.toNat inputs k) (inputs.getD k [])

theorem block_of_take {K b n : Nat} (h : b * K + K ≤ n) (inputs : List (List UInt8)) :
    block_of K (inputs.take n) b = block_of K inputs b := by
  rw [block_of, block_of, List.drop_take, List.take_take, Nat.min_eq_left (by omega)]

theorem block_of_last {K n : Nat} (hK : 1 ≤ K) {inputs : List (List UInt8)}
    (hn : n ≤ inputs.length) :
    block_of K (inputs.take n) (n / K) = messages_before K inputs n := by
  have hlen := length_messages_before (K := K) hn
  have hmod := Nat.mod_lt n hK
  exact List.take_of_length_le (by rw [← messages_before]; omega)

theorem block_of_with {K n : Nat} (hK : 1 ≤ K) {inputs : List (List UInt8)} {input : List UInt8}
    (hin : inputs[n]? = some input) :
    block_of K (inputs.take (n + 1)) (n / K) = messages_before K inputs n ++ [input] := by
  have hlen := length_messages_before (K := K) (List.getElem?_eq_some_iff.mp hin).1.le
  have hmod := Nat.mod_lt n hK
  rw [block_of, messages_with hin, List.take_of_length_le]
  rw [List.length_append, List.length_singleton]
  omega

/-- The calls of an encoder put together are its blocks put together. -/
theorem calls_are_blocks {c : config} (hK : 1 ≤ c.K.toNat) (ids : Nat → UInt32)
    {inputs : List (List UInt8)} {n : Nat} (hn : n ≤ inputs.length) :
    ((List.range n).map (call_of c ids inputs)).flatten =
      ((List.range (n / c.K.toNat + 1)).map fun b =>
        block_packets (rs_init c.N.toNat c.K.toNat c.max_data_size) (ids b)
          (block_of c.K.toNat (inputs.take n) b)).flatten := by
  have hempty : ∀ b, block_packets (rs_init c.N.toNat c.K.toNat c.max_data_size) (ids b) [] = [] :=
    fun b => by
      rw [block_packets, rs_init_K, if_neg (by rw [List.length_nil]; omega)]
      rfl
  induction n with
  | zero => simp [block_of, hempty]
  | succ n ih =>
    have hin : inputs[n]? = some inputs[n] := List.getElem?_eq_getElem hn
    have hlen := length_messages_before (K := c.K.toNat) (Nat.le_of_lt hn)
    have hmod := Nat.mod_lt n hK
    -- only the last block has changed
    have hbefore : ∀ b ∈ List.range (n / c.K.toNat),
        block_packets (rs_init c.N.toNat c.K.toNat c.max_data_size) (ids b)
          (block_of c.K.toNat (inputs.take (n + 1)) b) =
        block_packets (rs_init c.N.toNat c.K.toNat c.max_data_size) (ids b)
          (block_of c.K.toNat (inputs.take n) b) := fun b hb => by
      have hle : b * c.K.toNat + c.K.toNat ≤ n := by
        rw [← Nat.succ_mul]
        exact (Nat.mul_le_mul_right _ (List.mem_range.mp hb)).trans (Nat.div_mul_le_self n _)
      rw [block_of_take hle, block_of_take (hle.trans (Nat.le_succ n))]
    have hlast : block_packets (rs_init c.N.toNat c.K.toNat c.max_data_size)
        (ids (n / c.K.toNat)) (block_of c.K.toNat (inputs.take (n + 1)) (n / c.K.toNat)) =
        block_packets (rs_init c.N.toNat c.K.toNat c.max_data_size) (ids (n / c.K.toNat))
          (block_of c.K.toNat (inputs.take n) (n / c.K.toNat)) ++ call_of c ids inputs n := by
      rw [block_of_with hK hin, block_of_last hK (Nat.le_of_lt hn), block_packets_append _ _
        (by rw [rs_init_K]; omega), call_of, List.getD_eq_getElem?_getD, hin, Option.getD_some]
    have hone : ((List.range (n / c.K.toNat + 1)).map fun b =>
        block_packets (rs_init c.N.toNat c.K.toNat c.max_data_size) (ids b)
          (block_of c.K.toNat (inputs.take (n + 1)) b)).flatten =
        ((List.range (n + 1)).map (call_of c ids inputs)).flatten := by
      rw [List.range_succ, List.range_succ, List.map_append, List.map_append, List.flatten_append,
        List.flatten_append, ih (Nat.le_of_lt hn), List.map_congr_left hbefore, List.range_succ,
        List.map_append, List.flatten_append]
      simp [hlast]
    by_cases hdone : (n + 1) % c.K.toNat = 0
    · obtain ⟨hdiv, hmul⟩ := div_last hdone
      have hnew : block_of c.K.toNat (inputs.take (n + 1)) ((n + 1) / c.K.toNat) = [] := by
        rw [block_of_last hK hn, messages_before_last hdone]
      rw [← hone, List.range_succ (n := (n + 1) / c.K.toNat), List.map_append, List.flatten_append,
        List.map_singleton, hnew, hempty, hdiv]
      simp
    · rw [← hone, div_next hdone]

/-- A block as the receiver is to see it: one id, the indices in order, first the messages
themselves and after the last one exactly the redundant packets, every size in its header. -/
structure IsBlock (c : config) (block_id : UInt32) (messages : List (List UInt8))
    (packets : List packet) : Prop where
  indices : packets.map (fun p => p.1.block_index.toNat) =
    List.range (if messages.length = c.K.toNat then c.N.toNat else messages.length)
  messages : (packets.take messages.length).map Prod.snd = messages
  headers : ∀ p ∈ packets, p.1.tag = NT_RS_FEC_TAG ∧ p.1.N = c.N ∧ p.1.K = c.K ∧
    nt_fec_header_block_id p.1 = block_id
  sizes : ∀ p ∈ packets, (nt_fec_header_payload_size p.1).toNat = p.2.length ∧
    p.2.length ≤ c.max_data_size + 4

theorem block_index_packet_at (rs : rs_t) (block_id : UInt32) {i : Nat} (hi : i < 256)
    (payload : List UInt8) : (packet_at rs block_id i payload).1.block_index.toNat = i :=
  UInt8.toNat_ofNat_of_lt' hi

theorem headers_packet_at (c : config) (block_id : UInt32) (i : Nat) (payload : List UInt8) :
    let p := packet_at (rs_init c.N.toNat c.K.toNat c.max_data_size) block_id i payload
    p.1.tag = NT_RS_FEC_TAG ∧ p.1.N = c.N ∧ p.1.K = c.K ∧
      nt_fec_header_block_id p.1 = block_id :=
  ⟨rfl, UInt8.ofNat_toNat, UInt8.ofNat_toNat, block_id_init ..⟩

theorem size_packet_at (rs : rs_t) (block_id : UInt32) (i : Nat) {payload : List UInt8}
    (h : payload.length ≤ 65535) :
    (nt_fec_header_payload_size (packet_at rs block_id i payload).1).toNat = payload.length := by
  rw [packet_at, payload_size_init]
  exact UInt16.toNat_ofNat_of_lt' (Nat.lt_succ_of_le h)

theorem is_block {c : config} (hp : Params c.N.toNat c.K.toNat)
    (hsize : c.max_data_size + 4 ≤ 65535) (block_id : UInt32) {messages : List (List UInt8)}
    (hlen : messages.length ≤ c.K.toNat)
    (hmessages : ∀ message ∈ messages, message.length ≤ c.max_data_size) :
    IsBlock c block_id messages (block_packets (rs_init c.N.toNat c.K.toNat c.max_data_size)
      block_id messages) := by
  have hN := c.N.toNat_lt
  have hlt := hp.lt
  -- both parts of a block hold packets of this kind
  have hkind : ∀ p ∈ block_packets (rs_init c.N.toNat c.K.toNat c.max_data_size) block_id messages,
      ∃ i payload, p = packet_at (rs_init c.N.toNat c.K.toNat c.max_data_size) block_id i payload ∧
        payload.length ≤ c.max_data_size + 4 := by
    intro p hmem
    rw [block_packets, List.mem_append] at hmem
    rcases hmem with hmem | hmem
    · obtain ⟨i, hi, rfl⟩ := List.mem_mapIdx.mp hmem
      exact ⟨i, _, rfl, (hmessages _ (List.getElem_mem hi)).trans (Nat.le_add_right _ _)⟩
    · split at hmem
      · obtain ⟨r, -, rfl⟩ := List.mem_map.mp hmem
        exact ⟨_, _, rfl, length_redundant_le _ _ _⟩
      · cases hmem
  refine ⟨?_, ?_, fun p hmem => ?_, fun p hmem => ?_⟩
  · have hraw : (messages.mapIdx (packet_at (rs_init c.N.toNat c.K.toNat c.max_data_size)
        block_id)).map (fun p => p.1.block_index.toNat) = List.range messages.length := by
      refine List.ext_getElem (by simp) fun i hi _ => ?_
      simp only [List.length_map, List.length_mapIdx] at hi
      simp only [List.getElem_map, List.getElem_mapIdx, List.getElem_range]
      exact block_index_packet_at _ _ (by omega) _
    rw [block_packets, List.map_append, hraw, rs_init_K]
    split
    · next hfull =>
      have hred : (redundant_packets (rs_init c.N.toNat c.K.toNat c.max_data_size) block_id
          messages).map (fun p => p.1.block_index.toNat) =
          (List.range (c.N.toNat - c.K.toNat)).map (c.K.toNat + ·) := by
        rw [redundant_packets, T_SIZE_init, rs_init_K, List.map_map]
        refine List.map_congr_left fun r hr => block_index_packet_at _ _ ?_ _
        have := List.mem_range.mp hr
        omega
      rw [hred, hfull, ← List.range_add, Nat.add_sub_cancel' hlt.le]
    · simp
  · rw [block_packets, List.take_left' List.length_mapIdx]
    refine List.ext_getElem (by simp) fun i hi _ => ?_
    simp only [List.getElem_map, List.getElem_mapIdx]
    rfl
  · obtain ⟨i, payload, rfl, -⟩ := hkind p hmem
    exact headers_packet_at c block_id i payload
  · obtain ⟨i, payload, rfl, hle⟩ := hkind p hmem
    exact ⟨size_packet_at _ _ _ (hle.trans hsize), hle⟩

/-! ## The run -/

/-- The blocks that one encoder has begun after these calls, the empty one at the end included. -/
def begun (configs : List config) (calls : List (Nat × List UInt8)) (e : Nat) : Nat :=
  match configs[e]? with
  | some c => (entries_of e calls).length / c.K.toNat + 1
  | none => 0

/-- All blocks begun. -/
def blocks_begun (configs : List config) (calls : List (Nat × List UInt8)) : Nat :=
  ∑ e ∈ Finset.range configs.length, begun configs calls e

theorem begun_of {configs : List config} {e : Nat} {c : config} (h : configs[e]? = some c)
    (calls : List (Nat × List UInt8)) :
    begun configs calls e = (entries_of e calls).length / c.K.toNat + 1 := by
  rw [begun, h]

theorem begun_call {configs : List config} {e e' : Nat} (c : config) (h : configs[e]? = some c)
    (calls : List (Nat × List UInt8)) (input : List UInt8) :
    begun configs (calls ++ [(e, input)]) e' = begun configs calls e' +
      if e = e' ∧ ((entries_of e calls).length + 1) % c.K.toNat = 0 then 1 else 0 := by
  by_cases he : e = e'
  · subst he
    rw [begun_of h, begun_of h, entries_of_append, entries_of_self, entries_of_nil,
      List.length_append, List.length_singleton]
    by_cases hlast : ((entries_of e calls).length + 1) % c.K.toNat = 0
    · rw [(div_last hlast).1, if_pos ⟨rfl, hlast⟩]
    · rw [div_next hlast, if_neg fun hc => hlast hc.2]
  · rw [if_neg fun hc => he hc.1, begun, begun, entries_of_append, entries_of_ne he,
      entries_of_nil, List.append_nil, Nat.add_zero]

theorem blocks_begun_call {configs : List config} {e : Nat} {c : config}
    (h : configs[e]? = some c) (calls : List (Nat × List UInt8)) (input : List UInt8) :
    blocks_begun configs (calls ++ [(e, input)]) = blocks_begun configs calls +
      if ((entries_of e calls).length + 1) % c.K.toNat = 0 then 1 else 0 := by
  have hlt := (List.getElem?_eq_some_iff.mp h).1
  simp only [blocks_begun, begun_call c h, Finset.sum_add_distrib]
  congr 1
  split
  · next hlast => simp [hlast, hlt]
  · next hlast => simp [hlast]

/-- The encoders after the calls `done` of `all`: block `b` of encoder `e` has taken the id
number `off e b` of the generator. -/
structure Running (configs : List config) (first : UInt32) (all done : List (Nat × List UInt8))
    (off : Nat → Nat → Nat) (fecs : List nt_rs_fec_t) (idgen : idgen_t) : Prop where
  placed : ∀ e c, configs[e]? = some c → ∃ fec, fecs[e]? = some fec ∧
    Placed c.N.toNat c.K.toNat c.max_data_size (fun b => first + UInt32.ofNat (off e b))
      (entries_of e all) (entries_of e done).length fec
  idgen : idgen = first + UInt32.ofNat (blocks_begun configs done)
  lt : ∀ e b, b < begun configs done e → off e b < blocks_begun configs done
  inj : ∀ e b e' b', b < begun configs done e → b' < begun configs done e' →
    off e b = off e' b' → e = e' ∧ b = b'

/-- The number of an id that block `b` of encoder `e` takes anew. -/
def take_id (off : Nat → Nat → Nat) (e b id : Nat) : Nat → Nat → Nat :=
  Function.update off e (Function.update (off e) b id)

theorem Placed.congr {N K D : Nat} {ids : Nat → UInt32} (ids' : Nat → UInt32)
    {inputs : List (List UInt8)} {c : Nat} {fec : nt_rs_fec_t} (h : Placed N K D ids inputs c fec)
    (heq : ids' (c / K) = ids (c / K)) : Placed N K D ids' inputs c fec := by
  unfold Placed at h ⊢
  rwa [heq]

/-- One call. The ids of the blocks begun before stay. -/
theorem running_call {configs : List config} {first : UInt32}
    {all done rest : List (Nat × List UInt8)} {off : Nat → Nat → Nat} {fecs : List nt_rs_fec_t}
    {idgen : idgen_t} (h : Running configs first all done off fecs idgen) {e : Nat}
    {input : List UInt8} (hall : all = done ++ (e, input) :: rest) {c : config}
    (hc : configs[e]? = some c) (hp : Params c.N.toNat c.K.toNat)
    (hsize : input.length ≤ c.max_data_size) :
    ∃ fec err fec' idgen' off', fecs[e]? = some fec ∧
      nt_rs_fec_encode fec idgen input [] (offer fun _ => 0) = some (err, fec', idgen',
        call_of c (fun b => first + UInt32.ofNat (off' e b)) (entries_of e all)
          (entries_of e done).length) ∧
      Running configs first all (done ++ [(e, input)]) off' (fecs.set e fec') idgen' ∧
      ∀ e' b, b < begun configs done e' → off' e' b = off e' b := by
  obtain ⟨fec, hfec, hplaced⟩ := h.placed e c hc
  have hbegun := begun_of hc done
  have hin : (entries_of e all)[(entries_of e done).length]? = some input := by
    rw [hall, entries_of_append, entries_of_self, List.getElem?_append_right le_rfl, Nat.sub_self]
    rfl
  generalize hn : (entries_of e done).length = n at *
  -- the block that the last message of a block begins takes the next id
  obtain ⟨off', hagree, hnew⟩ : ∃ off' : Nat → Nat → Nat,
      (∀ e' b, b < begun configs done e' → off' e' b = off e' b) ∧
        off' e (n / c.K.toNat + 1) = blocks_begun configs done := by
    refine ⟨take_id off e (n / c.K.toNat + 1) (blocks_begun configs done), fun e' b hb => ?_, ?_⟩
    · by_cases he : e' = e
      · subst he
        rw [take_id, Function.update_self, Function.update_of_ne (by omega)]
      · rw [take_id, Function.update_of_ne he]
    · rw [take_id, Function.update_self, Function.update_self]
  obtain ⟨err, fec', idgen', hcall, hnext⟩ := encode_placed hp
    (hplaced.congr (fun b => first + UInt32.ofNat (off' e b))
      (by simp only [hagree e (n / c.K.toNat) (by omega)])) hin hsize (fun _ => 0) idgen
  rw [until_error_ok] at hcall
  refine ⟨fec, err, fec', idgen', off', hfec, ?_, ?_, hagree⟩
  · rw [hcall, call_of, List.getD_eq_getElem?_getD, hin, Option.getD_some]
  · have hafter : Placed c.N.toNat c.K.toNat c.max_data_size
          (fun b => first + UInt32.ofNat (off' e b)) (entries_of e all) (n + 1) fec' ∧
        idgen' = first + UInt32.ofNat (blocks_begun configs (done ++ [(e, input)])) := by
      rw [blocks_begun_call hc, hn]
      rcases hnext with ⟨hlast, -, hgen, hplaced'⟩ | ⟨-, herr, -⟩ | ⟨hmid, hgen, hplaced'⟩
      · rw [if_pos hlast, UInt32.ofNat_add, ← UInt32.add_assoc, ← h.idgen]
        exact ⟨hplaced' (by rw [(div_last hlast).1, hnew, h.idgen]), hgen⟩
      · exact absurd rfl herr
      · rw [if_neg hmid]
        exact ⟨hplaced', hgen.trans h.idgen⟩
    have hcases : ∀ e' b, b < begun configs (done ++ [(e, input)]) e' →
        b < begun configs done e' ∧ off' e' b = off e' b ∨
          e' = e ∧ b = n / c.K.toNat + 1 ∧ off' e' b = blocks_begun configs done ∧
            blocks_begun configs (done ++ [(e, input)]) = blocks_begun configs done + 1 := by
      intro e' b hb
      rw [begun_call c hc, hn] at hb
      by_cases hold : b < begun configs done e'
      · exact Or.inl ⟨hold, hagree e' b hold⟩
      · split at hb
        · next hlast =>
          obtain ⟨rfl, hlast⟩ := hlast
          obtain rfl : b = n / c.K.toNat + 1 := by omega
          exact Or.inr ⟨rfl, rfl, hnew, by rw [blocks_begun_call hc, hn, if_pos hlast]⟩
        · exact absurd hb hold
    have hmono : blocks_begun configs done ≤ blocks_begun configs (done ++ [(e, input)]) := by
      rw [blocks_begun_call hc]
      exact Nat.le_add_right _ _
    refine ⟨fun e' c' hc' => ?_, hafter.2, fun e' b hb => ?_, fun e₁ b₁ e₂ b₂ h₁ h₂ heq => ?_⟩
    · by_cases he : e = e'
      · subst he
        rw [hc, Option.some.injEq] at hc'
        subst hc'
        refine ⟨fec', List.getElem?_set_self (List.getElem?_eq_some_iff.mp hfec).1, ?_⟩
        rw [entries_of_append, List.length_append, hn, entries_of_self, entries_of_nil]
        exact hafter.1
      · obtain ⟨fec₀, hfec₀, hplaced₀⟩ := h.placed e' c' hc'
        refine ⟨fec₀, by rw [List.getElem?_set_ne he, hfec₀], ?_⟩
        rw [entries_of_append, entries_of_ne he, entries_of_nil, List.append_nil]
        refine hplaced₀.congr _ ?_
        simp only [hagree e' _ ((Nat.lt_succ_self _).trans_eq (begun_of hc' done).symm)]
    · rcases hcases e' b hb with ⟨hold, heq⟩ | ⟨-, -, heq, hone⟩
      · rw [heq]
        exact (h.lt e' b hold).trans_le hmono
      · omega
    · rcases hcases e₁ b₁ h₁ with ⟨hold₁, heq₁⟩ | ⟨he₁, hb₁, heq₁, -⟩ <;>
        rcases hcases e₂ b₂ h₂ with ⟨hold₂, heq₂⟩ | ⟨he₂, hb₂, heq₂, -⟩
      · exact h.inj e₁ b₁ e₂ b₂ hold₁ hold₂ (by rw [← heq₁, ← heq₂, heq])
      · have := h.lt e₁ b₁ hold₁
        omega
      · have := h.lt e₂ b₂ hold₂
        omega
      · exact ⟨he₁.trans he₂.symm, hb₁.trans hb₂.symm⟩

/-- The calls that are left: the encoders go on from where they are. -/
theorem running_calls {configs : List config} {first : UInt32} {all : List (Nat × List UInt8)}
    (hp : ∀ c ∈ configs, Params c.N.toNat c.K.toNat)
    (hall : ∀ call ∈ all, ∃ c, configs[call.1]? = some c ∧ call.2.length ≤ c.max_data_size)
    (calls done : List (Nat × List UInt8)) (heq : all = done ++ calls) {off : Nat → Nat → Nat}
    {fecs : List nt_rs_fec_t} {idgen : idgen_t}
    (h : Running configs first all done off fecs idgen) :
    ∃ log off' fecs' idgen', encoders_run fecs idgen calls = some log ∧
      Running configs first all all off' fecs' idgen' ∧
      (∀ e b, b < begun configs done e → off' e b = off e b) ∧
      ∀ e c, configs[e]? = some c → entries_of e log =
        (List.range' (entries_of e done).length (entries_of e calls).length).map
          (call_of c (fun b => first + UInt32.ofNat (off' e b)) (entries_of e all)) := by
  induction calls generalizing done off fecs idgen with
  | nil =>
    rw [List.append_nil] at heq
    subst heq
    exact ⟨[], off, fecs, idgen, rfl, h, fun _ _ _ => rfl, fun _ _ _ => rfl⟩
  | cons call calls ih =>
    obtain ⟨e, input⟩ := call
    obtain ⟨c, hc, hsize⟩ := hall (e, input) (by simp [heq])
    obtain ⟨fec, err, fec', idgen', off₁, hfec, hcall, hrunning, hagree₁⟩ :=
      running_call h heq hc (hp c (List.mem_of_getElem? hc)) hsize
    obtain ⟨log, off', fecs', idgen'', hrun, hlast, hagree, hlog⟩ :=
      ih (done ++ [(e, input)]) (by simp [heq]) hrunning
    have hgrow : ∀ e' b, b < begun configs done e' →
        b < begun configs (done ++ [(e, input)]) e' := fun e' b hb => by
      rw [begun_call c hc]
      omega
    refine ⟨(e, call_of c (fun b => first + UInt32.ofNat (off₁ e b)) (entries_of e all)
      (entries_of e done).length) :: log, off', fecs', idgen'', ?_, hlast,
      fun e' b hb => (hagree e' b (hgrow e' b hb)).trans (hagree₁ e' b hb), fun e' c' hc' => ?_⟩
    · unfold encoders_run
      simp only [hfec, hcall, hrun, Option.bind_eq_bind, Option.bind_some]
      rfl
    · have hlog := hlog e' c' hc'
      by_cases he : e = e'
      · subst he
        rw [hc, Option.some.injEq] at hc'
        subst hc'
        rw [entries_of_append, entries_of_self, entries_of_nil, List.length_append,
          List.length_singleton] at hlog
        rw [entries_of_self, entries_of_self, List.length_cons, List.range'_succ, List.map_cons,
          hlog, call_of, call_of, hagree e _ (hgrow e _ (by rw [begun_of hc]; exact Nat.lt_succ_self _))]
      · rw [entries_of_append, entries_of_ne he, entries_of_nil, List.append_nil] at hlog
        rw [entries_of_ne he, entries_of_ne he, hlog]

theorem fecs_init_placed {configs : List config} {first idgen : idgen_t}
    {fecs : List nt_rs_fec_t} (h : fecs_init configs first = some (fecs, idgen)) :
    idgen = first + UInt32.ofNat configs.length ∧ ∀ e c, configs[e]? = some c →
      ∃ fec, fecs[e]? = some fec ∧ Encoding c.N.toNat c.K.toNat c.max_data_size
        (first + UInt32.ofNat e) [] fec := by
  induction configs generalizing first fecs with
  | nil =>
    cases h
    exact ⟨(UInt32.add_zero _).symm, fun e c hc => by simp at hc⟩
  | cons c₀ configs ih =>
    simp only [fecs_init, Option.bind_eq_bind, Option.bind_eq_some_iff] at h
    obtain ⟨⟨fec₀, idgen₀⟩, hinit, ⟨fecs₀, idgen₁⟩, hstart, h⟩ := h
    cases h
    obtain ⟨hfec₀, rfl⟩ := nt_rs_fec_init_encoding hinit
    obtain ⟨hidgen, hfecs⟩ := ih hstart
    have hnext : ∀ n, first + 1 + UInt32.ofNat n = first + UInt32.ofNat (n + 1) := fun n => by
      rw [UInt32.ofNat_add, UInt32.add_comm (UInt32.ofNat n), ← UInt32.add_assoc]
      rfl
    refine ⟨by rw [hidgen, hnext, List.length_cons], fun e c hc => ?_⟩
    rcases e with _ | e
    · rw [List.getElem?_cons_zero, Option.some.injEq] at hc
      subst hc
      exact ⟨fec₀, rfl, by simpa using hfec₀⟩
    · obtain ⟨fec, hfec, henc⟩ := hfecs e c hc
      exact ⟨fec, hfec, hnext e ▸ henc⟩

theorem running_start {configs : List config} {first idgen : idgen_t} {fecs : List nt_rs_fec_t}
    (h : fecs_init configs first = some (fecs, idgen)) (all : List (Nat × List UInt8)) :
    Running configs first all [] (fun e _ => e) fecs idgen := by
  obtain ⟨hidgen, hfecs⟩ := fecs_init_placed h
  have hbegun : ∀ e, begun configs [] e = if e < configs.length then 1 else 0 := fun e => by
    unfold begun
    split
    · next c hc => simp [(List.getElem?_eq_some_iff.mp hc).1]
    · next hc => rw [if_neg (Nat.not_lt.mpr (List.getElem?_eq_none_iff.mp hc))]
  have hall : blocks_begun configs [] = configs.length := by
    simp [blocks_begun, hbegun, Finset.filter_true_of_mem fun e he => Finset.mem_range.mp he]
  have hone : ∀ e b, b < begun configs [] e → e < configs.length ∧ b = 0 := fun e b hb => by
    rw [hbegun] at hb
    split at hb <;> omega
  refine ⟨fun e c hc => ?_, by rw [hall, hidgen], fun e b hb => ?_, fun e b e' b' hb hb' heq => ?_⟩
  · obtain ⟨fec, hfec, henc⟩ := hfecs e c hc
    exact ⟨fec, hfec, by simpa [Placed, messages_before] using henc⟩
  · rw [hall]
    exact (hone e b hb).1
  · exact ⟨heq, (hone e b hb).2.trans (hone e' b' hb').2.symm⟩

/-! ## The stream of each encoder -/

/-- What one encoder emits: blocks of K messages in order, each under its own id, where only the
call of a last message emits more than its raw packet. -/
structure BlockStream (c : config) (ids : Nat → UInt32) (inputs : List (List UInt8))
    (sent : List (List packet)) : Prop where
  blocks : ∃ blocks : List (List packet), sent.flatten = blocks.flatten ∧
    blocks.length = inputs.length / c.K.toNat + 1 ∧
    ∀ b packets, blocks[b]? = some packets →
      IsBlock c (ids b) (block_of c.K.toNat inputs b) packets
  calls : sent.map List.length = (List.range inputs.length).map fun k =>
    if (k + 1) % c.K.toNat = 0 then 1 + (c.N.toNat - c.K.toNat) else 1

theorem block_stream {c : config} (hp : Params c.N.toNat c.K.toNat)
    (hsize : c.max_data_size + 4 ≤ 65535) (ids : Nat → UInt32) {inputs : List (List UInt8)}
    (hinputs : ∀ input ∈ inputs, input.length ≤ c.max_data_size) :
    BlockStream c ids inputs ((List.range inputs.length).map (call_of c ids inputs)) := by
  constructor
  · refine ⟨_, calls_are_blocks hp.pos ids le_rfl, by simp, fun b packets hb => ?_⟩
    rw [List.take_length, List.getElem?_map] at hb
    obtain ⟨b', hb', rfl⟩ := Option.map_eq_some_iff.mp hb
    obtain ⟨-, rfl⟩ := List.getElem?_eq_some_iff.mp hb'
    rw [List.getElem_range]
    exact is_block hp hsize (ids b) (List.length_take_le _ _) fun message hmessage =>
      hinputs message (List.mem_of_mem_drop (List.mem_of_mem_take hmessage))
  · rw [List.map_map]
    refine List.map_congr_left fun k hk => ?_
    have hlen := length_messages_before (K := c.K.toNat) (List.mem_range.mp hk).le
    simp only [Function.comp_apply, call_of, call_packets, List.length_cons, hlen, rs_init_K,
      ← place_mod hp.pos]
    split
    · rw [redundant_packets, List.length_map, List.length_range, T_SIZE_init, Nat.add_comm]
    · rfl

/-- Any interleaving of any number of encoders on one generator, with fewer than 2^32 blocks in
all: each emits its own stream of blocks, and no two blocks share an id. -/
theorem encoders_emit_blocks {configs : List config} {first idgen : idgen_t}
    {fecs : List nt_rs_fec_t} (hstart : fecs_init configs first = some (fecs, idgen))
    (hp : ∀ c ∈ configs, Params c.N.toNat c.K.toNat ∧ c.max_data_size + 4 ≤ 65535)
    {calls : List (Nat × List UInt8)}
    (hcalls : ∀ call ∈ calls, ∃ c, configs[call.1]? = some c ∧ call.2.length ≤ c.max_data_size)
    (hblocks : blocks_begun configs calls ≤ 2 ^ 32) :
    ∃ log, encoders_run fecs idgen calls = some log ∧ ∃ ids : Nat → Nat → UInt32,
      (∀ e c, configs[e]? = some c →
        BlockStream c (ids e) (entries_of e calls) (entries_of e log)) ∧
      ∀ e b e' b', b < begun configs calls e → b' < begun configs calls e' →
        ids e b = ids e' b' → e = e' ∧ b = b' := by
  obtain ⟨log, off, _, _, hrun, hend, -, hlog⟩ := running_calls (fun c hc => (hp c hc).1) hcalls
    calls [] rfl (running_start hstart calls)
  refine ⟨log, hrun, fun e b => first + UInt32.ofNat (off e b), fun e c hc => ?_,
    fun e b e' b' hb hb' heq => hend.inj e b e' b' hb hb' ?_⟩
  · obtain ⟨hparams, hsize⟩ := hp c (List.mem_of_getElem? hc)
    rw [hlog e c hc, entries_of_nil, List.length_nil, ← List.range_eq_range']
    refine block_stream hparams hsize _ fun input hinput => ?_
    obtain ⟨call, hcall, rfl⟩ := List.mem_map.mp hinput
    obtain ⟨hmem, he⟩ := List.mem_filter.mp hcall
    obtain ⟨c', hc', hle⟩ := hcalls call hmem
    rw [of_decide_eq_true he, hc, Option.some.injEq] at hc'
    rwa [hc']
  · have heq := congrArg UInt32.toNat ((UInt32.add_right_inj first).mp heq)
    have hlt := hend.lt e b hb
    have hlt' := hend.lt e' b' hb'
    rwa [UInt32.toNat_ofNat_of_lt' (hlt.trans_le hblocks),
      UInt32.toNat_ofNat_of_lt' (hlt'.trans_le hblocks)] at heq

theorem two_encoders_emit_blocks : ∃ fecs idgen,
    fecs_init [⟨2, 1, 4, 2, 100, fun _ => 0⟩, ⟨3, 2, 4, 2, 100, fun _ => 0⟩] 5 =
      some (fecs, idgen) ∧
    ∃ log, encoders_run fecs idgen [(1, [8]), (0, [7]), (1, []), (0, [9])] = some log ∧
      ∃ ids : Nat → Nat → UInt32,
        (∀ e c, [(⟨2, 1, 4, 2, 100, fun _ => 0⟩ : config),
            ⟨3, 2, 4, 2, 100, fun _ => 0⟩][e]? = some c →
          BlockStream c (ids e) (entries_of e [(1, [8]), (0, [7]), (1, []), (0, [9])])
            (entries_of e log)) ∧
        ∀ e b e' b',
          b < begun [⟨2, 1, 4, 2, 100, fun _ => 0⟩, ⟨3, 2, 4, 2, 100, fun _ => 0⟩]
            [(1, [8]), (0, [7]), (1, []), (0, [9])] e →
          b' < begun [⟨2, 1, 4, 2, 100, fun _ => 0⟩, ⟨3, 2, 4, 2, 100, fun _ => 0⟩]
            [(1, [8]), (0, [7]), (1, []), (0, [9])] e' →
          ids e b = ids e' b' → e = e' ∧ b = b' := by
  obtain ⟨⟨fecs, idgen⟩, h⟩ := Option.isSome_iff_exists.mp (by decide +kernel :
    (fecs_init [⟨2, 1, 4, 2, 100, fun _ => 0⟩, ⟨3, 2, 4, 2, 100, fun _ => 0⟩] 5).isSome = true)
  refine ⟨fecs, idgen, h, encoders_emit_blocks h ?_ ?_ (by decide +kernel)⟩
  · simp only [List.mem_cons, List.not_mem_nil, or_false, forall_eq_or_imp, forall_eq]
    exact ⟨⟨⟨by decide, by decide, by decide⟩, by decide⟩,
      ⟨by decide, by decide, by decide⟩, by decide⟩
  · simp only [List.mem_cons, List.not_mem_nil, or_false, forall_eq_or_imp, forall_eq]
    exact ⟨⟨_, rfl, by decide⟩, ⟨_, rfl, by decide⟩, ⟨_, rfl, by decide⟩, ⟨_, rfl, by decide⟩⟩

end nettle.nt_rs_fec
