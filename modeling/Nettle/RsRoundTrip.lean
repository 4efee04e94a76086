-- The round trip of a block through rs.c. A received packet marks its degree
-- by a shift of an `int`, so two degrees can share a mark: the messages come
-- back exactly when no received packet shares its mark with a packet that
-- matters.
import Nettle.RsRestore

open Polynomial binary_field erasure_code in_place nettle.galois nettle.rscode

namespace nettle.rs

/-! ## Runs of the codec -/

/-- One call of `rs_encode` for each message: the packets with their degrees. -/
def encode_raw (rs : rs_t) : rs_ec_t → List (List UInt8) →
    Option (rs_ec_t × List (Nat × List UInt8))
  | ec, [] => some (ec, [])
  | ec, input :: inputs =>
    match rs_encode rs ec input with
    | some (ec, .ok (_, degree)) =>
      (encode_raw rs ec inputs).map fun (ec, packets) => (ec, (degree, input) :: packets)
    | _ => none

/-- One call of `rs_encode_result` for each redundant packet. -/
def encode_redundant (rs : rs_t) (ec : rs_ec_t) : Option (List (Nat × List UInt8)) :=
  (List.range (T_SIZE rs)).mapM fun index =>
    match rs_encode_result rs ec index (RS_MAX_ENCODED_SIZE rs.max_data_size) with
    | .ok (payload, degree) => some (degree, payload)
    | .error _ => none

/-- All packets of a block, in their order. -/
def encode_block (rs : rs_t) (ec : rs_ec_t) (messages : List (List UInt8)) :
    Option (List (Nat × List UInt8)) := do
  let (ec, raw) ← encode_raw rs (rs_reset_ec rs ec) messages
  let redundant ← encode_redundant rs ec
  return raw ++ redundant

/-- One call of `rs_decode` for each packet, with what the calls return. -/
def decode_packets (rs : rs_t) : rs_dc_t → List (Nat × List UInt8) →
    Option (rs_dc_t × List (Except rs_error (Nat × Bool)))
  | dc, [] => some (dc, [])
  | dc, (degree, payload) :: packets => do
    let (dc, result) ← rs_decode rs dc payload degree
    let (dc, results) ← decode_packets rs dc packets
    return (dc, result :: results)

/-- The messages of a block whose packets are not among the received ones. -/
def missing (K : Nat) (order : List Nat) : List Nat := (List.range K).filter fun i => i ∉ order

/-- Whatever the messages are, the packets of a block received in this order are all accepted,
the last call returns the number of missing messages, and each of them comes back, with its
degree, its size and its bytes. -/
def MessagesComeBack (N K max_data_size : Nat) (order : List Nat) : Prop :=
  let rs := rs_init N K max_data_size
  ∀ messages : List (List UInt8), messages.length = K →
    (∀ message ∈ messages, message.length ≤ max_data_size) →
    ∀ (ec : rs_ec_t) (dc : rs_dc_t) (size : Nat), max_data_size ≤ size →
    ∃ packets dc' results n is_raw,
      encode_block rs ec messages = some packets ∧
      decode_packets rs (rs_reset_dc rs dc) (order.map fun i => packets.getD i (0, [])) =
        some (dc', results) ∧
      (∀ result ∈ results, ∃ value, result = .ok value) ∧
      results.getLast? = some (.ok (n, is_raw)) ∧ n = (missing K order).length ∧
      ∀ index < n,
        let i := (missing K order).getD index 0
        let message := messages.getD i []
        rs_decode_result rs dc' index size = some (.ok (message, message.length, N - 1 - i))

/-- The mark of a packet in the mask. -/
def mark (N i : Nat) : Nat × Nat := slot (N - 1 - i)

/-- No two received packets share a mark, no missing message shares one with a received packet,
and, unless there is nothing to restore, no missing packet at all does. -/
def MarksApart (N K max_data_size : Nat) (order : List Nat) : Prop :=
  (order.map (mark N)).Nodup ∧
  (∀ i < K, i ∉ order → mark N i ∉ order.map (mark N)) ∧
  ((∀ i < K, i ∈ order) ∨ max_data_size = 0 ∨
    ∀ i < N, i ∉ order → mark N i ∉ order.map (mark N))

set_option synthInstance.maxSize 1000 in
instance (N K max_data_size : Nat) (order : List Nat) :
    Decidable (MarksApart N K max_data_size order) := by
  unfold MarksApart
  infer_instance

/-! ## The packets of a block -/

theorem encode_raw_spec {rs : rs_t} {messages : List (List UInt8)} {ec : rs_ec_t}
    (h : Encoded rs messages ec) (inputs : List (List UInt8))
    (hsize : ∀ input ∈ inputs, input.length ≤ rs.max_data_size)
    (hroom : messages.length + inputs.length ≤ rs.K) :
    ∃ ec', encode_raw rs ec inputs = some (ec', (List.range inputs.length).map fun i =>
        (rs.N - 1 - (messages.length + i), inputs.getD i [])) ∧
      Encoded rs (messages ++ inputs) ec' := by
  induction inputs generalizing messages ec with
  | nil => exact ⟨ec, rfl, by rwa [List.append_nil]⟩
  | cons input inputs ih =>
    rw [List.length_cons] at hroom
    obtain ⟨ec1, h1, h2⟩ := rs_encode_step h (hsize input List.mem_cons_self) (by omega)
    obtain ⟨ec2, h3, h4⟩ := ih h2 (fun x hx => hsize x (List.mem_cons_of_mem _ hx))
      (by rw [List.length_append, List.length_singleton]; omega)
    refine ⟨ec2, ?_, by rwa [List.append_assoc] at h4⟩
    unfold encode_raw
    rw [h1]
    simp only [h3, Option.map_some, Option.some.injEq, Prod.mk.injEq, true_and]
    rw [List.length_cons, List.range_succ_eq_map, List.map_cons, List.map_map]
    congr 1
    apply List.map_congr_left
    intro i _
    simp only [Function.comp_apply, List.length_append, List.length_singleton, Nat.succ_eq_add_one,
      List.getD_cons_succ]
    rw [show messages.length + 1 + i = messages.length + (i + 1) by omega]

/-- Packet `i` of a block stands at degree `N - 1 - i`. -/
theorem encode_block_eq {N K D : Nat} (hp : Params N K) {messages : List (List UInt8)}
    (hb : Block (rs_init N K D) messages) (ec : rs_ec_t) :
    encode_block (rs_init N K D) ec messages = some ((List.range N).map fun i =>
      (N - 1 - i, payload_at (rs_init N K D) messages (N - 1 - i))) := by
  have := hp.lt
  have hK : messages.length = K := hb.length
  obtain ⟨ec', h1, h2⟩ := encode_raw_spec (encoded_reset (rs_init N K D) ec) messages hb.size
    (by simp [hb.length])
  rw [List.nil_append] at h2
  have hred : encode_redundant (rs_init N K D) ec' = some ((List.range (N - K)).map fun index =>
      (N - K - 1 - index, redundant (rs_init N K D) messages index)) := by
    apply mapM_eq_some_map
    intro index hindex
    rw [List.mem_range] at hindex
    rw [rs_encode_result_spec h2 hindex le_rfl]
    rfl
  have hsplit : List.range N = List.range K ++ (List.range (N - K)).map (K + ·) := by
    rw [← List.range_add]
    congr 1
    omega
  unfold encode_block
  rw [h1]
  simp only [Option.bind_eq_bind, Option.bind_some, hred]
  rw [hsplit, List.map_append, List.map_map, hK]
  simp only [Option.pure_def, Option.some.injEq]
  congr 1
  · apply List.map_congr_left
    intro i hi
    rw [List.mem_range] at hi
    have hraw : IS_RAW (rs_init N K D) (N - 1 - i) = true := by
      rw [IS_RAW_init]
      simp only [decide_eq_true_eq]
      omega
    rw [payload_at, if_pos hraw]
    simp only [rs_init_N, List.length_nil, Nat.zero_add]
    rw [show N - 1 - (N - 1 - i) = i by omega]
  · apply List.map_congr_left
    intro index hindex
    rw [List.mem_range] at hindex
    have hraw : ¬IS_RAW (rs_init N K D) (N - 1 - (K + index)) = true := by
      rw [IS_RAW_init]
      simp only [decide_eq_true_eq]
      omega
    simp only [Function.comp_apply]
    rw [payload_at, if_neg hraw]
    simp only [T_SIZE_init]
    rw [show N - K - 1 - (N - 1 - (K + index)) = index by omega,
      show N - 1 - (K + index) = N - K - 1 - index by omega]

/-! ## The run of the decoder -/

/-- The degrees of the packets received in this order, the last one first. -/
def degrees (N : Nat) (order : List Nat) : List Nat := (order.map (N - 1 - ·)).reverse

theorem map_slot_degrees (N : Nat) (order : List Nat) :
    (degrees N order).map slot = (order.map (mark N)).reverse := by
  rw [degrees, List.map_reverse, List.map_map]
  rfl

theorem mem_degrees {N i : Nat} (hi : i < N) {order : List Nat} (hlt : ∀ j ∈ order, j < N) :
    N - 1 - i ∈ degrees N order ↔ i ∈ order := by
  rw [degrees, List.mem_reverse, List.mem_map]
  constructor
  · rintro ⟨j, hj, heq⟩
    have := hlt j hj
    rwa [show i = j by omega]
  · exact fun h => ⟨i, h, rfl⟩

section

variable {N K : Nat} (hp : Params N K) {D : Nat} {messages : List (List UInt8)}

include hp

/-- The packets of a block with marks of their own are all accepted. -/
theorem decode_packets_spec (hb : Block (rs_init N K D) messages) (order : List Nat)
    (hlt : ∀ i ∈ order, i < N) {ds : List Nat} {dc : rs_dc_t}
    (hm : Marked (rs_init N K D) ds dc) (hr : Rows (rs_init N K D) messages ds dc)
    (hroom : ds.length + order.length ≤ K)
    (hnodup : ((order.map (N - 1 - ·)).reverse ++ ds |>.map slot).Nodup) :
    ∃ dc' results, decode_packets (rs_init N K D) dc (order.map fun i =>
        (N - 1 - i, payload_at (rs_init N K D) messages (N - 1 - i))) = some (dc', results) ∧
      Marked (rs_init N K D) ((order.map (N - 1 - ·)).reverse ++ ds) dc' ∧
      Rows (rs_init N K D) messages ((order.map (N - 1 - ·)).reverse ++ ds) dc' ∧
      (∀ result ∈ results, ∃ value, result = .ok value) ∧
      (order ≠ [] → ds.length + order.length = K → Erasures (rs_init N K D) dc' ∧
        ∃ is_raw, results.getLast? = some (.ok (dc'.raw_erasure_num, is_raw))) := by
  have := hp.lt
  have := hp.le
  induction order generalizing ds dc with
  | nil => exact ⟨dc, [], rfl, by simpa using hm, by simpa using hr, by simp, fun h => absurd rfl h⟩
  | cons i order ih =>
    have := hlt i List.mem_cons_self
    have hassoc : ((i :: order).map (N - 1 - ·)).reverse ++ ds =
        (order.map (N - 1 - ·)).reverse ++ ((N - 1 - i) :: ds) := by simp
    rw [hassoc] at hnodup ⊢
    rw [List.length_cons] at hroom
    have hnew : bitmap256_isset dc.mask (N - 1 - i) = false := by
      rw [List.map_append, List.map_cons] at hnodup
      rw [hm.isset, decide_eq_false_iff_not]
      exact (List.nodup_cons.mp (List.nodup_append.mp hnodup).2.1).1
    obtain ⟨dc1, n, h1, h2, h3, h4, h5⟩ := rs_decode_step
      (by simp only [rs_init_N]; omega) (length_payload_at hp hb (by omega)) hnew hm
      (by simp only [rs_init_K]; omega) (by simp only [rs_init_K, rs_init_N]; omega) hp.le
    have hr1 : Rows (rs_init N K D) messages ((N - 1 - i) :: ds) dc1 :=
      (rows_accept hp hb hr (by omega)).of_syndromes h3
    obtain ⟨dc2, results, g1, g2, g3, g4, g5⟩ := ih (fun j hj => hlt j (List.mem_cons_of_mem _ hj))
      h2 hr1 (by rw [List.length_cons]; omega) hnodup
    refine ⟨dc2, .ok (n, IS_RAW (rs_init N K D) (N - 1 - i)) :: results, ?_, g2, g3, ?_, fun _ hK => ?_⟩
    · rw [List.map_cons, decode_packets, h1]
      simp only [Option.bind_eq_bind, Option.bind_some]
      rw [g1]
      rfl
    · intro result hresult
      rcases List.mem_cons.mp hresult with rfl | hresult
      · exact ⟨_, rfl⟩
      · exact g4 result hresult
    · rw [List.length_cons] at hK
      cases order with
      | nil =>
        rw [List.map_nil, decode_packets, Option.some.injEq, Prod.mk.injEq] at g1
        obtain ⟨rfl, rfl⟩ := g1
        obtain ⟨rfl, he⟩ := h5 hK
        exact ⟨he, _, rfl⟩
      | cons j order =>
        obtain ⟨he, is_raw, hlast⟩ := g5 (List.cons_ne_nil _ _) (by
          rw [List.length_cons] at hK ⊢
          rw [List.length_cons]
          omega)
        exact ⟨he, is_raw, by rw [List.getLast?_cons, hlast]; rfl⟩

/-- Packets that are all accepted have marks of their own. -/
theorem nodup_of_decode_packets (hb : Block (rs_init N K D) messages) (order : List Nat)
    (hlt : ∀ i ∈ order, i < N) {ds : List Nat} {dc dc' : rs_dc_t}
    {results : List (Except rs_error (Nat × Bool))} (hm : Marked (rs_init N K D) ds dc)
    (hroom : ds.length + order.length ≤ K)
    (hrun : decode_packets (rs_init N K D) dc (order.map fun i =>
        (N - 1 - i, payload_at (rs_init N K D) messages (N - 1 - i))) = some (dc', results))
    (hok : ∀ result ∈ results, ∃ value, result = .ok value) :
    ((order.map (N - 1 - ·)).reverse ++ ds |>.map slot).Nodup := by
  have := hp.lt
  have := hp.le
  induction order generalizing ds dc dc' results with
  | nil => simpa using hm.nodup
  | cons i order ih =>
    have := hlt i List.mem_cons_self
    have hassoc : ((i :: order).map (N - 1 - ·)).reverse ++ ds =
        (order.map (N - 1 - ·)).reverse ++ ((N - 1 - i) :: ds) := by simp
    rw [List.length_cons] at hroom
    rw [List.map_cons, decode_packets] at hrun
    cases hset : bitmap256_isset dc.mask (N - 1 - i) with
    | true =>
      rw [rs_decode_duplicate
        (by simp only [rs_init_N]; omega) (length_payload_at hp hb (by omega)) hset] at hrun
      simp only [Option.bind_eq_bind, Option.bind_some, Option.bind_eq_some_iff, Option.pure_def,
        Option.some.injEq, Prod.mk.injEq] at hrun
      obtain ⟨_, -, -, rfl⟩ := hrun
      obtain ⟨value, hvalue⟩ := hok _ List.mem_cons_self
      exact absurd hvalue (by simp)
    | false =>
      obtain ⟨dc1, n, h1, h2, -, -, -⟩ := rs_decode_step
        (by simp only [rs_init_N]; omega) (length_payload_at hp hb (by omega)) hset hm
        (by simp only [rs_init_K]; omega) (by simp only [rs_init_K, rs_init_N]; omega) hp.le
      rw [h1] at hrun
      simp only [Option.bind_eq_bind, Option.bind_some, Option.bind_eq_some_iff, Option.pure_def,
        Option.some.injEq, Prod.mk.injEq] at hrun
      obtain ⟨⟨dc2, rest⟩, h3, -, rfl⟩ := hrun
      rw [hassoc]
      exact ih (fun j hj => hlt j (List.mem_cons_of_mem _ hj)) h2 (by rw [List.length_cons]; omega)
        h3 fun result hresult => hok result (List.mem_cons_of_mem _ hresult)

end

/-! ## What the mask shows as missing -/

theorem unset_raw_eq {N K : Nat} (hp : Params N K) {D : Nat} {order : List Nat} {dc : rs_dc_t}
    (hm : Marked (rs_init N K D) (degrees N order) dc) :
    unset_raw (rs_init N K D) dc.mask =
      ((List.range K).filter fun i => mark N i ∉ order.map (mark N)).map (N - 1 - ·) := by
  have := hp.lt
  unfold unset_raw unset
  simp only [T_SIZE_init, rs_init_N]
  rw [List.reverse_range', show N - (N - K) = K by omega, show N - K + K - 1 = N - 1 by omega,
    List.filter_map]
  congr 1
  apply List.filter_congr
  intro i _
  simp only [Function.comp_apply, hm.isset, map_slot_degrees, List.mem_reverse, decide_not]
  rfl

/-- The mask shows exactly the missing messages when none of them shares a mark. -/
theorem unset_raw_eq_missing {N K : Nat} (hp : Params N K) {D : Nat} {order : List Nat}
    {dc : rs_dc_t} (hm : Marked (rs_init N K D) (degrees N order) dc)
    (hclear : ∀ i < K, i ∉ order → mark N i ∉ order.map (mark N)) :
    unset_raw (rs_init N K D) dc.mask = (missing K order).map (N - 1 - ·) := by
  rw [unset_raw_eq hp hm, missing]
  congr 1
  apply List.filter_congr
  intro i hi
  rw [decide_eq_decide]
  exact ⟨mt fun h => List.mem_map_of_mem h, hclear i (List.mem_range.mp hi)⟩

theorem clear_degrees {N K D : Nat} {order : List Nat} (hlt : ∀ i ∈ order, i < N)
    (hclear : ∀ i < N, i ∉ order → mark N i ∉ order.map (mark N)) :
    Clear (rs_init N K D) (degrees N order) := by
  intro e he hslot
  simp only [rs_init_N] at he
  obtain ⟨i, hi, rfl⟩ : ∃ i < N, e = N - 1 - i := ⟨N - 1 - e, by omega, by omega⟩
  rw [map_slot_degrees, List.mem_reverse] at hslot
  rw [mem_degrees hi hlt]
  by_contra hnot
  exact hclear i hi hnot hslot

/-! ## Blocks without data -/

theorem galois_mul_zero (galois : galois_t) (a : Nat) : galois_mul galois a 0 = 0 := by
  unfold galois_mul
  rw [if_pos (Or.inr rfl)]

theorem checksOf_replicate {m g T : Nat} {rscode : rscode_t} (h : Code m g T rscode) (n : Nat) :
    checksOf rscode T (List.replicate n 0) = List.replicate T 0 := by
  have hstep : rscode_encode rscode 0 (List.replicate T 0) = List.replicate T 0 := by
    apply List.ext_getElem
    · simp
    · intro i h1 h2
      rw [List.length_replicate] at h2
      rw [← List.getD_eq_getElem _ 0 h1, h.getD_encode 0 (List.length_replicate) h2,
        getD_replicate, getD_replicate, show galois_add 0 0 = 0 from rfl, galois_mul_zero,
        List.getElem_replicate]
      rfl
  unfold checksOf
  induction n with
  | zero => rfl
  | succ n ih => rw [List.replicate_succ, List.foldl_cons, hstep, ih]

/-- Empty messages make zeros only. -/
theorem word_empty {N K : Nat} (hp : Params N K) {D : Nat} {messages : List (List UInt8)}
    (hempty : ∀ message ∈ messages, message = []) (c d : Nat) :
    word (rs_init N K D) messages c d = 0 := by
  have hcol : column messages c = List.replicate messages.length 0 := by
    rw [List.eq_replicate_iff]
    refine ⟨by simp [column], fun s hs => ?_⟩
    obtain ⟨message, hmessage, rfl⟩ := List.mem_map.mp hs
    rw [hempty message hmessage]
    exact getD_replicate 4 c
  unfold word symbolAt
  rw [hcol, T_SIZE_init, checksOf_replicate (hp.code D), List.replicate_append_replicate,
    List.reverse_replicate, getD_replicate]

section

variable {N K : Nat} (hp : Params N K) {D : Nat} {messages : List (List UInt8)} {ds : List Nat}
  {dc : rs_dc_t}

include hp

/-- The listed erasures are degrees with powers of their own. -/
theorem listed_powers (hm : Marked (rs_init N K D) ds dc) (he : Erasures (rs_init N K D) dc)
    (hraw : dc.raw_erasure_num ≠ 0) (hlen : ds.length = K) :
    dc.erasure_num ≤ dc.erasure_degrees.length ∧ dc.erasure_num ≤ N - K ∧
      (dc.erasure_degrees.take dc.erasure_num).Nodup ∧
      ∀ d ∈ dc.erasure_degrees.take dc.erasure_num, d < 2 ^ 8 - 1 := by
  have := hp.lt
  have := hp.le
  have hle := length_unset_le hm hlen (by simp only [rs_init_K, rs_init_N]; omega)
  rw [← he.num_of_raw hraw, T_SIZE_init] at hle
  have hperm := unset_perm (rs_init N K D) (by simp only [rs_init_K, rs_init_N]; omega) dc.mask
  rw [he.listed_of_raw hraw]
  refine ⟨by rw [hm.room]; exact hle, hle, ?_, fun d hd => ?_⟩
  · exact hperm.nodup_iff.mpr (List.nodup_range.filter _)
  · have hd := (List.mem_filter.mp (hperm.mem_iff.mp hd)).1
    simp only [rs_init_N, List.mem_range] at hd
    norm_num
    omega

theorem decode_column_zero (hm : Marked (rs_init N K D) ds dc)
    (hr : Rows (rs_init N K D) messages ds dc) (he : Erasures (rs_init N K D) dc)
    (hraw : dc.raw_erasure_num ≠ 0) (hlen : ds.length = K)
    (hempty : ∀ message ∈ messages, message = []) {c : Nat} (hc : c < RS_MAX_ENCODED_SIZE D)
    {index : Nat} (hi : index < dc.erasure_num) :
    decode_column (rs_init N K D) dc c index = some 0 := by
  have hcode := hp.code D
  have := hcode.tables.primitive.isDomain
  have := hcode.tables.primitive.charP
  obtain ⟨hv, hT, hnd, hlt⟩ := listed_powers hp hm he hraw hlen
  have hrow := hr.row c hc
  have hdis := Code.pow_ne_of_others hcode.tables.primitive hnd hlt hv hi
  obtain ⟨r, hr, heq, hmul⟩ := hcode.decode_erasure_spec hrow.words hi hdis
  have hzero : ∀ j < dc.erasure_num, residue 0b100011101 ((dc.syndromes.getD c []).getD j 0) = 0 := by
    intro j hj
    rw [hrow.value j (by rw [T_SIZE_init]; omega)]
    unfold syndrome
    apply List.sum_eq_zero
    intro x hx
    obtain ⟨d, _, rfl⟩ := List.mem_map.mp hx
    simp only
    rw [word_empty hp hempty, residue_zero, zero_mul]
  rw [Finset.sum_eq_zero fun j hj => by rw [hzero j (Finset.mem_range.mp hj), zero_mul]] at hmul
  rcases mul_eq_zero.mp hmul with hres | hres
  · rw [← residue_zero] at hres
    have := hcode.tables.primitive.residue_inj hr (by norm_num) hres
    rw [this] at heq
    exact heq
  · exact absurd hres (mul_ne_zero (hcode.tables.primitive.root_pow_ne_zero _)
      (eval_locator_ne_zero hdis))

end

/-! ## The round trip -/

theorem received_packets {N K D : Nat} {messages : List (List UInt8)} {order : List Nat}
    (hlt : ∀ i ∈ order, i < N) :
    (order.map fun i => ((List.range N).map fun i =>
        (N - 1 - i, payload_at (rs_init N K D) messages (N - 1 - i))).getD i (0, [])) =
      order.map fun i => (N - 1 - i, payload_at (rs_init N K D) messages (N - 1 - i)) := by
  apply List.map_congr_left
  intro i hi
  have := hlt i hi
  rw [List.getD_eq_getElem _ _ (by simpa using this)]
  simp

theorem mem_missing {K index : Nat} {order : List Nat} (h : index < (missing K order).length) :
    (missing K order).getD index 0 < K ∧ (missing K order).getD index 0 ∉ order := by
  rw [List.getD_eq_getElem _ _ h]
  have := List.getElem_mem h
  generalize (missing K order)[index] = i at this
  simpa [missing] using this

theorem come_back_of_marks_apart {N K D : Nat} (hp : Params N K) (hD : D < 2 ^ 31)
    {order : List Nat} (hlen : order.length = K) (hlt : ∀ i ∈ order, i < N)
    (h : MarksApart N K D order) : MessagesComeBack N K D order := by
  have := hp.pos
  have := hp.lt
  obtain ⟨hnodup, hclear, hrest⟩ := h
  intro messages hmlen hsize ec dc size hcap
  have hb : Block (rs_init N K D) messages := ⟨hmlen, hsize⟩
  have hne : order ≠ [] := by
    rintro rfl
    rw [List.length_nil] at hlen
    omega
  obtain ⟨dc', results, h1, h2, h3, h4, h5⟩ := decode_packets_spec hp hb order hlt
    (marked_reset (rs_init N K D) dc) (rows_reset (rs_init N K D) messages dc)
    (by rw [List.length_nil]; omega)
    (by
      rw [List.append_nil]
      change ((degrees N order).map slot).Nodup
      rwa [map_slot_degrees, List.nodup_reverse])
  rw [List.append_nil] at h2 h3
  change Marked _ (degrees N order) dc' at h2
  change Rows _ messages (degrees N order) dc' at h3
  obtain ⟨he, is_raw, hlast⟩ := h5 hne (by rw [List.length_nil]; omega)
  have hunset := unset_raw_eq_missing hp h2 hclear
  have hn : dc'.raw_erasure_num = (missing K order).length := by
    rw [he.raw_num, hunset, List.length_map]
  have hdlen : (degrees N order).length = K := by rw [degrees]; simpa using hlen
  refine ⟨_, dc', results, _, is_raw, encode_block_eq hp hb ec, ?_, h4, hlast, hn, ?_⟩
  · rw [received_packets hlt]
    exact h1
  intro index hi
  have hraw : dc'.raw_erasure_num ≠ 0 := by omega
  obtain ⟨hiK, hmiss⟩ := mem_missing (K := K) (by rwa [← hn])
  have hd : (unset_raw (rs_init N K D) dc'.mask).getD index 0 =
      N - 1 - (missing K order).getD index 0 := by
    rw [hunset, List.getD_eq_getElem _ _ (by rw [List.length_map]; omega), List.getElem_map,
      List.getD_eq_getElem _ _ (by omega)]
  rcases hrest with hrest | rfl | hrest
  · exact absurd (hrest _ hiK) hmiss
  · have hempty : ∀ message ∈ messages, message = [] := fun x hx =>
      List.length_eq_zero_iff.mp (Nat.le_zero.mp (hsize x hx))
    have hmsg : messages.getD ((missing K order).getD index 0) [] = [] := by
      rw [List.getD_eq_getElem _ _ (by omega)]
      exact hempty _ (List.getElem_mem _)
    simp only [hmsg]
    rw [← hd, ← he.getD_raw hraw hi]
    apply rs_decode_result_eq hi hcap (by simp) (by simp)
    intro c hc
    have hnum := he.num_of_raw hraw
    rw [List.length_append, ← he.raw_num] at hnum
    rw [decode_column_zero hp h2 h3 he hraw hdlen hempty hc (by omega)]
    exact congrArg some (getD_replicate 4 c).symm
  · have hall : ((unset_raw (rs_init N K D) dc'.mask ++
        unset_redundant (rs_init N K D) dc'.mask) ++ degrees N order).Perm (List.range N) :=
      ((unset_perm _ (by simp only [rs_init_K, rs_init_N]; omega)
        dc'.mask).append_right _).trans (unset_perm_received h2 (clear_degrees hlt hrest))
    have hspec := rs_decode_result_spec hp hb hD h2 h3 he hdlen hall hi hcap
    simp only [hd] at hspec
    rwa [show N - 1 - (N - 1 - (missing K order).getD index 0) = (missing K order).getD index 0
      by omega] at hspec

/-! ## Hidden packets -/

theorem come_back_run {N K D : Nat} (hp : Params N K) {order : List Nat} (hlen : order.length = K)
    (hlt : ∀ i ∈ order, i < N) (h : MessagesComeBack N K D order)
    {messages : List (List UInt8)} (hb : Block (rs_init N K D) messages) :
    (order.map (mark N)).Nodup ∧ ∃ dc, Marked (rs_init N K D) (degrees N order) dc ∧
      Rows (rs_init N K D) messages (degrees N order) dc ∧ Erasures (rs_init N K D) dc ∧
      dc.raw_erasure_num = (missing K order).length ∧
      ∀ index < dc.raw_erasure_num,
        let i := (missing K order).getD index 0
        let message := messages.getD i []
        rs_decode_result (rs_init N K D) dc index D =
          some (.ok (message, message.length, N - 1 - i)) := by
  have := hp.pos
  let ec : rs_ec_t := ⟨0, []⟩
  let dc : rs_dc_t := ⟨0, bitmap256_reset, [], [], 0, 0⟩
  have hne : order ≠ [] := by
    rintro rfl
    rw [List.length_nil] at hlen
    omega
  obtain ⟨packets, dc', results, n, is_raw, h1, h2, h3, h4, h5, h6⟩ :=
    h messages hb.length hb.size ec dc D le_rfl
  rw [encode_block_eq hp hb, Option.some.injEq] at h1
  subst h1
  rw [received_packets hlt] at h2
  have hnodup := nodup_of_decode_packets hp hb order hlt (marked_reset (rs_init N K D) dc)
    (by rw [List.length_nil]; omega) h2 h3
  obtain ⟨dc1, results1, g1, g2, g3, -, g5⟩ := decode_packets_spec hp hb order hlt
    (marked_reset (rs_init N K D) dc) (rows_reset (rs_init N K D) messages dc)
    (by rw [List.length_nil]; omega) hnodup
  rw [h2, Option.some.injEq, Prod.mk.injEq] at g1
  obtain ⟨rfl, rfl⟩ := g1
  rw [List.append_nil] at hnodup g2 g3
  change ((degrees N order).map slot).Nodup at hnodup
  rw [map_slot_degrees, List.nodup_reverse] at hnodup
  obtain ⟨he, is_raw1, hlast⟩ := g5 hne (by rw [List.length_nil]; omega)
  rw [h4, Option.some.injEq, Except.ok.injEq, Prod.mk.injEq] at hlast
  obtain ⟨rfl, -⟩ := hlast
  exact ⟨hnodup, dc', g2, g3, he, h5, h6⟩

/-- When the number of missing messages is right, no missing message shares a mark. -/
theorem clear_of_count {N K D : Nat} (hp : Params N K) {order : List Nat} {dc : rs_dc_t}
    (hm : Marked (rs_init N K D) (degrees N order) dc) (he : Erasures (rs_init N K D) dc)
    (hcount : dc.raw_erasure_num = (missing K order).length) :
    ∀ i < K, i ∉ order → mark N i ∉ order.map (mark N) := by
  rw [he.raw_num, unset_raw_eq hp hm, List.length_map, missing] at hcount
  have hsub := List.monotone_filter_right (List.range K)
    (p := fun i => decide (mark N i ∉ order.map (mark N))) (q := fun i => decide (i ∉ order))
    (fun i hi => by
      simp only [decide_eq_true_eq] at hi ⊢
      exact mt (fun h => List.mem_map_of_mem h) hi)
  have heq := hsub.eq_of_length hcount
  intro i hi hnot
  have hmem : i ∈ (List.range K).filter fun i => decide (i ∉ order) := by
    simp [hi, hnot]
  rw [← heq] at hmem
  simpa using (List.mem_filter.mp hmem).2

/-- A restored byte is what its column decodes to. -/
theorem decode_column_of_result {rs : rs_t} {dc : rs_dc_t} {index size d : Nat} {b : UInt8}
    (h : rs_decode_result rs dc index size = some (.ok ([b], 1, d))) :
    ∃ s, decode_column rs dc RS_HEADER_SIZE index = some s ∧ UInt8.ofNat s = b := by
  unfold rs_decode_result at h
  split at h
  · simp at h
  split at h
  · simp at h
  simp only [Option.bind_eq_bind, Option.bind_eq_some_iff] at h
  obtain ⟨decoded_size, -, h⟩ := h
  split at h
  · simp at h
  simp only [Option.bind_eq_some_iff, Option.pure_def, Option.some.injEq, Except.ok.injEq,
    Prod.mk.injEq] at h
  obtain ⟨buffer, hbuffer, rfl, rfl, -⟩ := h
  simp only [Int.toNat_one, List.range_one, List.mapM_cons, List.mapM_nil, Option.bind_eq_bind,
    Option.pure_def, Nat.zero_add, Option.bind_eq_some_iff, Option.some.injEq,
    List.cons.injEq] at hbuffer
  obtain ⟨b', ⟨s, hs, rfl⟩, rest, rfl, heq, -⟩ := hbuffer
  exact ⟨s, hs, heq⟩

/-- The degrees that share a mark with a received packet but were not received. -/
def hidden (N : Nat) (mask : bitmap256_t) (ds : List Nat) : List Nat :=
  (List.range N).filter fun d => bitmap256_isset mask d && decide (d ∉ ds)

section

variable {N K : Nat} (hp : Params N K) {D : Nat} {messages : List (List UInt8)} {ds : List Nat}
  {dc : rs_dc_t}

theorem mem_hidden (hm : Marked (rs_init N K D) ds dc) (d : Nat) :
    d ∈ hidden N dc.mask ds ↔ d < N ∧ slot d ∈ ds.map slot ∧ d ∉ ds := by
  simp [hidden, hm.isset]

/-- What is listed, what is hidden and what was received make the whole block. -/
theorem perm_hidden (hp : Params N K) (hm : Marked (rs_init N K D) ds dc)
    (he : Erasures (rs_init N K D) dc) (hraw : dc.raw_erasure_num ≠ 0) :
    ((dc.erasure_degrees.take dc.erasure_num ++ hidden N dc.mask ds) ++ ds).Perm
      (List.range N) := by
  have := hp.lt
  have hunset := unset_perm (rs_init N K D)
    (by simp only [rs_init_K, rs_init_N]; omega) dc.mask
  rw [he.listed_of_raw hraw]
  refine ((hunset.append_right _).append_right _).trans ?_
  simp only [rs_init_N]
  have hmem : ∀ d ∈ ds, slot d ∈ ds.map slot := fun d hd => List.mem_map_of_mem hd
  have hunset_mem : ∀ d, d ∈ unset dc.mask (List.range N) ↔ d < N ∧ slot d ∉ ds.map slot := by
    intro d
    simp [unset, hm.isset]
  apply (List.perm_ext_iff_of_nodup _ List.nodup_range).mpr
  · intro d
    rw [List.mem_append, List.mem_append, hunset_mem, mem_hidden hm, List.mem_range]
    constructor
    · rintro ((h | h) | h)
      · exact h.1
      · exact h.1
      · exact hm.lt d h
    · intro h
      by_cases hd : d ∈ ds
      · exact Or.inr hd
      by_cases hs : slot d ∈ ds.map slot
      · exact Or.inl (Or.inr ⟨h, hs, hd⟩)
      · exact Or.inl (Or.inl ⟨h, hs⟩)
  · rw [List.nodup_append, List.nodup_append]
    refine ⟨⟨List.nodup_range.filter _, List.nodup_range.filter _, ?_⟩, hm.nodup.of_map _, ?_⟩
    · rintro d hd e he rfl
      exact ((hunset_mem d).mp hd).2 ((mem_hidden hm d).mp he).2.1
    · rintro d hd e he rfl
      rcases List.mem_append.mp hd with hd | hd
      · exact ((hunset_mem d).mp hd).2 (hmem d he)
      · exact ((mem_hidden hm d).mp hd).2.2 he

/-- Every received packet hides at most one other. -/
theorem length_hidden_le (hm : Marked (rs_init N K D) ds dc) :
    (hidden N dc.mask ds).length ≤ ds.length := by
  have hnodup : ((hidden N dc.mask ds).map slot).Nodup := by
    apply List.Nodup.map_on _ (List.nodup_range.filter _)
    intro d hd e he hde
    obtain ⟨-, hslot, hdn⟩ := (mem_hidden hm d).mp hd
    obtain ⟨-, -, hen⟩ := (mem_hidden hm e).mp he
    obtain ⟨r, hr, hrd⟩ := List.mem_map.mp hslot
    have h1 : r ≠ d := fun h => hdn (h ▸ hr)
    have h2 : r ≠ e := fun h => hen (h ▸ hr)
    unfold slot at hde hrd
    rw [Prod.mk.injEq] at hde hrd
    omega
  have hsub : (hidden N dc.mask ds).map slot ⊆ ds.map slot := by
    intro x hx
    obtain ⟨d, hd, rfl⟩ := List.mem_map.mp hx
    exact ((mem_hidden hm d).mp hd).2.1
  simpa using (List.subperm_of_subset hnodup hsub).length_le

include hp

/-- A hidden symbol that is not zero spoils the restored symbols of its row. -/
theorem decode_column_ne (hb : Block (rs_init N K D) messages)
    (hm : Marked (rs_init N K D) ds dc) (hr : Rows (rs_init N K D) messages ds dc)
    (he : Erasures (rs_init N K D) dc) (hraw : dc.raw_erasure_num ≠ 0) (hlen : ds.length = K)
    {c : Nat} (hc : c < RS_MAX_ENCODED_SIZE D) {index : Nat} (hi : index < dc.erasure_num)
    {x : Nat} (hx : x ∈ hidden N dc.mask ds) (hne : word (rs_init N K D) messages c x ≠ 0)
    (hzero : ∀ y ∈ hidden N dc.mask ds, y ≠ x → word (rs_init N K D) messages c y = 0) :
    ∃ r < 256, decode_column (rs_init N K D) dc c index = some r ∧
      r ≠ word (rs_init N K D) messages c (dc.erasure_degrees.getD index 0) := by
  have hcode := hp.code D
  have hprim := hcode.tables.primitive
  have := hprim.isDomain
  have := hprim.charP
  have := hp.lt
  have := hp.le
  obtain ⟨hv, hT, hnd, hlt⟩ := listed_powers hp hm he hraw hlen
  have hall := perm_hidden hp hm he hraw
  have hrow := hr.row c hc
  have hperm := perm_others dc.erasure_degrees hi hv
  have hdis := Code.pow_ne_of_others hprim hnd hlt hv hi
  obtain ⟨r, hr, heq, hmul⟩ := hcode.decode_erasure_spec hrow.words hi hdis
  refine ⟨r, hr, heq, ?_⟩
  let w : Nat → Residue 0b100011101 := fun d =>
    residue 0b100011101 (word (rs_init N K D) messages c d)
  have hcol : (column messages c).length + (N - K) = N := by
    rw [length_column, hb.length, rs_init_K]
    omega
  have hsum := fun j (hj : j < N - K) => hcode.sum_symbolAt (column_lt messages c) hj
  rw [hcol] at hsum
  -- the syndromes received are those of the listed and the hidden degrees together
  have hval : ∀ j < dc.erasure_num, residue 0b100011101 ((dc.syndromes.getD c []).getD j 0) =
      syndrome w (root _ ^ (j + 1)) (dc.erasure_degrees.take dc.erasure_num) +
        syndrome w (root _ ^ (j + 1)) (hidden N dc.mask ds) := by
    intro j hj
    rw [hrow.value j (by rw [T_SIZE_init]; omega), ← syndrome_append]
    exact syndrome_missing (hsum j (by omega)) hall
  have hlisted := erasure_formula (root 0b100011101) w hperm
  rw [List.length_take_of_le hv] at hlisted
  have hxw : (hidden N dc.mask ds).Perm (x :: (hidden N dc.mask ds).erase x) :=
    List.perm_cons_erase hx
  have hdeg : (locator (root 0b100011101) (others dc.erasure_degrees index
      dc.erasure_num)).natDegree < dc.erasure_num := by
    have h1 := natDegree_locator_le (root 0b100011101)
      (others dc.erasure_degrees index dc.erasure_num)
    have h2 := hperm.length_eq
    rw [List.length_take_of_le hv, List.length_cons] at h2
    omega
  have hhidden := sum_syndrome_mul_coeff (root 0b100011101) w (hidden N dc.mask ds) hdeg
  rw [(hxw.map _).sum_eq, List.map_cons, List.sum_cons, List.sum_eq_zero (by
    intro z hz
    obtain ⟨y, hy, rfl⟩ := List.mem_map.mp hz
    have hnodup : (hidden N dc.mask ds).Nodup := List.nodup_range.filter _
    obtain ⟨hyx, hy⟩ := (hnodup.mem_erase_iff).mp hy
    simp only [w]
    rw [hzero y hy hyx, residue_zero, zero_mul]), add_zero] at hhidden
  rw [Finset.sum_congr rfl fun j hj => by rw [hval j (Finset.mem_range.mp hj), add_mul],
    Finset.sum_add_distrib, hlisted, hhidden] at hmul
  intro hrw
  rw [hrw] at hmul
  have hspoil := left_eq_add.mp hmul
  rcases mul_eq_zero.mp hspoil with hz | hz
  · exact hne (hprim.residue_inj (word_lt hp messages c x) (by norm_num) (by rw [residue_zero]; exact hz))
  rcases mul_eq_zero.mp hz with hz | hz
  · exact hprim.root_pow_ne_zero _ hz
  · apply eval_locator_ne_zero (fun e hemem => ?_) hz
    have hetake : e ∈ dc.erasure_degrees.take dc.erasure_num :=
      hperm.mem_iff.mpr (List.mem_cons_of_mem _ hemem)
    have hxN : x < N := ((mem_hidden hm x).mp hx).1
    intro hpow
    have hxe := hprim.pow_inj (by norm_num; omega) (hlt e hetake) hpow
    have hnodup := hall.nodup_iff.mpr List.nodup_range
    rw [List.nodup_append, List.nodup_append] at hnodup
    exact hnodup.1.2.2 e hetake x hx hxe.symm

end

/-- The messages of one byte each. -/
def single_bytes (bytes : List Nat) : List (List UInt8) := bytes.map fun b => [UInt8.ofNat b]

theorem column_single_bytes {bytes : List Nat} (h : ∀ b ∈ bytes, b < 2 ^ 8) :
    column (single_bytes bytes) RS_HEADER_SIZE = bytes := by
  unfold column single_bytes
  rw [List.map_map]
  conv_rhs => rw [← List.map_id bytes]
  apply List.map_congr_left
  intro b hb
  exact UInt8.toNat_ofNat_of_lt' (h b hb)

/-- Messages whose only symbol among the hidden ones is at one degree. -/
theorem exists_spoiling_messages {N K D : Nat} (hp : Params N K) (hD : D ≠ 0) {ds : List Nat}
    {mask : bitmap256_t} (hle : (hidden N mask ds).length ≤ K) {x : Nat}
    (hx : x ∈ hidden N mask ds) :
    ∃ messages, Block (rs_init N K D) messages ∧ (∀ message ∈ messages, message.length = 1) ∧
      word (rs_init N K D) messages RS_HEADER_SIZE x ≠ 0 ∧
      ∀ y ∈ hidden N mask ds, y ≠ x → word (rs_init N K D) messages RS_HEADER_SIZE y = 0 := by
  have := hp.lt
  have := hp.le
  have hnd : (hidden N mask ds).Nodup := List.nodup_range.filter _
  have hmem : ∀ d ∈ hidden N mask ds, d < N := fun d hd =>
    List.mem_range.mp (List.mem_filter.mp hd).1
  generalize hidden N mask ds = hid at hle hx hnd hmem
  -- the hidden degrees, and as many others as make K
  let rest := (List.range N).filter fun d => d ∉ hid
  have hrest : hid.length + rest.length = N := by
    have hperm : (hid ++ rest).Perm (List.range N) := by
      apply (List.perm_ext_iff_of_nodup _ List.nodup_range).mpr
      · intro d
        by_cases hd : d ∈ hid
        · simp [hd, hmem d hd]
        · simp [rest, hd]
      · rw [List.nodup_append]
        refine ⟨hnd, List.nodup_range.filter _, ?_⟩
        rintro d hd e he rfl
        simp [rest, hd] at he
    simpa using hperm.length_eq
  obtain ⟨bytes, hlen, hbytes, hval⟩ := (hp.code D).exists_message (n := K)
    (t := fun d => if d = x then 1 else 0) (by norm_num; omega) (by norm_num)
    (hid ++ rest.take (K - hid.length))
    (by
      rw [List.nodup_append]
      refine ⟨hnd, (List.nodup_range.filter _).sublist (List.take_sublist _ _), ?_⟩
      rintro d hd e he rfl
      have := List.mem_of_mem_take he
      simp [rest, hd] at this)
    (by rw [List.length_append, List.length_take]; omega)
    (by
      intro d hd
      rcases List.mem_append.mp hd with hd | hd
      · have := hmem d hd
        omega
      · have := List.mem_of_mem_take hd
        simp only [rest, List.mem_filter, List.mem_range] at this
        omega)
    (by intro d; split <;> norm_num)
  have hword : ∀ d ∈ hid, word (rs_init N K D) (single_bytes bytes) RS_HEADER_SIZE d =
      if d = x then 1 else 0 := by
    intro d hd
    unfold word
    rw [column_single_bytes hbytes]
    exact hval d (List.mem_append_left _ hd)
  have hone : ∀ message ∈ single_bytes bytes, message.length = 1 := by
    intro message hmessage
    obtain ⟨b, _, rfl⟩ := List.mem_map.mp hmessage
    rfl
  refine ⟨single_bytes bytes, ⟨by simp [single_bytes, hlen], fun message hmessage => ?_⟩, hone,
    ?_, fun y hy hyx => ?_⟩
  · rw [hone message hmessage, rs_init_max_data_size]
    omega
  · rw [hword x hx, if_pos rfl]
    norm_num
  · rw [hword y hy, if_neg hyx]

theorem marks_apart_of_come_back {N K D : Nat} (hp : Params N K) {order : List Nat}
    (hlen : order.length = K) (hlt : ∀ i ∈ order, i < N) (h : MessagesComeBack N K D order) :
    MarksApart N K D order := by
  have := hp.lt
  have hempty : Block (rs_init N K D) (List.replicate K []) :=
    ⟨by simp, fun message hmessage => by simp [List.eq_of_mem_replicate hmessage]⟩
  obtain ⟨hnodup, dc, hm, -, he, hcount, -⟩ := come_back_run hp hlen hlt h hempty
  have hclear := clear_of_count hp hm he hcount
  refine ⟨hnodup, hclear, ?_⟩
  by_cases hall : ∀ i < K, i ∈ order
  · exact Or.inl hall
  by_cases hD : D = 0
  · exact Or.inr (Or.inl hD)
  refine Or.inr (Or.inr fun i hi hnot hmark => ?_)
  -- a hidden packet: some message has it spoil the first restored one
  have hx : N - 1 - i ∈ hidden N dc.mask (degrees N order) := by
    rw [mem_hidden hm, map_slot_degrees, List.mem_reverse, mem_degrees hi hlt]
    exact ⟨by omega, hmark, hnot⟩
  have hdlen : (degrees N order).length = K := by rw [degrees]; simpa using hlen
  obtain ⟨messages, hb, hone, hne, hzero⟩ := exists_spoiling_messages hp hD
    (hdlen ▸ length_hidden_le hm) hx
  obtain ⟨-, dc1, hm1, hr1, he1, hcount1, hback⟩ := come_back_run hp hlen hlt h hb
  have hsame : hidden N dc1.mask (degrees N order) = hidden N dc.mask (degrees N order) := by
    unfold hidden
    apply List.filter_congr
    intro d _
    rw [hm1.isset, hm.isset]
  rw [← hsame] at hx hzero
  have hmissing : missing K order ≠ [] := by
    intro hnil
    apply hall
    intro j hj
    by_contra hnot
    have : j ∈ missing K order := by simp [missing, hj, hnot]
    rw [hnil] at this
    exact absurd this List.not_mem_nil
  have hpos : 0 < dc1.raw_erasure_num := by
    rw [hcount1]
    exact List.length_pos_of_ne_nil hmissing
  obtain ⟨hjK, -⟩ := mem_missing (K := K) (by rwa [← hcount1])
  have hres := hback 0 hpos
  simp only at hres
  have hdeg : dc1.erasure_degrees.getD 0 0 = N - 1 - (missing K order).getD 0 0 := by
    rw [he1.getD_raw (by omega) hpos, unset_raw_eq_missing hp hm1 hclear,
      List.getD_eq_getElem _ _ (by rw [List.length_map]; omega), List.getElem_map,
      List.getD_eq_getElem _ _ (by omega)]
  generalize (missing K order).getD 0 0 = j at hjK hres hdeg
  have hmsg : messages.getD j [] ∈ messages := by
    rw [List.getD_eq_getElem _ _ (by rw [hb.length]; exact hjK)]
    exact List.getElem_mem _
  obtain ⟨b, hbyte⟩ := List.length_eq_one_iff.mp (hone _ hmsg)
  rw [hbyte] at hres
  obtain ⟨s, hs, hsb⟩ := decode_column_of_result hres
  have hnum := he1.num_of_raw (by omega)
  rw [List.length_append, ← he1.raw_num] at hnum
  obtain ⟨r, hr, heq, hrw⟩ := decode_column_ne hp hb hm1 hr1 he1 (by omega) hdlen
    (c := RS_HEADER_SIZE) (by unfold RS_MAX_ENCODED_SIZE; omega) (show 0 < _ by omega) hx hne
    hzero
  rw [hs, Option.some.injEq] at heq
  subst heq
  apply hrw
  rw [hdeg, word_raw hp hb _ (by omega) (by omega), show N - 1 - (N - 1 - j) = j by omega, hbyte]
  have : s = b.toNat := by
    rw [← hsb]
    exact (UInt8.toNat_ofNat_of_lt' hr).symm
  rw [this]
  rfl

/-- Every message of a block comes back from K of its packets when, and only when, no mark is
shared where it matters. -/
theorem the_messages_come_back_iff {N K max_data_size : Nat} (h : Codec N K max_data_size)
    (order : List Nat) (hlen : order.length = K) (hlt : ∀ i ∈ order, i < N) :
    MessagesComeBack N K max_data_size order ↔ MarksApart N K max_data_size order :=
  ⟨marks_apart_of_come_back h.toParams hlen hlt,
    come_back_of_marks_apart h.toParams h.data_size_lt hlen hlt⟩

/-- The second and the last of four packets restore the first of two messages. -/
theorem the_messages_come_back_from_two :
    MessagesComeBack 4 2 1 [1, 3] ↔ MarksApart 4 2 1 [1, 3] :=
  the_messages_come_back_iff ⟨⟨by norm_num, by norm_num, by norm_num⟩, by decide⟩ [1, 3] rfl
    (by decide)

/-- Up to 32 packets, any K of them will do. -/
theorem messages_come_back_of_le {N K max_data_size : Nat} (h : Codec N K max_data_size)
    (hN : N ≤ 32) {order : List Nat} (hlen : order.length = K) (hnodup : order.Nodup)
    (hlt : ∀ i ∈ order, i < N) :
    MessagesComeBack N K max_data_size order := by
  have hinj : ∀ i < N, ∀ j < N, mark N i = mark N j → i = j := by
    intro i hi j hj hij
    have := slot_inj (d := N - 1 - i) (e := N - 1 - j) (by omega) (by omega) hij
    omega
  have hclear : ∀ i < N, i ∉ order → mark N i ∉ order.map (mark N) := by
    intro i hi hnot hmem
    obtain ⟨j, hj, heq⟩ := List.mem_map.mp hmem
    exact hnot (hinj j (hlt j hj) i hi heq ▸ hj)
  have := h.lt
  exact come_back_of_marks_apart h.toParams h.data_size_lt hlen hlt
    ⟨List.Nodup.map_on (fun i hi j hj => hinj i (hlt i hi) j (hlt j hj)) hnodup,
      fun i hi => hclear i (by omega), Or.inr (Or.inr hclear)⟩

/-- Of 33 packets the first and the last share a mark: the second one to arrive is taken for a
duplicate of the other. -/
theorem the_last_of_33_is_refused :
    ¬∀ (N K max_data_size : Nat) (order : List Nat), Codec N K max_data_size →
      order.length = K → order.Nodup → (∀ i ∈ order, i < N) →
      MessagesComeBack N K max_data_size order := by
  intro h
  have hcodec : Codec 33 2 1 := ⟨⟨by norm_num, by norm_num, by norm_num⟩, by decide⟩
  have hback := h 33 2 1 [0, 32] hcodec rfl (by decide) (by decide)
  exact absurd (marks_apart_of_come_back hcodec.toParams rfl (by decide) hback).1 (by decide)

end nettle.rs
