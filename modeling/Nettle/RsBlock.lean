-- What the contexts of rs.c hold in the middle of a block: the checks of the
-- messages so far, the marks and the syndromes of the packets so far. One
-- call of `rs_encode` or `rs_decode` is one step, with one law each.
import Nettle.Rs

open binary_field in_place nettle.galois nettle.rscode

namespace nettle.rs

/-! ## The parameters of a code -/

/-- The parameters that the callers of `rs_init` are allowed. -/
structure Params (N K : Nat) : Prop where
  pos : 1 ≤ K
  lt : K < N
  le : N ≤ 255

/-- A code whose contexts can be set up: an `int` counts the words of a context. -/
structure Codec (N K max_data_size : Nat) : Prop extends Params N K where
  words : RS_MAX_ENCODED_SIZE max_data_size * (N - K) < 2 ^ 31

theorem Codec.data_size_lt {N K max_data_size : Nat} (h : Codec N K max_data_size) :
    max_data_size < 2 ^ 31 := by
  have hpos : 1 ≤ N - K := by have := h.lt; omega
  calc max_data_size ≤ RS_MAX_ENCODED_SIZE max_data_size := Nat.le_add_right ..
    _ ≤ RS_MAX_ENCODED_SIZE max_data_size * (N - K) := Nat.le_mul_of_pos_right _ hpos
    _ < 2 ^ 31 := h.words

@[simp] theorem rs_init_N (N K D : Nat) : (rs_init N K D).N = N := rfl

@[simp] theorem rs_init_K (N K D : Nat) : (rs_init N K D).K = K := rfl

@[simp] theorem rs_init_max_data_size (N K D : Nat) : (rs_init N K D).max_data_size = D := rfl

@[simp] theorem T_SIZE_init (N K D : Nat) : T_SIZE (rs_init N K D) = N - K := rfl

theorem IS_RAW_init (N K D d : Nat) : IS_RAW (rs_init N K D) d = decide (N - K ≤ d) := rfl

theorem Params.code {N K : Nat} (h : Params N K) (D : Nat) :
    Code 8 0b100011101 (N - K) (rs_init N K D).rscode := by
  have := h.pos
  have := h.lt
  have := h.le
  exact rscode_init_code (m := 8) galois256_tables (by omega) (by norm_num; omega)

/-! ## The mask -/

/-- The place of a degree in the mask: degrees of one word that differ by 32 share it. -/
def slot (d : Nat) : Nat × Nat := (d / 64, d % 32)

theorem slot_inj {d e : Nat} (hd : d < 32) (he : e < 32) (h : slot d = slot e) : d = e := by
  unfold slot at h
  rw [Prod.mk.injEq] at h
  omega

theorem bitmap256_bit_and : ∀ m m' : Fin 32,
    (bitmap256_bit m &&& bitmap256_bit m' != 0) = decide (m = m') := by decide +kernel

theorem bitmap256_bit_mod (m : Nat) : bitmap256_bit (m % 32) = bitmap256_bit m := by
  unfold bitmap256_bit
  rw [Nat.mod_mod]

theorem bit_and_ne_zero (d e : Nat) :
    (bitmap256_bit (d % 64) &&& bitmap256_bit (e % 64) != 0) = decide (d % 32 = e % 32) := by
  have h := bitmap256_bit_and ⟨d % 32, by omega⟩ ⟨e % 32, by omega⟩
  rw [← bitmap256_bit_mod (d % 64), ← bitmap256_bit_mod (e % 64),
    Nat.mod_mod_of_dvd _ (by norm_num), Nat.mod_mod_of_dvd _ (by norm_num)]
  simpa using h

theorem or_bne_zero (x y : BitVec 64) : (x ||| y != 0) = (x != 0 || y != 0) := by
  rw [Bool.eq_iff_iff, Bool.or_eq_true, bne_iff_ne, bne_iff_ne, bne_iff_ne]
  exact (not_congr BitVec.or_eq_zero_iff).trans not_and_or

theorem isset_reset (d : Nat) : bitmap256_isset bitmap256_reset d = false := by
  unfold bitmap256_isset bitmap256_reset
  simp only
  rw [getD_replicate]
  simp

theorem isset_set (bitmap : bitmap256_t) {d : Nat} (hd : d < 256) (e : Nat) :
    bitmap256_isset (bitmap256_set bitmap d) e =
      (bitmap256_isset bitmap e || decide (slot d = slot e)) := by
  have hn : d / 64 < bitmap.buffer.length := by rw [bitmap.length_eq]; omega
  unfold bitmap256_isset bitmap256_set slot
  simp only [Prod.mk.injEq]
  by_cases h : d / 64 = e / 64
  · have hbit := bit_and_ne_zero d e
    rw [← h, getD_set_self hn, BitVec.and_or_distrib_right, or_bne_zero, hbit]
    simp
  · rw [getD_set_ne h]
    simp [h]

/-! ## The rows -/

@[simp] theorem length_feed_rows (step : Nat → List Nat → List Nat) (bytes : List Nat) (i : Nat)
    (rows : List (List Nat)) : (feed_rows step bytes i rows).length = rows.length := by
  induction bytes generalizing i rows with
  | nil => rfl
  | cons b bytes ih => rw [feed_rows, ih, List.length_modify]

theorem feed_rows_append (step : Nat → List Nat → List Nat) (bytes bytes' : List Nat) (i : Nat)
    (rows : List (List Nat)) :
    feed_rows step (bytes ++ bytes') i rows =
      feed_rows step bytes' (i + bytes.length) (feed_rows step bytes i rows) := by
  induction bytes generalizing i rows with
  | nil => rfl
  | cons b bytes ih =>
    rw [List.cons_append, feed_rows, ih, feed_rows, List.length_cons]
    congr 1
    omega

/-- A row that gets a byte takes one step with it, and every other row stays. -/
theorem getD_feed_rows (step : Nat → List Nat → List Nat) (bytes : List Nat) (i : Nat)
    (rows : List (List Nat)) {c : Nat} (hc : c < rows.length) :
    (feed_rows step bytes i rows).getD c [] =
      if i ≤ c ∧ c < i + bytes.length then step (bytes.getD (c - i) 0) (rows.getD c [])
      else rows.getD c [] := by
  induction bytes generalizing i rows with
  | nil => rw [feed_rows, if_neg (by simp)]
  | cons b bytes ih =>
    rw [feed_rows, ih _ _ (by rwa [List.length_modify]), List.length_cons]
    by_cases hci : c = i
    · subst hci
      rw [if_neg (by omega), if_pos (by omega), Nat.sub_self]
      simp [hc]
    · have hrow : (rows.modify i (step b)).getD c [] = rows.getD c [] := by
        simp [hc, Ne.symm hci]
      rw [hrow]
      by_cases hin : i ≤ c ∧ c < i + (bytes.length + 1)
      · obtain ⟨e, rfl⟩ : ∃ e, c = i + 1 + e := ⟨c - (i + 1), by omega⟩
        rw [if_pos hin, if_pos (by omega), Nat.add_sub_cancel_left,
          show i + 1 + e - i = e + 1 by omega, List.getD_cons_succ]
      · rw [if_neg hin, if_neg (by omega)]

theorem length_size_header (size : Nat) : (size_header size).length = RS_HEADER_SIZE := by
  simp [size_header]

theorem size_header_lt (size : Nat) : ∀ b ∈ size_header size, b < 256 := by
  intro b hb
  obtain ⟨i, _, rfl⟩ := List.mem_map.mp hb
  exact lt_of_le_of_lt Nat.and_le_left (by norm_num)

/-! ## The encoder in the middle of a block -/

/-- What the rows are fed of a message: its size, then its bytes. -/
def packed (message : List UInt8) : List Nat :=
  size_header message.length ++ message.map UInt8.toNat

theorem length_packed (message : List UInt8) :
    (packed message).length = RS_MAX_ENCODED_SIZE message.length := by
  rw [packed, List.length_append, length_size_header, List.length_map, RS_MAX_ENCODED_SIZE]
  omega

theorem packed_lt (message : List UInt8) (c : Nat) : (packed message).getD c 0 < 256 := by
  apply words_of_mem (m := 8)
  intro b hb
  rcases List.mem_append.mp hb with hb | hb
  · exact size_header_lt _ b hb
  · obtain ⟨x, _, rfl⟩ := List.mem_map.mp hb
    exact x.toNat_lt

/-- What one row is fed of the messages; a message that ends before the row counts as zero. -/
def column (messages : List (List UInt8)) (c : Nat) : List Nat :=
  messages.map fun message => (packed message).getD c 0

theorem length_column (messages : List (List UInt8)) (c : Nat) :
    (column messages c).length = messages.length := by
  rw [column, List.length_map]

theorem column_lt (messages : List (List UInt8)) (c : Nat) : ∀ s ∈ column messages c, s < 2 ^ 8 := by
  intro s hs
  obtain ⟨message, _, rfl⟩ := List.mem_map.mp hs
  exact packed_lt message c

/-- The checks of the messages, row by row. -/
def block_rows (rs : rs_t) (messages : List (List UInt8)) : List (List Nat) :=
  (List.range (RS_MAX_ENCODED_SIZE rs.max_data_size)).map fun c =>
    checksOf rs.rscode (T_SIZE rs) (column messages c)

theorem getD_block_rows (rs : rs_t) (messages : List (List UInt8)) {c : Nat}
    (hc : c < RS_MAX_ENCODED_SIZE rs.max_data_size) :
    (block_rows rs messages).getD c [] = checksOf rs.rscode (T_SIZE rs) (column messages c) := by
  simp [block_rows, hc]

/-- The encoder has taken these messages since its last reset. -/
structure Encoded (rs : rs_t) (messages : List (List UInt8)) (ec : rs_ec_t) : Prop where
  count : ec.count = messages.length
  checks : ec.checks = block_rows rs messages

theorem encoded_reset (rs : rs_t) (ec : rs_ec_t) : Encoded rs [] (rs_reset_ec rs ec) := by
  refine ⟨rfl, ?_⟩
  simp [rs_reset_ec, zero_rows, block_rows, column, checksOf, List.map_const']

/-- The three loops of `rs_encode` feed every row one byte. -/
theorem feed_packed (rs : rs_t) (messages : List (List UInt8)) {input : List UInt8}
    (hsize : input.length ≤ rs.max_data_size) :
    feed_rows (rscode_encode rs.rscode) (List.replicate (rs.max_data_size - input.length) 0)
      (RS_HEADER_SIZE + input.length) (feed_rows (rscode_encode rs.rscode)
        (input.map UInt8.toNat) RS_HEADER_SIZE (feed_rows (rscode_encode rs.rscode)
          (size_header input.length) 0 (block_rows rs messages))) =
      block_rows rs (messages ++ [input]) := by
  have hhead := feed_rows_append (rscode_encode rs.rscode) (size_header input.length)
    (input.map UInt8.toNat) 0 (block_rows rs messages)
  have htail := feed_rows_append (rscode_encode rs.rscode) (packed input)
    (List.replicate (rs.max_data_size - input.length) 0) 0 (block_rows rs messages)
  rw [length_size_header, Nat.zero_add] at hhead
  rw [length_packed, RS_MAX_ENCODED_SIZE, Nat.zero_add, Nat.add_comm] at htail
  rw [← hhead, ← packed, ← htail]
  have hlen : (block_rows rs messages).length = RS_MAX_ENCODED_SIZE rs.max_data_size := by
    simp [block_rows]
  apply List.ext_getElem
  · simp [block_rows]
  · intro c h1 h2
    have hc : c < RS_MAX_ENCODED_SIZE rs.max_data_size := by simpa [hlen] using h1
    have htotal : RS_MAX_ENCODED_SIZE input.length + (rs.max_data_size - input.length) =
        RS_MAX_ENCODED_SIZE rs.max_data_size := by
      unfold RS_MAX_ENCODED_SIZE
      omega
    rw [← List.getD_eq_getElem _ [] h1, ← List.getD_eq_getElem _ [] h2,
      getD_feed_rows _ _ _ _ (by rwa [hlen]), getD_block_rows _ _ hc, getD_block_rows _ _ hc,
      List.length_append, length_packed, List.length_replicate, htotal,
      if_pos ⟨Nat.zero_le c, by rwa [Nat.zero_add]⟩, Nat.sub_zero]
    have hbyte : (packed input ++ List.replicate (rs.max_data_size - input.length) 0).getD c 0 =
        (packed input).getD c 0 := by
      by_cases hin : c < (packed input).length
      · rw [List.getD_append _ _ _ _ hin]
      · rw [List.getD_append_right _ _ _ _ (by omega), getD_replicate,
          List.getD_eq_default _ _ (by omega)]
    rw [hbyte]
    simp [checksOf, column]

/-- One message more, while the block has room for it. -/
theorem rs_encode_step {rs : rs_t} {messages : List (List UInt8)} {ec : rs_ec_t}
    (h : Encoded rs messages ec) {input : List UInt8} (hsize : input.length ≤ rs.max_data_size)
    (hroom : messages.length < rs.K) :
    ∃ ec', rs_encode rs ec input = some (ec', .ok
        (if messages.length + 1 = rs.K then T_SIZE rs else 0, rs.N - 1 - messages.length)) ∧
      Encoded rs (messages ++ [input]) ec' := by
  unfold rs_encode
  simp only
  rw [if_neg (by omega), h.checks, feed_packed rs messages hsize, h.count]
  refine ⟨⟨messages.length + 1, block_rows rs (messages ++ [input])⟩, ?_, by simp, rfl⟩
  simp only [rs_is_ec_complete]
  rw [if_pos (by omega)]
  simp

/-! ## The redundant payloads -/

theorem trailing_spec (column : List UInt8) :
    let t := column.foldl trailing_turn (0, 0)
    t.1 + t.2 = column.length ∧ ∀ i, t.1 ≤ i → column.getD i 0 = 0 := by
  induction column using List.reverseRecOn with
  | nil => simp
  | append_singleton column b ih =>
    obtain ⟨hlen, hzero⟩ := ih
    simp only [List.foldl_append, List.foldl_cons, List.foldl_nil, trailing_turn,
      List.length_append, List.length_singleton]
    generalize column.foldl trailing_turn (0, 0) = t at hlen hzero
    obtain ⟨valid_size, trailing_zero⟩ := t
    simp only at hlen hzero ⊢
    by_cases hb : b = 0
    · subst hb
      rw [if_pos rfl]
      refine ⟨by omega, fun i hi => ?_⟩
      by_cases hin : i < column.length
      · rw [List.getD_append _ _ _ _ hin]
        exact hzero i hi
      · rw [List.getD_append_right _ _ _ _ (by omega)]
        exact getD_replicate 1 _
    · rw [if_neg hb]
      refine ⟨by simp only; omega, fun i hi => ?_⟩
      simp only at hi
      exact List.getD_eq_default _ _ (by simp; omega)

/-- The payload of a redundant packet: one entry of every row, without the zeros at its end. -/
def redundant (rs : rs_t) (messages : List (List UInt8)) (index : Nat) : List UInt8 :=
  let (buffer, s) := build_redundant (block_rows rs messages) index
  buffer.take s

theorem length_redundant_le (rs : rs_t) (messages : List (List UInt8)) (index : Nat) :
    (redundant rs messages index).length ≤ RS_MAX_ENCODED_SIZE rs.max_data_size := by
  simp only [redundant, build_redundant, List.length_take, List.length_map, block_rows,
    List.length_range]
  exact Nat.min_le_right _ _

theorem getD_redundant (rs : rs_t) (messages : List (List UInt8)) (index : Nat) {c : Nat}
    (hc : c < RS_MAX_ENCODED_SIZE rs.max_data_size) :
    (redundant rs messages index).getD c 0 =
      UInt8.ofNat ((checksOf rs.rscode (T_SIZE rs) (column messages c)).getD index 0) := by
  have hrow : ((block_rows rs messages).map fun row => UInt8.ofNat (row.getD index 0)).getD c 0 =
      UInt8.ofNat ((checksOf rs.rscode (T_SIZE rs) (column messages c)).getD index 0) := by
    simp [block_rows, hc]
  simp only [redundant, build_redundant]
  obtain ⟨-, hzero⟩ := trailing_spec
    ((block_rows rs messages).map fun row => UInt8.ofNat (row.getD index 0))
  generalize (List.foldl trailing_turn (0, 0) _).1 = s at hzero
  by_cases hcs : c < s
  · simpa [List.getD_eq_getElem?_getD, List.getElem?_take, hcs] using hrow
  · rw [List.getD_eq_default _ _ (by simp; omega), ← hrow, hzero c (by omega)]

theorem rs_encode_result_spec {rs : rs_t} {messages : List (List UInt8)} {ec : rs_ec_t}
    (h : Encoded rs messages ec) {index size : Nat} (hindex : index < T_SIZE rs)
    (hsize : RS_MAX_ENCODED_SIZE rs.max_data_size ≤ size) :
    rs_encode_result rs ec index size =
      .ok (redundant rs messages index, T_SIZE rs - 1 - index) := by
  unfold rs_encode_result redundant
  simp only
  rw [if_neg (by omega), if_neg (by omega), h.checks]

/-! ## The decoder in the middle of a block -/

/-- What the rows are fed of a packet. -/
def fed (rs : rs_t) (degree : Nat) (payload : List UInt8) : List Nat :=
  if IS_RAW rs degree then packed payload else payload.map UInt8.toNat

/-- The largest payload that `rs_decode` takes at a degree. -/
def allowed (rs : rs_t) (degree : Nat) : Nat :=
  if IS_RAW rs degree then rs.max_data_size else rs.max_data_size + RS_HEADER_SIZE

/-- The context with one packet more, before the erasures are looked for. -/
def rs_accept (rs : rs_t) (dc : rs_dc_t) (input : List UInt8) (degree : Nat) : rs_dc_t :=
  { dc with
    syndromes := feed_rows (fun b => rscode_decode_syndromes rs.rscode b degree)
      (fed rs degree input) 0 dc.syndromes
    count := dc.count + 1
    mask := bitmap256_set dc.mask degree }

@[simp] theorem rs_accept_count (rs : rs_t) (dc : rs_dc_t) (input : List UInt8) (degree : Nat) :
    (rs_accept rs dc input degree).count = dc.count + 1 := rfl

@[simp] theorem rs_accept_mask (rs : rs_t) (dc : rs_dc_t) (input : List UInt8) (degree : Nat) :
    (rs_accept rs dc input degree).mask = bitmap256_set dc.mask degree := rfl

/-- The degrees of a list that are not set in the mask. -/
def unset (mask : bitmap256_t) (ds : List Nat) : List Nat :=
  ds.filter fun d => !bitmap256_isset mask d

/-- The messages that the mask shows as missing, first message first. -/
def unset_raw (rs : rs_t) (mask : bitmap256_t) : List Nat :=
  unset mask (List.range' (T_SIZE rs) (rs.N - T_SIZE rs)).reverse

def unset_redundant (rs : rs_t) (mask : bitmap256_t) : List Nat :=
  unset mask (List.range (T_SIZE rs)).reverse

/-- The listed erasures: none when every message is there, else every degree that is not set
in the mask, the messages first. -/
structure Erasures (rs : rs_t) (dc : rs_dc_t) : Prop where
  raw_num : dc.raw_erasure_num = (unset_raw rs dc.mask).length
  num : dc.erasure_num = if dc.raw_erasure_num = 0 then 0
    else (unset_raw rs dc.mask ++ unset_redundant rs dc.mask).length
  listed : dc.erasure_degrees.take dc.erasure_num = if dc.raw_erasure_num = 0 then []
    else unset_raw rs dc.mask ++ unset_redundant rs dc.mask

theorem erasure_loop (mask : bitmap256_t) (ds l : List Nat) (n : Nat)
    (hroom : n + (unset mask ds).length ≤ l.length) :
    let t := ds.foldl (erasure_turn mask) (l, n)
    t.1.length = l.length ∧ t.2 = n + (unset mask ds).length ∧
      t.1.take t.2 = l.take n ++ unset mask ds := by
  induction ds generalizing l n with
  | nil => simp [unset]
  | cons d ds ih =>
    rw [List.foldl_cons]
    by_cases hd : bitmap256_isset mask d
    · have hun : unset mask (d :: ds) = unset mask ds := by simp [unset, hd]
      rw [hun] at hroom ⊢
      rw [erasure_turn, if_pos hd]
      exact ih l n hroom
    · have hun : unset mask (d :: ds) = d :: unset mask ds := by simp [unset, hd]
      rw [hun, List.length_cons] at hroom
      rw [hun, erasure_turn, if_neg hd]
      obtain ⟨h1, h2, h3⟩ := ih (l.set n d) (n + 1) (by rw [List.length_set]; omega)
      refine ⟨by rw [h1, List.length_set], by rw [h2, List.length_cons]; omega, ?_⟩
      rw [h3, List.take_succ_eq_append_getElem (by rw [List.length_set]; omega),
        List.take_set_of_le le_rfl]
      simp

/-- The decoder holds the marks of packets at these degrees, the last one first. -/
structure Marked (rs : rs_t) (ds : List Nat) (dc : rs_dc_t) : Prop where
  count : dc.count = ds.length
  nodup : (ds.map slot).Nodup
  lt : ∀ d ∈ ds, d < rs.N
  isset : ∀ e, bitmap256_isset dc.mask e = decide (slot e ∈ ds.map slot)
  room : dc.erasure_degrees.length = T_SIZE rs

theorem marked_reset (rs : rs_t) (dc : rs_dc_t) : Marked rs [] (rs_reset_dc rs dc) := by
  refine ⟨rfl, List.nodup_nil, by simp, fun e => ?_, by simp [rs_reset_dc]⟩
  simp only [rs_reset_dc]
  rw [isset_reset]
  simp

theorem marked_accept {rs : rs_t} {ds : List Nat} {dc : rs_dc_t} (h : Marked rs ds dc)
    (hN : rs.N ≤ 255) {degree : Nat} (hdegree : degree < rs.N)
    (hnew : bitmap256_isset dc.mask degree = false) (input : List UInt8) :
    Marked rs (degree :: ds) (rs_accept rs dc input degree) := by
  refine ⟨by simp [rs_accept, h.count], ?_, ?_, fun e => ?_, h.room⟩
  · rw [h.isset, decide_eq_false_iff_not] at hnew
    rw [List.map_cons]
    exact List.nodup_cons.mpr ⟨hnew, h.nodup⟩
  · intro d hd
    rcases List.mem_cons.mp hd with rfl | hd
    · exact hdegree
    · exact h.lt d hd
  · simp only [rs_accept]
    rw [isset_set _ (by omega), h.isset, Bool.eq_iff_iff]
    simp only [Bool.or_eq_true, decide_eq_true_eq, List.map_cons, List.mem_cons]
    constructor
    · rintro (he | he)
      · exact Or.inr he
      · exact Or.inl he.symm
    · rintro (he | he)
      · exact Or.inr he.symm
      · exact Or.inl he

theorem unset_perm (rs : rs_t) (hKN : rs.K ≤ rs.N) (mask : bitmap256_t) :
    (unset_raw rs mask ++ unset_redundant rs mask).Perm (unset mask (List.range rs.N)) := by
  have happ := List.range'_append_1 (s := 0) (m := T_SIZE rs) (n := rs.N - T_SIZE rs)
  rw [Nat.zero_add, show T_SIZE rs + (rs.N - T_SIZE rs) = rs.N by unfold T_SIZE; omega] at happ
  rw [List.range_eq_range', ← happ, ← List.range_eq_range']
  unfold unset_raw unset_redundant unset
  rw [List.filter_append, List.filter_reverse, List.filter_reverse]
  exact List.perm_append_comm.trans ((List.reverse_perm _).append (List.reverse_perm _))

/-- A full decoder leaves at most `T` degrees unset. -/
theorem length_unset_le {rs : rs_t} {ds : List Nat} {dc : rs_dc_t} (h : Marked rs ds dc)
    (hK : ds.length = rs.K) (hKN : rs.K ≤ rs.N) :
    (unset_raw rs dc.mask ++ unset_redundant rs dc.mask).length ≤ T_SIZE rs := by
  have hdis : (ds ++ unset dc.mask (List.range rs.N)).Nodup := by
    rw [List.nodup_append]
    refine ⟨h.nodup.of_map _, List.nodup_range.filter _, ?_⟩
    rintro a ha b hb rfl
    have hset := h.isset a
    rw [decide_eq_true (List.mem_map_of_mem ha)] at hset
    simp [unset, hset] at hb
  have hsub : ds ++ unset dc.mask (List.range rs.N) ⊆ List.range rs.N := by
    intro d hd
    rcases List.mem_append.mp hd with hd | hd
    · exact List.mem_range.mpr (h.lt d hd)
    · exact (List.mem_filter.mp hd).1
  have hle := (List.subperm_of_subset hdis hsub).length_le
  rw [List.length_append, List.length_range, hK] at hle
  rw [(unset_perm rs hKN dc.mask).length_eq]
  unfold T_SIZE
  omega

/-! ## One call of `rs_decode` -/

theorem rs_decode_degree {rs : rs_t} {degree : Int} (h : degree < 0 ∨ degree ≥ rs.N) (dc : rs_dc_t)
    (input : List UInt8) :
    rs_decode rs dc input degree = some (dc, .error .E_RS_INVALID_DEGREE) := by
  unfold rs_decode
  rw [if_pos h]

theorem rs_decode_size {rs : rs_t} {degree : Nat} {input : List UInt8} (hdegree : degree < rs.N)
    (hsize : allowed rs degree < input.length) (dc : rs_dc_t) :
    rs_decode rs dc input degree = some (dc, .error .E_RS_INVALID_SIZE) := by
  unfold rs_decode
  unfold allowed at hsize
  rw [if_neg (by omega)]
  simp only [Int.toNat_natCast]
  rw [if_pos hsize]

theorem rs_decode_duplicate {rs : rs_t} {degree : Nat} {input : List UInt8}
    (hdegree : degree < rs.N) (hsize : input.length ≤ allowed rs degree) {dc : rs_dc_t}
    (hset : bitmap256_isset dc.mask degree = true) :
    rs_decode rs dc input degree = some (dc, .error .E_RS_DUPLICATE) := by
  unfold rs_decode
  unfold allowed at hsize
  rw [if_neg (by omega)]
  simp only [Int.toNat_natCast]
  rw [if_neg (by omega), if_pos hset]

theorem rs_decode_new {rs : rs_t} {degree : Nat} {input : List UInt8}
    (hdegree : degree < rs.N) (hsize : input.length ≤ allowed rs degree) {dc : rs_dc_t}
    (hnew : bitmap256_isset dc.mask degree = false) :
    rs_decode rs dc input degree =
      match rs_is_dc_complete rs (rs_accept rs dc input degree) with
      | none => none
      | some false => some (rs_accept rs dc input degree, .ok (0, IS_RAW rs degree))
      | some true => some ((build_erasures rs (rs_accept rs dc input degree)).1,
          .ok ((build_erasures rs (rs_accept rs dc input degree)).2, IS_RAW rs degree)) := by
  have hfeed : feed_rows (fun b => rscode_decode_syndromes rs.rscode b degree)
      (input.map UInt8.toNat) (if IS_RAW rs degree then RS_HEADER_SIZE else 0)
      (if IS_RAW rs degree then feed_rows (fun b => rscode_decode_syndromes rs.rscode b degree)
        (size_header input.length) 0 dc.syndromes else dc.syndromes) =
      (rs_accept rs dc input degree).syndromes := by
    simp only [rs_accept, fed]
    split
    · rw [packed, feed_rows_append, length_size_header, Nat.zero_add]
    · rfl
  unfold rs_decode
  unfold allowed at hsize
  rw [if_neg (by omega)]
  simp only [Int.toNat_natCast]
  rw [if_neg (by omega), if_neg (by rw [hnew]; exact Bool.false_ne_true), hfeed]
  rfl

/-- A packet is refused and leaves the context as it was, or it is a new one of the block. -/
theorem rs_decode_error_or_new (rs : rs_t) (dc : rs_dc_t) (input : List UInt8) (degree : Int) :
    (∃ err, rs_decode rs dc input degree = some (dc, .error err)) ∨
      ∃ d : Nat, degree = d ∧ d < rs.N ∧ input.length ≤ allowed rs d ∧
        bitmap256_isset dc.mask d = false := by
  by_cases hrange : degree < 0 ∨ degree ≥ rs.N
  · exact Or.inl ⟨_, rs_decode_degree hrange dc input⟩
  obtain ⟨d, rfl⟩ := Int.eq_ofNat_of_zero_le (not_lt.mp fun hneg => hrange (Or.inl hneg))
  have hd : d < rs.N := by omega
  by_cases hsize : input.length ≤ allowed rs d
  case neg => exact Or.inl ⟨_, rs_decode_size hd (not_le.mp hsize) dc⟩
  cases hnew : bitmap256_isset dc.mask d with
  | true => exact Or.inl ⟨_, rs_decode_duplicate hd hsize hnew⟩
  | false => exact Or.inr ⟨d, rfl, hd, hsize, hnew⟩

theorem build_erasures_spec {rs : rs_t} {ds : List Nat} {dc : rs_dc_t} (hm : Marked rs ds dc)
    (hK : ds.length = rs.K) (hKN : rs.K ≤ rs.N) :
    Marked rs ds (build_erasures rs dc).1 ∧ Erasures rs (build_erasures rs dc).1 ∧
      (build_erasures rs dc).2 = (build_erasures rs dc).1.raw_erasure_num ∧
      (build_erasures rs dc).1.syndromes = dc.syndromes := by
  have hle := length_unset_le hm hK hKN
  rw [List.length_append] at hle
  obtain ⟨h1, h2, h3⟩ := erasure_loop dc.mask (List.range' (T_SIZE rs) (rs.N - T_SIZE rs)).reverse
    dc.erasure_degrees 0 (by rw [hm.room]; unfold unset_raw at hle; omega)
  rw [Nat.zero_add] at h2
  rw [List.take_zero, List.nil_append] at h3
  unfold build_erasures
  simp only
  generalize List.foldl (erasure_turn dc.mask) (dc.erasure_degrees, 0) _ = t at h1 h2 h3
  obtain ⟨l, n⟩ := t
  simp only at h1 h2 h3
  by_cases hn : n = 0
  · subst hn
    simp only [if_true]
    exact ⟨⟨hm.count, hm.nodup, hm.lt, hm.isset, h1.trans hm.room⟩, ⟨h2, rfl, rfl⟩, trivial, trivial⟩
  · simp only [if_neg hn]
    obtain ⟨g1, g2, g3⟩ := erasure_loop dc.mask (List.range (T_SIZE rs)).reverse l n
      (by rw [h1, hm.room, h2]; exact hle)
    generalize List.foldl (erasure_turn dc.mask) (l, n) _ = t at g1 g2 g3
    obtain ⟨l', n'⟩ := t
    simp only at g1 g2 g3
    refine ⟨⟨hm.count, hm.nodup, hm.lt, hm.isset, g1.trans (h1.trans hm.room)⟩,
      ⟨h2, ?_, ?_⟩, trivial, trivial⟩
    · simp only [if_neg hn]
      rw [g2, h2, List.length_append]
      rfl
    · simp only [if_neg hn]
      rw [g3, h3]
      rfl

/-- A new packet is accepted while the block is incomplete, and the last one makes the list of
the erasures. -/
theorem rs_decode_step {rs : rs_t} {degree : Nat} {input : List UInt8} {ds : List Nat}
    (hdegree : degree < rs.N) (hsize : input.length ≤ allowed rs degree) {dc : rs_dc_t}
    (hnew : bitmap256_isset dc.mask degree = false) (h : Marked rs ds dc)
    (hroom : ds.length < rs.K) (hKN : rs.K ≤ rs.N) (hN : rs.N ≤ 255) :
    ∃ dc' n, rs_decode rs dc input degree = some (dc', .ok (n, IS_RAW rs degree)) ∧
      Marked rs (degree :: ds) dc' ∧
      dc'.syndromes = (rs_accept rs dc input degree).syndromes ∧
      (ds.length + 1 < rs.K → n = 0) ∧
      (ds.length + 1 = rs.K → n = dc'.raw_erasure_num ∧ Erasures rs dc') := by
  have hm := marked_accept h hN hdegree hnew input
  rw [rs_decode_new hdegree hsize hnew]
  unfold rs_is_dc_complete
  rw [rs_accept_count, h.count, if_pos (by omega)]
  by_cases hlast : ds.length + 1 = rs.K
  · rw [hlast, beq_self_eq_true]
    obtain ⟨h1, h2, h3, h4⟩ := build_erasures_spec hm hlast hKN
    exact ⟨_, _, rfl, h1, h4, fun hlt => absurd hlt (by omega), fun _ => ⟨h3, h2⟩⟩
  · rw [beq_false_of_ne hlast]
    exact ⟨_, _, rfl, hm, rfl, fun _ => rfl, fun heq => absurd heq hlast⟩

end nettle.rs
