-- The packets of one block and what comes back from K of them. Every row of
-- the codec is a word of the symbol code, so the restored bytes are the
-- erased symbols of the rows, and the first four rows are the size.
import Nettle.RsBlock

open binary_field in_place nettle.galois nettle.rscode

namespace nettle.rs

/-! ## The packets of a block -/

/-- The symbol of a row at a degree. -/
def word (rs : rs_t) (messages : List (List UInt8)) (c d : Nat) : Nat :=
  symbolAt rs.rscode (T_SIZE rs) (column messages c) d

/-- The payload of the packet at a degree: a message, or a redundant payload. -/
def payload_at (rs : rs_t) (messages : List (List UInt8)) (d : Nat) : List UInt8 :=
  if IS_RAW rs d then messages.getD (rs.N - 1 - d) [] else redundant rs messages (T_SIZE rs - 1 - d)

/-- The messages of a full block. -/
structure Block (rs : rs_t) (messages : List (List UInt8)) : Prop where
  length : messages.length = rs.K
  size : ∀ message ∈ messages, message.length ≤ rs.max_data_size

section

variable {N K : Nat} (hp : Params N K) {D : Nat} {messages : List (List UInt8)}

include hp

theorem length_payload_at (hb : Block (rs_init N K D) messages) {d : Nat} (hd : d < N) :
    (payload_at (rs_init N K D) messages d).length ≤ allowed (rs_init N K D) d := by
  have := hp.lt
  unfold payload_at allowed
  split
  · rename_i hraw
    have hraw : N - K ≤ d := by simpa [IS_RAW] using hraw
    have hlt : N - 1 - d < messages.length := by
      rw [hb.length]
      simp only [rs_init_K]
      omega
    simp only [rs_init_N]
    rw [List.getD_eq_getElem _ _ hlt]
    exact hb.size _ (List.getElem_mem hlt)
  · exact length_redundant_le _ _ _

theorem word_lt (messages : List (List UInt8)) (c d : Nat) : word (rs_init N K D) messages c d < 256 :=
  (hp.code D).symbolAt_lt (column_lt messages c) d

theorem word_raw (hb : Block (rs_init N K D) messages) (c : Nat) {d : Nat} (hraw : N - K ≤ d)
    (hd : d < N) :
    word (rs_init N K D) messages c d = (packed (messages.getD (N - 1 - d) [])).getD c 0 := by
  have := hp.lt
  have hK : messages.length = K := hb.length
  have hi : N - 1 - d < messages.length := by omega
  unfold word
  rw [T_SIZE_init, (hp.code D).symbolAt_message (column_lt messages c) hraw
    (by rw [length_column]; omega), length_column,
    show messages.length + (N - K) - 1 - d = N - 1 - d by omega,
    column, List.getD_eq_getElem _ _ (by rwa [List.length_map]), List.getElem_map,
    List.getD_eq_getElem messages _ hi]

theorem word_redundant (c : Nat) {d : Nat} (hd : d < N - K) :
    word (rs_init N K D) messages c d =
      (checksOf (rs_init N K D).rscode (N - K) (column messages c)).getD (N - K - 1 - d) 0 :=
  (hp.code D).symbolAt_checks (column_lt messages c) hd

/-- The rows are fed the symbols of the packet's degree, as far as the packet goes. -/
theorem getD_fed_payload_at (hb : Block (rs_init N K D) messages) {c d : Nat} (hd : d < N)
    (hc : c < RS_MAX_ENCODED_SIZE D) :
    (fed (rs_init N K D) d (payload_at (rs_init N K D) messages d)).getD c 0 =
      word (rs_init N K D) messages c d := by
  unfold fed payload_at
  by_cases hraw : N - K ≤ d
  · have hIS : IS_RAW (rs_init N K D) d = true := by simpa [IS_RAW] using hraw
    rw [if_pos hIS, if_pos hIS, word_raw hp hb c hraw hd]
    rfl
  · have hIS : ¬IS_RAW (rs_init N K D) d = true := by simpa [IS_RAW] using hraw
    have hlt := word_lt hp (D := D) messages c d
    rw [word_redundant hp c (by omega)] at hlt ⊢
    rw [if_neg hIS, if_neg hIS, show (0 : Nat) = (0 : UInt8).toNat from rfl, List.getD_map,
      getD_redundant _ _ _ hc]
    simp only [T_SIZE_init]
    exact UInt8.toNat_ofNat_of_lt' hlt

end

/-! ## The rows of the decoder -/

/-- Every row holds the syndromes of the block's symbols at the degrees received. -/
structure Rows (rs : rs_t) (messages : List (List UInt8)) (ds : List Nat) (dc : rs_dc_t) : Prop where
  len : dc.syndromes.length = RS_MAX_ENCODED_SIZE rs.max_data_size
  row : ∀ c < RS_MAX_ENCODED_SIZE rs.max_data_size, Syndromes 8 0b100011101 (T_SIZE rs)
    (fun d => residue 0b100011101 (word rs messages c d)) ds (dc.syndromes.getD c [])

theorem rows_reset (rs : rs_t) (messages : List (List UInt8)) (dc : rs_dc_t) :
    Rows rs messages [] (rs_reset_dc rs dc) := by
  refine ⟨by simp [rs_reset_dc, zero_rows], fun c hc => ?_⟩
  have hrow : (rs_reset_dc rs dc).syndromes.getD c [] = List.replicate (T_SIZE rs) 0 := by
    simp [rs_reset_dc, zero_rows, hc]
  rw [hrow]
  exact syndromes_nil _ _ _ _

theorem Rows.of_syndromes {rs : rs_t} {messages : List (List UInt8)} {ds : List Nat}
    {dc dc' : rs_dc_t} (h : Rows rs messages ds dc) (heq : dc'.syndromes = dc.syndromes) :
    Rows rs messages ds dc' := ⟨by rw [heq, h.len], fun c hc => by rw [heq]; exact h.row c hc⟩

section

variable {N K : Nat} (hp : Params N K) {D : Nat} {messages : List (List UInt8)}

include hp

theorem rows_accept (hb : Block (rs_init N K D) messages) {ds : List Nat} {dc : rs_dc_t}
    (h : Rows (rs_init N K D) messages ds dc) {d : Nat} (hd : d < N) :
    Rows (rs_init N K D) messages (d :: ds)
      (rs_accept (rs_init N K D) dc (payload_at (rs_init N K D) messages d) d) := by
  have hcode := hp.code D
  have hfit : d * (N - K) < 2 ^ 32 := by
    have := hp.le
    have h1 : d * (N - K) ≤ 255 * 255 := Nat.mul_le_mul (by omega) (by omega)
    omega
  refine ⟨by simp [rs_accept, h.len], fun c hc => ?_⟩
  have hrow := h.row c hc
  have hfed := getD_fed_payload_at hp hb (D := D) hd hc
  simp only [rs_accept]
  rw [getD_feed_rows _ _ _ _ (by rw [h.len]; exact hc), Nat.sub_zero, Nat.zero_add]
  split
  · rw [hfed]
    exact hcode.syndromes_cons hrow (word_lt hp messages c d) rfl hfit
  · rename_i hout
    rw [List.getD_eq_default _ _ (by omega)] at hfed
    apply hrow.skip
    rw [← hfed, residue_zero]

end

/-! ## The erased symbols -/

/-- No degree that is missing shares its place in the mask with a received one. -/
def Clear (rs : rs_t) (ds : List Nat) : Prop :=
  ∀ e < rs.N, slot e ∈ ds.map slot → e ∈ ds

theorem clear_of_le {rs : rs_t} (hN : rs.N ≤ 32) {ds : List Nat} (hds : ∀ d ∈ ds, d < rs.N) :
    Clear rs ds := by
  intro e he hslot
  obtain ⟨d, hd, heq⟩ := List.mem_map.mp hslot
  have := hds d hd
  rwa [← slot_inj (by omega) (by omega) heq]

/-- Without shared places the degrees not set are the ones that were not received. -/
theorem unset_perm_received {rs : rs_t} {ds : List Nat} {dc : rs_dc_t} (h : Marked rs ds dc)
    (hclear : Clear rs ds) : (unset dc.mask (List.range rs.N) ++ ds).Perm (List.range rs.N) := by
  have hmem : ∀ d < rs.N, (!bitmap256_isset dc.mask d) = decide (d ∉ ds) := by
    intro d hd
    rw [h.isset, Bool.eq_iff_iff]
    simp only [Bool.not_eq_true', decide_eq_false_iff_not, decide_eq_true_eq]
    exact not_congr ⟨hclear d hd, List.mem_map_of_mem⟩
  have hperm : ds.Perm ((List.range rs.N).filter fun d => decide (d ∈ ds)) := by
    apply (List.perm_ext_iff_of_nodup (h.nodup.of_map _) (List.nodup_range.filter _)).mpr
    intro d
    simp only [List.mem_filter, List.mem_range, decide_eq_true_eq]
    exact ⟨fun hd => ⟨h.lt d hd, hd⟩, fun hd => hd.2⟩
  have hunset : unset dc.mask (List.range rs.N) =
      (List.range rs.N).filter fun d => !decide (d ∈ ds) := by
    unfold unset
    apply List.filter_congr
    intro d hd
    rw [hmem d (List.mem_range.mp hd), decide_not]
  rw [hunset]
  exact (List.perm_append_comm.trans (hperm.append_right _)).trans
    (List.filter_append_perm _ _)

section

variable {rs : rs_t} {dc : rs_dc_t} (he : Erasures rs dc) (hraw : dc.raw_erasure_num ≠ 0)

include he hraw

theorem Erasures.listed_of_raw :
    dc.erasure_degrees.take dc.erasure_num = unset_raw rs dc.mask ++ unset_redundant rs dc.mask := by
  rw [he.listed, if_neg hraw]

theorem Erasures.num_of_raw :
    dc.erasure_num = (unset_raw rs dc.mask ++ unset_redundant rs dc.mask).length := by
  rw [he.num, if_neg hraw]

/-- The first erasures listed are the missing messages. -/
theorem Erasures.getD_raw {index : Nat} (hi : index < dc.raw_erasure_num) :
    dc.erasure_degrees.getD index 0 = (unset_raw rs dc.mask).getD index 0 := by
  have hnum := he.num_of_raw hraw
  rw [List.length_append, ← he.raw_num] at hnum
  have htake : (dc.erasure_degrees.take dc.erasure_num).getD index 0 =
      dc.erasure_degrees.getD index 0 := by
    simp only [List.getD_eq_getElem?_getD, List.getElem?_take, if_pos (show index < dc.erasure_num by omega)]
  rw [← htake, he.listed_of_raw hraw, List.getD_append _ _ _ _ (by rwa [← he.raw_num])]

end

section

variable {N K : Nat} (hp : Params N K) {D : Nat} {messages : List (List UInt8)}

include hp

/-- One erased symbol of one row, when the list of the erasures is the list of what is missing. -/
theorem decode_column_eq (hb : Block (rs_init N K D) messages) {ds : List Nat} {dc : rs_dc_t}
    (hm : Marked (rs_init N K D) ds dc) (hr : Rows (rs_init N K D) messages ds dc)
    (he : Erasures (rs_init N K D) dc) (hraw : dc.raw_erasure_num ≠ 0) (hlen : ds.length = K)
    (hall : ((unset_raw (rs_init N K D) dc.mask ++ unset_redundant (rs_init N K D) dc.mask) ++
      ds).Perm (List.range N)) {c : Nat} (hc : c < RS_MAX_ENCODED_SIZE D) {index : Nat}
    (hi : index < dc.erasure_num) :
    decode_column (rs_init N K D) dc c index =
      some (word (rs_init N K D) messages c (dc.erasure_degrees.getD index 0)) := by
  have := hp.lt
  have := hp.le
  have hle := length_unset_le hm hlen (by simp only [rs_init_K, rs_init_N]; omega)
  rw [← he.num_of_raw hraw] at hle
  rw [← he.listed_of_raw hraw] at hall
  simp only [T_SIZE_init] at hle
  have hzero := fun j (hj : j < N - K) =>
    (hp.code D).sum_symbolAt (column_lt messages c) (j := j) hj
  have hcol : (column messages c).length + (N - K) = N := by
    rw [length_column, hb.length, rs_init_K]
    omega
  rw [hcol] at hzero
  exact (hp.code D).decode_erasure_codeword (word_lt hp messages c) (by norm_num; omega) hzero
    (by rw [hm.room]; exact hle) hall hle (hr.row c hc) hi

end

/-! ## The restored message -/

theorem or_bytes (x : BitVec 32) :
    (((0#32 ||| ((0xff#32 &&& (x >>> 0)) <<< 0)) ||| ((0xff#32 &&& (x >>> 8)) <<< 8)) |||
      ((0xff#32 &&& (x >>> 16)) <<< 16)) ||| ((0xff#32 &&& (x >>> 24)) <<< 24) = x := by
  ext i hi
  interval_cases i <;> simp

theorem ofNat_byte {size : Nat} (h : size < 2 ^ 32) (k : Nat) :
    BitVec.ofNat 32 (0xff &&& (size >>> k)) = 0xff#32 &&& (BitVec.ofNat 32 size >>> k) := by
  apply BitVec.eq_of_toNat_eq
  have hand : 0xff &&& (size >>> k) < 2 ^ 32 := lt_of_le_of_lt Nat.and_le_left (by norm_num)
  have hx : (BitVec.ofNat 32 size).toNat = size := by
    rw [BitVec.toNat_ofNat, Nat.mod_eq_of_lt h]
  rw [BitVec.toNat_ofNat, Nat.mod_eq_of_lt hand, BitVec.toNat_and, BitVec.toNat_ushiftRight, hx]
  rfl

/-- The four symbols of a size put the size together again. -/
theorem decode_size_eq {rs : rs_t} {dc : rs_dc_t} {index size : Nat} (hsize : size < 2 ^ 31)
    (h : ∀ i < RS_HEADER_SIZE, decode_column rs dc i index = some ((size_header size).getD i 0)) :
    decode_size rs dc index = some (size : Int) := by
  have hbyte : ∀ i < RS_HEADER_SIZE, BitVec.ofNat 32 ((size_header size).getD i 0) =
      0xff#32 &&& (BitVec.ofNat 32 size >>> (i * 8)) := by
    intro i hi
    rw [← ofNat_byte (by omega)]
    simp [size_header, hi]
  unfold decode_size
  simp only [show List.range RS_HEADER_SIZE = [0, 1, 2, 3] from rfl, List.foldlM_cons,
    List.foldlM_nil, h 0 (by decide), h 1 (by decide), h 2 (by decide), h 3 (by decide),
    hbyte 0 (by decide), hbyte 1 (by decide), hbyte 2 (by decide), hbyte 3 (by decide),
    Option.pure_def, Option.bind_eq_bind, Option.bind_some]
  have hor := or_bytes (BitVec.ofNat 32 size)
  simp only [Nat.zero_mul, Nat.one_mul, Nat.reduceMul] at hor ⊢
  erw [hor]
  rw [BitVec.toInt_eq_toNat_of_lt (by rw [BitVec.toNat_ofNat]; omega), BitVec.toNat_ofNat,
    Nat.mod_eq_of_lt (by omega)]

/-- `rs_decode_result` when the columns decode to a message. -/
theorem rs_decode_result_eq {rs : rs_t} {dc : rs_dc_t} {index size : Nat} {message : List UInt8}
    (hindex : index < dc.raw_erasure_num) (hsize : rs.max_data_size ≤ size)
    (hlen : message.length ≤ rs.max_data_size) (hint : rs.max_data_size < 2 ^ 31)
    (h : ∀ c < RS_MAX_ENCODED_SIZE message.length,
      decode_column rs dc c index = some ((packed message).getD c 0)) :
    rs_decode_result rs dc index size =
      some (.ok (message, message.length, dc.erasure_degrees.getD index 0)) := by
  have hhead : ∀ i < RS_HEADER_SIZE,
      decode_column rs dc i index = some ((size_header message.length).getD i 0) := by
    intro i hi
    rw [h i (by unfold RS_MAX_ENCODED_SIZE; omega), packed,
      List.getD_append _ _ _ _ (by rwa [length_size_header])]
  have hbody : (List.range message.length).mapM (fun i => do
      let s ← decode_column rs dc (i + RS_HEADER_SIZE) index
      return UInt8.ofNat s) = some message := by
    have hmap : message = (List.range message.length).map fun i => message.getD i 0 := by
      apply List.ext_getElem
      · simp
      · intro i h1 h2
        rw [List.getElem_map, List.getElem_range, List.getD_eq_getElem _ _ h1]
    conv_rhs => rw [hmap]
    apply mapM_eq_some_map
    intro i hi
    rw [List.mem_range] at hi
    rw [h _ (by unfold RS_MAX_ENCODED_SIZE; omega), packed,
      List.getD_append_right _ _ _ _ (by rw [length_size_header]; omega), length_size_header,
      Nat.add_sub_cancel, show (0 : Nat) = (0 : UInt8).toNat from rfl, List.getD_map]
    simp
  unfold rs_decode_result
  rw [if_neg (by omega), if_neg (by omega), decode_size_eq (by omega) hhead]
  simp only [Option.bind_eq_bind, Option.bind_some]
  rw [if_neg (by omega), Int.toNat_natCast]
  simp only [Option.bind_eq_bind] at hbody
  rw [hbody]
  rfl

section

variable {N K : Nat} (hp : Params N K) {D : Nat} {messages : List (List UInt8)}

include hp

/-- Every missing message comes back, when the list of the erasures is the list of what is
missing. -/
theorem rs_decode_result_spec (hb : Block (rs_init N K D) messages) (hint : D < 2 ^ 31)
    {ds : List Nat} {dc : rs_dc_t} (hm : Marked (rs_init N K D) ds dc)
    (hr : Rows (rs_init N K D) messages ds dc) (he : Erasures (rs_init N K D) dc)
    (hlen : ds.length = K)
    (hall : ((unset_raw (rs_init N K D) dc.mask ++ unset_redundant (rs_init N K D) dc.mask) ++
      ds).Perm (List.range N)) {index size : Nat} (hi : index < dc.raw_erasure_num)
    (hsize : D ≤ size) :
    let d := (unset_raw (rs_init N K D) dc.mask).getD index 0
    let message := messages.getD (N - 1 - d) []
    rs_decode_result (rs_init N K D) dc index size = some (.ok (message, message.length, d)) := by
  have := hp.lt
  intro d message
  have hraw : dc.raw_erasure_num ≠ 0 := by omega
  have hdeg : dc.erasure_degrees.getD index 0 = d := he.getD_raw hraw hi
  have hd : N - K ≤ d ∧ d < N := by
    have hi' : index < (unset_raw (rs_init N K D) dc.mask).length := by rwa [← he.raw_num]
    have hmem : d ∈ unset_raw (rs_init N K D) dc.mask := by
      simp only [d]
      rw [List.getD_eq_getElem _ _ hi']
      exact List.getElem_mem hi'
    have := (List.mem_filter.mp hmem).1
    simp only [T_SIZE_init, rs_init_N, List.mem_reverse, List.mem_range'_1] at this
    omega
  have hmem : message.length ≤ D := by
    have hlt : N - 1 - d < messages.length := by
      rw [hb.length, rs_init_K]
      omega
    simp only [message]
    rw [List.getD_eq_getElem _ _ hlt]
    exact hb.size _ (List.getElem_mem hlt)
  rw [← hdeg]
  apply rs_decode_result_eq hi hsize hmem hint
  intro c hc
  have hnum := he.num_of_raw hraw
  rw [List.length_append, ← he.raw_num] at hnum
  rw [decode_column_eq hp hb hm hr he hraw hlen hall (by unfold RS_MAX_ENCODED_SIZE at *; omega)
    (by omega), hdeg, word_raw hp hb c hd.1 hd.2]

end

end nettle.rs
