-- The size of a restored message comes out of packets that anybody may have
-- sent. Which sizes the caller of rs_decode_result can get, and what stands
-- in its buffer then.
import Nettle.RsSane

open binary_field erasure_code in_place nettle.galois nettle.rscode

namespace nettle.rs

/-! ## The model -/

/-- The return value of `rs_decode_result`, the buffer, and what `size` and `degree` point to. -/
def rs_decode_result_into (rs : rs_t) (dc : rs_dc_t) (index : Int) (buffer : List UInt8)
    (size degree : Int) : Option (Except rs_error Unit × List UInt8 × Int × Int) :=
  if index < 0 ∨ index ≥ dc.raw_erasure_num then
    some (.error .E_RS_INVALID_INDEX, buffer, size, degree)
  else if size < rs.max_data_size then some (.error .E_RS_INVALID_SIZE, buffer, size, degree)
  else do
    let decoded_size ← decode_size rs dc index.toNat
    if decoded_size > rs.max_data_size then
      return (.error .E_RS_INVALID_HEADER, buffer, size, degree)
    else
      let buffer ← (List.range decoded_size.toNat).foldlM (fun buffer i => do
        let s ← decode_column rs dc (i + RS_HEADER_SIZE) index.toNat
        return buffer.set i (UInt8.ofNat s)) buffer
      return (.ok (), buffer, decoded_size, dc.erasure_degrees.getD index.toNat 0)

/-- Packets fed to a context one after the other, those that it refuses too. -/
def rs_decode_run (rs : rs_t) : rs_dc_t → List (List UInt8 × Int) → Option rs_dc_t
  | dc, [] => some dc
  | dc, (input, degree) :: packets =>
    match rs_decode rs dc input degree with
    | none => none
    | some (dc, _) => rs_decode_run rs dc packets

/-- The first `n` bytes of the buffer are the restored ones, and the rest is as it was. -/
structure Written (rs : rs_t) (dc : rs_dc_t) (index n : Nat) (buffer buffer' : List UInt8) :
    Prop where
  length : buffer'.length = buffer.length
  written : ∀ i < n, ∃ s, decode_column rs dc (i + RS_HEADER_SIZE) index = some s ∧
    buffer'[i]? = some (UInt8.ofNat s)
  rest : ∀ i, n ≤ i → buffer'[i]? = buffer[i]?

/-- A success with a legal size and just that many bytes written, or an error and nothing. -/
def legal (rs : rs_t) (dc : rs_dc_t) (index : Nat) (buffer : List UInt8) (size degree : Int) :
    Except rs_error Unit × List UInt8 × Int × Int → Prop
  | (.ok (), buffer', size', _) => 0 ≤ size' ∧ size' ≤ rs.max_data_size ∧
      Written rs dc index size'.toNat buffer buffer'
  | (.error _, buffer', size', degree') => buffer' = buffer ∧ size' = size ∧ degree' = degree

/-- The loop writes the front of the buffer. -/
theorem write_loop_eq {column : Nat → Option Nat} {symbol : Nat → Nat}
    (h : ∀ i, column i = some (symbol i)) (buffer : List UInt8) {n : Nat} (hn : n ≤ buffer.length) :
    ((List.range n).foldlM (fun buffer i => do
      let s ← column i
      return buffer.set i (UInt8.ofNat s)) buffer) =
      some ((List.range n).map (fun i => UInt8.ofNat (symbol i)) ++ buffer.drop n) := by
  induction n with
  | zero => rfl
  | succ n ih =>
    rw [List.range_succ, List.foldlM_append, ih (Nat.le_of_succ_le hn)]
    simp only [List.foldlM_cons, List.foldlM_nil, h, Option.pure_def, Option.bind_eq_bind,
      Option.bind_some]
    rw [List.set_append_right _ _ (by simp), List.length_map, List.length_range, Nat.sub_self,
      List.drop_eq_getElem_cons hn, List.set_cons_zero, List.map_append, List.append_assoc]
    rfl

/-! ## Any packets -/

section

variable {N K D : Nat} (hp : Params N K)

include hp

/-- A context that was fed any packets is sound, as long as nothing aborts. -/
theorem run_sane {dc dc' : rs_dc_t} {ds : List Nat} (packets : List (List UInt8 × Int))
    (h : Sane (rs_init N K D) ds dc)
    (hrun : rs_decode_run (rs_init N K D) dc packets = some dc') :
    ∃ ds', Sane (rs_init N K D) ds' dc' := by
  induction packets generalizing dc ds with
  | nil =>
    cases hrun
    exact ⟨ds, h⟩
  | cons packet packets ih =>
    obtain ⟨input, degree⟩ := packet
    unfold rs_decode_run at hrun
    split at hrun
    · cases hrun
    next dc₁ result hdecode =>
    by_cases hroom : ds.length < K
    · rcases rs_decode_cases hp h hroom input degree with
        ⟨err, hrefused⟩ | ⟨dc₂, n, is_raw, haccepted, hdc, -⟩
      · rw [hrefused] at hdecode
        cases hdecode
        exact ih h hrun
      · rw [haccepted] at hdecode
        cases hdecode
        exact ih hdc hrun
    · -- A full context takes no packet any more.
      rcases rs_decode_error_or_new (rs_init N K D) dc input degree with ⟨err, hrefused⟩ |
        ⟨d, rfl, hd, hsize, hnew⟩
      · rw [hrefused] at hdecode
        cases hdecode
        exact ih h hrun
      · have hover : ¬dc.count + 1 ≤ K := by
          rw [h.marked.count]
          omega
        rw [rs_decode_new hd hsize hnew, rs_is_dc_complete, rs_accept_count, rs_init_K,
          if_neg hover] at hdecode
        cases hdecode

end

/-! ## The size -/

/-- The sign of four bytes put together in an `int` is the top bit of the last one. -/
theorem bytes_nonneg_iff {s₀ s₁ s₂ s₃ : Nat} (h₀ : s₀ < 2 ^ 8) (h₁ : s₁ < 2 ^ 8) (h₂ : s₂ < 2 ^ 8)
    (h₃ : s₃ < 2 ^ 8) :
    (0 : Int) ≤ (((((0 : BitVec 32) ||| (BitVec.ofNat 32 s₀ <<< (0 * 8))) |||
      (BitVec.ofNat 32 s₁ <<< (1 * 8))) ||| (BitVec.ofNat 32 s₂ <<< (2 * 8))) |||
      (BitVec.ofNat 32 s₃ <<< (3 * 8))).toInt ↔ s₃ < 2 ^ 7 := by
  generalize hx : (((((0 : BitVec 32) ||| (BitVec.ofNat 32 s₀ <<< (0 * 8))) |||
      (BitVec.ofNat 32 s₁ <<< (1 * 8))) ||| (BitVec.ofNat 32 s₂ <<< (2 * 8))) |||
      (BitVec.ofNat 32 s₃ <<< (3 * 8))) = x
  have hlow : ∀ s < 2 ^ 8, ∀ k, 8 ≤ k → s.testBit k = false := fun s hs k hk =>
    Nat.testBit_lt_two_pow (hs.trans_le (Nat.pow_le_pow_right (by decide) hk))
  have htop : s₃.testBit 7 = decide (2 ^ 7 ≤ s₃) := by
    rw [Nat.testBit_eq_decide_div_mod_eq]
    congr 1
    exact propext ⟨by omega, by omega⟩
  have hmsb : x.msb = decide (2 ^ 7 ≤ s₃) := by
    rw [← hx, ← htop, BitVec.msb_eq_getLsbD_last]
    simp [-BitVec.getLsbD_eq_getElem, BitVec.getLsbD_ofNat, hlow s₀ h₀, hlow s₁ h₁, hlow s₂ h₂]
  cases hsign : x.msb with
  | false =>
    rw [hsign, eq_comm, decide_eq_false_iff_not] at hmsb
    exact iff_of_true (BitVec.toInt_nonneg_of_msb_false hsign) (not_le.mp hmsb)
  | true =>
    rw [hsign, eq_comm, decide_eq_true_eq] at hmsb
    exact iff_of_false (not_le.mpr (BitVec.toInt_neg_of_msb_true hsign)) (not_lt.mpr hmsb)

section

variable {N K D : Nat} (hp : Params N K) {ds : List Nat} {dc : rs_dc_t}

include hp

/-- The size is not negative just if the last byte of the header has its top bit clear. -/
theorem decode_size_nonneg_iff (h : Sane (rs_init N K D) ds dc) {index : Nat}
    (hi : index < dc.erasure_num) :
    ∃ decoded_size, decode_size (rs_init N K D) dc index = some decoded_size ∧
      (0 ≤ decoded_size ↔ ∃ r < 2 ^ 7, Restores dc 3 index r) := by
  choose symbol hlt hsymbol hrestores using fun c => decode_column_restores hp h c hi
  unfold decode_size
  simp only [show List.range RS_HEADER_SIZE = [0, 1, 2, 3] from rfl, List.foldlM_cons,
    List.foldlM_nil, hsymbol, Option.pure_def, Option.bind_eq_bind, Option.bind_some]
  refine ⟨_, rfl, ?_⟩
  rw [bytes_nonneg_iff (hlt 0) (hlt 1) (hlt 2) (hlt 3)]
  refine ⟨fun hclear => ⟨symbol 3, hclear, hrestores 3⟩, fun ⟨r, hr, hres⟩ => ?_⟩
  rwa [restores_inj hp h hi (hlt 3) (hr.trans (by decide)) (hrestores 3) hres]

/-- The loop that writes the restored bytes. -/
theorem write_loop (h : Sane (rs_init N K D) ds dc) {index : Nat} (hi : index < dc.erasure_num)
    (buffer : List UInt8) {n : Nat} (hn : n ≤ buffer.length) :
    ∃ buffer', (List.range n).foldlM (fun buffer i => do
        let s ← decode_column (rs_init N K D) dc (i + RS_HEADER_SIZE) index
        return buffer.set i (UInt8.ofNat s)) buffer = some buffer' ∧
      Written (rs_init N K D) dc index n buffer buffer' := by
  choose symbol hlt hsymbol hrestores using fun c => decode_column_restores hp h c hi
  have hlength : ((List.range n).map fun i => UInt8.ofNat (symbol (i + RS_HEADER_SIZE))).length = n := by
    simp
  refine ⟨_, write_loop_eq (fun i => hsymbol (i + RS_HEADER_SIZE)) buffer hn, ?_, fun i hlt' => ?_,
    fun i hge => ?_⟩
  · rw [List.length_append, hlength, List.length_drop]
    omega
  · refine ⟨_, hsymbol (i + RS_HEADER_SIZE), ?_⟩
    rw [List.getElem?_append_left (by rwa [hlength]), List.getElem?_map, List.getElem?_range hlt',
      Option.map_some]
  · rw [List.getElem?_append_right (by rwa [hlength]), hlength, List.getElem?_drop,
      Nat.add_sub_cancel' hge]

/-- The bytes that the decoder hands to its callback are those that are written. -/
theorem rs_decode_result_into_eq (h : Sane (rs_init N K D) ds dc) (index size : Nat)
    {buffer : List UInt8} (hbuffer : D ≤ buffer.length) (degree : Int) :
    rs_decode_result_into (rs_init N K D) dc index buffer size degree =
      (rs_decode_result (rs_init N K D) dc index size).map fun
        | .error err => (.error err, buffer, size, degree)
        | .ok (decoded, decoded_size, degree') =>
          (.ok (), decoded ++ buffer.drop decoded.length, decoded_size, degree') := by
  unfold rs_decode_result_into rs_decode_result
  by_cases hindex : index ≥ dc.raw_erasure_num
  · rw [if_pos (Or.inr (by exact_mod_cast hindex)), if_pos hindex]
    rfl
  rw [if_neg (by omega), if_neg hindex, Int.toNat_natCast]
  by_cases hsize : size < D
  · rw [rs_init_max_data_size, if_pos (by exact_mod_cast hsize), if_pos hsize]
    rfl
  rw [rs_init_max_data_size, if_neg (by exact_mod_cast hsize), if_neg hsize]
  have hi : index < dc.erasure_num := (not_le.mp hindex).trans_le h.raw_num
  choose symbol hlt hsymbol hrestores using fun c => decode_column_restores hp h c hi
  obtain ⟨decoded_size, hdecoded, -⟩ := decode_size_nonneg_iff hp h hi
  simp only [hdecoded, Option.bind_eq_bind, Option.bind_some]
  by_cases hover : decoded_size > D
  · rw [if_pos hover, if_pos hover]
    rfl
  · rw [if_neg hover, if_neg hover]
    have hloop := write_loop_eq (fun i => hsymbol (i + RS_HEADER_SIZE)) buffer
      (n := decoded_size.toNat) (by omega)
    have hbytes := mapM_eq_some_map (f := fun i => do
        let s ← decode_column (rs_init N K D) dc (i + RS_HEADER_SIZE) index
        return UInt8.ofNat s)
      (fun i => UInt8.ofNat (symbol (i + RS_HEADER_SIZE))) (l := List.range decoded_size.toNat)
      fun i _ => by rw [hsymbol]; rfl
    simp only [Option.pure_def, Option.bind_eq_bind] at hloop hbytes
    simp only [Option.pure_def, hloop, hbytes, Option.bind_some, Option.map_some, List.length_map,
      List.length_range]

/-- One call: it is legal unless it is a success with a negative size. -/
theorem result_legal_iff (h : Sane (rs_init N K D) ds dc) (index : Int) {buffer : List UInt8}
    (hbuffer : D ≤ buffer.length) (size degree : Int) :
    ∃ result, rs_decode_result_into (rs_init N K D) dc index buffer size degree = some result ∧
      (legal (rs_init N K D) dc index.toNat buffer size degree result ↔
        (index < 0 ∨ index ≥ dc.raw_erasure_num) ∨ size < D ∨
          ∃ r < 2 ^ 7, Restores dc 3 index.toNat r) := by
  unfold rs_decode_result_into
  by_cases hindex : index < 0 ∨ index ≥ dc.raw_erasure_num
  · exact ⟨_, if_pos hindex, iff_of_true ⟨rfl, rfl, rfl⟩ (Or.inl hindex)⟩
  rw [if_neg hindex, or_iff_right hindex]
  by_cases hsize : size < D
  · exact ⟨_, if_pos hsize, iff_of_true ⟨rfl, rfl, rfl⟩ (Or.inl hsize)⟩
  rw [rs_init_max_data_size, if_neg hsize, or_iff_right hsize]
  have hi : index.toNat < dc.erasure_num := by
    have := h.raw_num
    omega
  obtain ⟨decoded_size, hdecoded, hsign⟩ := decode_size_nonneg_iff hp h hi
  rw [← hsign]
  simp only [hdecoded, Option.bind_eq_bind, Option.bind_some]
  by_cases hover : decoded_size > D
  · rw [if_pos hover]
    exact ⟨_, rfl, iff_of_true ⟨rfl, rfl, rfl⟩ (by omega)⟩
  · rw [if_neg hover]
    obtain ⟨buffer', hloop, hwritten⟩ := write_loop hp h hi buffer
      (n := decoded_size.toNat) (by omega)
    simp only [Option.pure_def, Option.bind_eq_bind] at hloop
    simp only [Option.pure_def, hloop, Option.bind_some]
    exact ⟨_, rfl, ⟨And.left, fun hpos => ⟨hpos, not_lt.mp hover, hwritten⟩⟩⟩

end

/-- After any packets, in particular all that make a block complete, a call of `rs_decode_result` is
legal exactly if it is refused for its arguments, or the code has a last header byte below 128. -/
theorem restored_sizes_are_legal_iff {N K D : Nat} (h : Codec N K D) (dc₀ : rs_dc_t)
    (packets : List (List UInt8 × Int)) {dc : rs_dc_t}
    (hrun : rs_decode_run (rs_init N K D) (rs_reset_dc (rs_init N K D) dc₀) packets = some dc)
    (index : Int) {buffer : List UInt8} (hbuffer : D ≤ buffer.length) (size degree : Int) :
    ∃ result, rs_decode_result_into (rs_init N K D) dc index buffer size degree = some result ∧
      (legal (rs_init N K D) dc index.toNat buffer size degree result ↔
        (index < 0 ∨ index ≥ dc.raw_erasure_num) ∨ size < D ∨
          ∃ r < 2 ^ 7, Restores dc 3 index.toNat r) := by
  obtain ⟨ds, hsane⟩ := run_sane h.toParams packets (sane_reset _ dc₀) hrun
  exact result_legal_iff h.toParams hsane index hbuffer size degree

/-- A block of one message and one redundant packet, of which only that packet comes. -/
def forged (payload : List UInt8) : List (List UInt8 × Int) := [(payload, 0)]

theorem restored_sizes_are_legal_two : ∃ dc,
    rs_decode_run (rs_init 2 1 4) (rs_reset_dc (rs_init 2 1 4) ⟨0, bitmap256_reset, [], [], 0, 0⟩)
      (forged [2, 0, 0, 0, 14, 6]) = some dc ∧
    rs_is_dc_complete (rs_init 2 1 4) dc = some true ∧
    ∃ result, rs_decode_result_into (rs_init 2 1 4) dc 0 [9, 9, 9, 9] 4 0 = some result ∧
      (legal (rs_init 2 1 4) dc 0 [9, 9, 9, 9] 4 0 result ↔
        ((0 : Int) < 0 ∨ (0 : Int) ≥ dc.raw_erasure_num) ∨ (4 : Int) < 4 ∨
          ∃ r < 2 ^ 7, Restores dc 3 0 r) := by
  have hrun : (do
      let dc ← rs_decode_run (rs_init 2 1 4)
        (rs_reset_dc (rs_init 2 1 4) ⟨0, bitmap256_reset, [], [], 0, 0⟩) (forged [2, 0, 0, 0, 14, 6])
      rs_is_dc_complete (rs_init 2 1 4) dc) = some true := by
    decide +kernel
  obtain ⟨dc, hrun, hcomplete⟩ := Option.bind_eq_some_iff.mp hrun
  exact ⟨dc, hrun, hcomplete, restored_sizes_are_legal_iff
    ⟨⟨by decide, by decide, by decide⟩, by decide⟩
    ⟨0, bitmap256_reset, [], [], 0, 0⟩ _ hrun 0 (by decide) 4 0⟩

/-- A redundant packet that restores a message of a negative size. -/
theorem a_forged_size_is_negative : ∃ dc,
    rs_decode_run (rs_init 2 1 4) (rs_reset_dc (rs_init 2 1 4) ⟨0, bitmap256_reset, [], [], 0, 0⟩)
      (forged [0, 0, 0, 29]) = some dc ∧
    rs_is_dc_complete (rs_init 2 1 4) dc = some true ∧
    rs_decode_result_into (rs_init 2 1 4) dc 0 [9, 9, 9, 9] 4 0 =
      some (.ok (), [9, 9, 9, 9], -2147483648, 1) ∧
    ¬legal (rs_init 2 1 4) dc 0 [9, 9, 9, 9] 4 0 (.ok (), [9, 9, 9, 9], -2147483648, 1) := by
  have hrun : (do
      let dc ← rs_decode_run (rs_init 2 1 4)
        (rs_reset_dc (rs_init 2 1 4) ⟨0, bitmap256_reset, [], [], 0, 0⟩) (forged [0, 0, 0, 29])
      let complete ← rs_is_dc_complete (rs_init 2 1 4) dc
      let (result, out) ← rs_decode_result_into (rs_init 2 1 4) dc 0 [9, 9, 9, 9] 4 0
      return (complete, result.toBool, out)) =
        some (true, true, [9, 9, 9, 9], -2147483648, 1) := by
    decide +kernel
  simp only [Option.bind_eq_bind, Option.bind_eq_some_iff, Option.pure_def, Option.some.injEq,
    Prod.mk.injEq] at hrun
  obtain ⟨dc, hrun, complete, hcomplete, ⟨result, out⟩, hresult, rfl, hok, hout⟩ := hrun
  obtain rfl : out = ([9, 9, 9, 9], -2147483648, 1) := hout
  refine ⟨dc, hrun, hcomplete, ?_, fun hlegal => absurd hlegal.1 (by decide)⟩
  cases result with
  | error err => cases hok
  | ok _ => exact hresult

end nettle.rs
