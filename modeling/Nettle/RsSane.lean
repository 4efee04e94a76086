-- What a decode context of rs.c keeps whatever packets it is fed: its marks,
-- its rows of bytes and a list of erasures that never divides by zero.
import Nettle.RsBlock

open binary_field erasure_code in_place nettle.galois nettle.rscode

namespace nettle.rs

/-- A context after packets at these degrees, with any contents. -/
structure Sane (rs : rs_t) (ds : List Nat) (dc : rs_dc_t) : Prop where
  marked : Marked rs ds dc
  le : ds.length ≤ rs.K
  len : dc.syndromes.length = RS_MAX_ENCODED_SIZE rs.max_data_size
  row : ∀ c < RS_MAX_ENCODED_SIZE rs.max_data_size,
    (dc.syndromes.getD c []).length = T_SIZE rs ∧ Words 8 (dc.syndromes.getD c [])
  num : dc.erasure_num ≤ T_SIZE rs
  raw_num : dc.raw_erasure_num ≤ dc.erasure_num
  nodup : (dc.erasure_degrees.take dc.erasure_num).Nodup
  lt : ∀ d ∈ dc.erasure_degrees.take dc.erasure_num, d < rs.N

/-- The symbol that the code has for an erased degree in a column with these syndromes: it solves
the equation that a word of the code puts on it. -/
def Restores (dc : rs_dc_t) (column index r : Nat) : Prop :=
  let others := others dc.erasure_degrees index dc.erasure_num
  let x := root 285 ^ dc.erasure_degrees.getD index 0
  residue 285 r * (x * (locator (root 285) others).eval x) =
    ∑ j ∈ Finset.range dc.erasure_num, residue 285 ((dc.syndromes.getD column []).getD j 0) *
      (locator (root 285) others).coeff j

theorem sane_reset (rs : rs_t) (dc : rs_dc_t) : Sane rs [] (rs_reset_dc rs dc) := by
  refine ⟨marked_reset rs dc, Nat.zero_le _, by simp [rs_reset_dc, zero_rows], fun c hc => ?_,
    Nat.zero_le _, le_rfl, List.nodup_nil, nofun⟩
  have hrow : (rs_reset_dc rs dc).syndromes.getD c [] = List.replicate (T_SIZE rs) 0 := by
    simp [rs_reset_dc, zero_rows, hc]
  rw [hrow]
  exact ⟨List.length_replicate, words_replicate 8 _⟩

theorem Sane.complete {rs : rs_t} {ds : List Nat} {dc : rs_dc_t} (h : Sane rs ds dc) :
    rs_is_dc_complete rs dc = some (dc.count == rs.K) := by
  rw [rs_is_dc_complete, h.marked.count, if_pos h.le]

section

variable {N K D : Nat} (hp : Params N K)

include hp

theorem sane_accept {ds : List Nat} {dc : rs_dc_t} (h : Sane (rs_init N K D) ds dc)
    (hroom : ds.length < K) {degree : Nat} (hdegree : degree < N)
    (hnew : bitmap256_isset dc.mask degree = false) (input : List UInt8) :
    Sane (rs_init N K D) (degree :: ds) (rs_accept (rs_init N K D) dc input degree) := by
  have hcode := hp.code D
  refine ⟨marked_accept h.marked hp.le hdegree hnew input, hroom, by simp [rs_accept, h.len],
    fun c hc => ?_, h.num, h.raw_num, h.nodup, h.lt⟩
  obtain ⟨hlen, hwords⟩ := h.row c hc
  simp only [rs_accept]
  rw [getD_feed_rows _ _ _ _ (by rw [h.len]; exact hc)]
  split
  · exact ⟨by rw [Code.length_decode_syndromes, hlen],
      hcode.words_decode_syndromes _ _ hlen hwords⟩
  · exact ⟨hlen, hwords⟩

/-- The erasures of a full context are degrees of the block, each listed once. -/
theorem sane_erasures {ds : List Nat} {dc : rs_dc_t} (h : Sane (rs_init N K D) ds dc)
    (hfull : ds.length = K) :
    Sane (rs_init N K D) ds (build_erasures (rs_init N K D) dc).1 ∧
      (build_erasures (rs_init N K D) dc).2 =
        (build_erasures (rs_init N K D) dc).1.raw_erasure_num := by
  have hKN : (rs_init N K D).K ≤ (rs_init N K D).N := hp.lt.le
  obtain ⟨hm, he, hnum, hsyn⟩ := build_erasures_spec h.marked hfull hKN
  have hperm := unset_perm _ hKN (build_erasures (rs_init N K D) dc).1.mask
  refine ⟨⟨hm, h.le, by rw [hsyn, h.len], by rw [hsyn]; exact h.row, ?_, ?_, ?_, ?_⟩, hnum⟩
  · rw [he.num]
    split
    · exact Nat.zero_le _
    · exact length_unset_le hm hfull hKN
  · rw [he.num]
    split
    · next hzero => rw [hzero]
    · rw [List.length_append, he.raw_num]
      exact Nat.le_add_right _ _
  · rw [he.listed]
    split
    · exact List.nodup_nil
    · exact hperm.nodup_iff.mpr (List.nodup_range.filter _)
  · rw [he.listed]
    split
    · exact nofun
    · exact fun d hd => List.mem_range.mp (List.mem_filter.mp (hperm.mem_iff.mp hd)).1

/-- One packet, whatever it is: it is refused and leaves the context as it was, or it is added.
No `ensure` fails. -/
theorem rs_decode_cases {ds : List Nat} {dc : rs_dc_t} (h : Sane (rs_init N K D) ds dc)
    (hroom : ds.length < K) (input : List UInt8) (degree : Int) :
    (∃ err, rs_decode (rs_init N K D) dc input degree = some (dc, .error err)) ∨
      ∃ dc' n is_raw, rs_decode (rs_init N K D) dc input degree = some (dc', .ok (n, is_raw)) ∧
        Sane (rs_init N K D) (degree.toNat :: ds) dc' ∧ n ≤ dc'.raw_erasure_num := by
  rcases rs_decode_error_or_new (rs_init N K D) dc input degree with hrefused |
    ⟨d, rfl, hd, hsize, hnew⟩
  · exact Or.inl hrefused
  · rw [Int.toNat_natCast]
    have hsane := sane_accept hp h hroom hd hnew input
    refine Or.inr ?_
    rw [rs_decode_new hd hsize hnew, hsane.complete, rs_accept_count, h.marked.count]
    by_cases hlast : ds.length + 1 = K
    · obtain ⟨hsane', hnum⟩ := sane_erasures hp hsane hlast
      rw [hlast, rs_init_K, beq_self_eq_true]
      exact ⟨_, _, _, rfl, hsane', hnum.le⟩
    · rw [rs_init_K, beq_false_of_ne hlast]
      exact ⟨_, _, _, rfl, hsane, Nat.zero_le _⟩

/-- The listed degrees have powers of their own. -/
theorem Sane.apart {ds : List Nat} {dc : rs_dc_t} (h : Sane (rs_init N K D) ds dc) {index : Nat}
    (hi : index < dc.erasure_num) :
    ∀ e ∈ others dc.erasure_degrees index dc.erasure_num,
      root 285 ^ dc.erasure_degrees.getD index 0 ≠ root 285 ^ e := by
  have hle := hp.le
  have hnum := h.num
  rw [← h.marked.room] at hnum
  refine Code.pow_ne_of_others (hp.code D).tables.primitive h.nodup (fun d hd => ?_) hnum hi
  have : d < N := h.lt d hd
  norm_num
  omega

/-- No restored symbol takes a division by zero, and it is the one that the code has there. -/
theorem decode_column_restores {ds : List Nat} {dc : rs_dc_t} (h : Sane (rs_init N K D) ds dc)
    (c : Nat) {index : Nat} (hi : index < dc.erasure_num) :
    ∃ s < 2 ^ 8, decode_column (rs_init N K D) dc c index = some s ∧ Restores dc c index s := by
  have hwords : Words 8 (dc.syndromes.getD c []) := by
    by_cases hc : c < RS_MAX_ENCODED_SIZE (rs_init N K D).max_data_size
    · exact (h.row c hc).2
    · rw [List.getD_eq_default _ _ (by rw [h.len]; omega)]
      exact words_replicate 8 0
  exact (hp.code D).decode_erasure_spec hwords hi (h.apart hp hi)

omit hp in
theorem restores_inj (hp : Params N K) {ds : List Nat} {dc : rs_dc_t}
    (h : Sane (rs_init N K D) ds dc) {c index r s : Nat} (hi : index < dc.erasure_num)
    (hr : r < 2 ^ 8) (hs : s < 2 ^ 8) (hres : Restores dc c index r)
    (hres' : Restores dc c index s) : r = s := by
  have hprim := (hp.code D).tables.primitive
  have := hprim.isDomain
  have := hprim.charP
  have hne := mul_ne_zero (hprim.root_pow_ne_zero (dc.erasure_degrees.getD index 0))
    (eval_locator_ne_zero (h.apart hp hi))
  exact hprim.residue_inj hr hs (mul_right_cancel₀ hne (hres.trans hres'.symm))

theorem rs_decode_result_some {ds : List Nat} {dc : rs_dc_t} (h : Sane (rs_init N K D) ds dc)
    (index size : Nat) : ∃ result, rs_decode_result (rs_init N K D) dc index size = some result := by
  unfold rs_decode_result
  by_cases hindex : index ≥ dc.raw_erasure_num
  · exact ⟨_, if_pos hindex⟩
  rw [if_neg hindex]
  split
  · exact ⟨_, rfl⟩
  have hi : index < dc.erasure_num := (not_le.mp hindex).trans_le h.raw_num
  choose symbol hlt hsymbol hrestores using fun c => decode_column_restores hp h c hi
  have hsize : ∃ decoded_size, decode_size (rs_init N K D) dc index = some decoded_size := by
    unfold decode_size
    simp only [show List.range RS_HEADER_SIZE = [0, 1, 2, 3] from rfl, List.foldlM_cons,
      List.foldlM_nil, hsymbol, Option.pure_def, Option.bind_eq_bind, Option.bind_some]
    exact ⟨_, rfl⟩
  obtain ⟨decoded_size, hsize⟩ := hsize
  simp only [hsize, Option.bind_eq_bind, Option.bind_some]
  split
  · exact ⟨_, rfl⟩
  · rw [mapM_eq_some_map _
      fun i _ => by rw [hsymbol]; rfl]
    exact ⟨_, rfl⟩

end

end nettle.rs
