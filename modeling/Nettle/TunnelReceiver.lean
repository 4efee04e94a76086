-- A decode buffer that gets the packets of one block: what it holds, and
-- what it hands to the callback, packet by packet.
import Nettle.DecoderBuffers
import Nettle.TunnelPackets

open nettle.nt_fec nettle.rs

namespace nettle.nt_rs_fec

/-! ## What the callback notes -/

/-- A callback that notes every payload with its size, and answers as it likes. -/
def record (answer : List (List UInt8 × Int) → List UInt8 → Int → error_t)
    (seen : List (List UInt8 × Int)) (payload : List UInt8) (size : Int) :
    error_t × List (List UInt8 × Int) :=
  (answer seen payload size, seen ++ [(payload, size)])

/-- Messages with their sizes. -/
def noted (messages : List (List UInt8)) : List (List UInt8 × Int) :=
  messages.map fun message => (message, (message.length : Int))

/-- Messages handed over one after the other, up to the first that is refused. -/
def hand_over (answer : List (List UInt8 × Int) → List UInt8 → Int → error_t) :
    List (List UInt8) → List (List UInt8 × Int) → error_t × List (List UInt8 × Int)
  | [], seen => (0, seen)
  | message :: messages, seen =>
    let (err, seen) := record answer seen message message.length
    if err ≠ 0 then (err, seen) else hand_over answer messages seen

section

variable (answer : List (List UInt8 × Int) → List UInt8 → Int → error_t)

theorem hand_over_cons (message : List UInt8) (messages : List (List UInt8))
    (seen : List (List UInt8 × Int)) :
    hand_over answer (message :: messages) seen =
      if answer seen message message.length ≠ 0 then
        (answer seen message message.length, seen ++ [(message, (message.length : Int))])
      else hand_over answer messages (seen ++ [(message, (message.length : Int))]) := rfl

theorem hand_over_prefix (messages : List (List UInt8)) (seen : List (List UInt8 × Int)) :
    ∃ handed, handed <+: messages ∧ (hand_over answer messages seen).2 = seen ++ noted handed := by
  induction messages generalizing seen with
  | nil => exact ⟨[], List.nil_prefix, (List.append_nil seen).symm⟩
  | cons message messages ih =>
    rw [hand_over_cons]
    by_cases herr : answer seen message message.length = 0
    · obtain ⟨handed, hbegins, heq⟩ := ih (seen ++ [(message, (message.length : Int))])
      refine ⟨message :: handed, (List.prefix_cons_inj message).mpr hbegins, ?_⟩
      simp only [herr, ne_eq, not_true_eq_false, if_false, heq, noted, List.map_cons,
        List.append_assoc, List.singleton_append]
    · refine ⟨[message], (List.prefix_cons_inj message).mpr List.nil_prefix, ?_⟩
      simp only [herr, ne_eq, not_false_eq_true, if_true]
      rfl

/-- An error is the callback's own. -/
theorem hand_over_error (messages : List (List UInt8)) (seen : List (List UInt8 × Int)) :
    (hand_over answer messages seen).1 = 0 ∨
      ∃ seen' message, (hand_over answer messages seen).1 =
        answer seen' message message.length := by
  induction messages generalizing seen with
  | nil => exact Or.inl rfl
  | cons message messages ih =>
    rw [hand_over_cons]
    by_cases herr : answer seen message message.length = 0
    · simp only [herr, ne_eq, not_true_eq_false, if_false]
      exact ih _
    · simp only [herr, ne_eq, not_false_eq_true, if_true]
      exact Or.inr ⟨seen, message, rfl⟩

theorem hand_over_all (messages : List (List UInt8)) (seen : List (List UInt8 × Int)) :
    hand_over (fun _ _ _ => 0) messages seen = (0, seen ++ noted messages) := by
  induction messages generalizing seen with
  | nil => simp [hand_over, noted]
  | cons message messages ih =>
    rw [hand_over_cons]
    simp only [ne_eq, not_true_eq_false, if_false, ih, noted, List.map_cons, List.append_assoc,
      List.singleton_append]

/-- The loop of the decoder hands over what the codec restores. -/
theorem decode_loop_hand_over {rs : rs_t} {dc : rs_dc_t} (degree : Nat → Nat)
    (messages : List (List UInt8)) (i : Nat)
    (h : ∀ k < messages.length, rs_decode_result rs dc (i + k) rs.max_data_size =
      some (.ok (messages.getD k [], (messages.getD k []).length, degree (i + k))))
    (seen : List (List UInt8 × Int)) :
    decode_loop rs dc (record answer) messages.length i seen =
      some (hand_over answer messages seen) := by
  induction messages generalizing i seen with
  | nil => rfl
  | cons message messages ih =>
    have hhead := h 0 (Nat.zero_lt_succ _)
    simp only [Nat.add_zero, List.getD_cons_zero] at hhead
    rw [List.length_cons]
    unfold decode_loop
    rw [hhead, hand_over_cons]
    simp only [record]
    by_cases herr : answer seen message message.length = 0
    · simp only [herr, ne_eq, not_true_eq_false, if_false]
      refine ih (i + 1) (fun k hk => ?_) _
      have hnext := h (k + 1) (Nat.succ_lt_succ hk)
      rwa [List.getD_cons_succ, show i + (k + 1) = i + 1 + k by omega] at hnext
    · simp only [herr, ne_eq, not_false_eq_true, if_true]

theorem deliver_hand_over {rs : rs_t} {dc : rs_dc_t} (restored : List (List UInt8))
    (hloop : ∀ seen, decode_loop rs dc (record answer) restored.length 0 seen =
      some (hand_over answer restored seen))
    (payload : List UInt8) (is_raw : Bool) (seen : List (List UInt8 × Int)) :
    deliver rs dc (record answer) payload restored.length is_raw seen =
      some (hand_over answer ((if is_raw then [payload] else []) ++ restored) seen) := by
  unfold deliver
  cases is_raw with
  | false =>
    simp only [Bool.false_eq_true, if_false, ne_eq, not_true_eq_false, hloop, List.nil_append]
  | true =>
    simp only [if_true, hloop, List.singleton_append, hand_over_cons, record]
    split <;> rfl

end

/-! ## A buffer of one block -/

/-- The context holds the packets at these degrees, all of one block with these messages so far;
while the block is open they are messages. -/
structure OfBlock (N K D : Nat) (messages : List (List UInt8)) (ds : List Nat) (dc : rs_dc_t) :
    Prop where
  marked : Marked (rs_init N K D) ds dc
  rows : Rows (rs_init N K D) (padded (rs_init N K D) messages) ds dc
  open_block : messages.length = K ∨ ∀ d ∈ ds, N - 1 - d < messages.length

theorem of_block_fresh (N K D : Nat) (block_id : UInt32) (messages : List (List UInt8)) :
    OfBlock N K D messages [] (fresh_buffer (rs_init N K D) block_id).buffer :=
  ⟨(sane_fresh _ block_id).marked, rows_reset _ _ ⟨0, bitmap256_reset, [], [], 0, 0⟩, Or.inr nofun⟩

/-- The messages that the packet at index `i` brings to light when packets at the degrees `ds`
came before: itself if it is one, and all that are missing if it is the last one needed. -/
def brought (N K : Nat) (ds : List Nat) (i : Nat) : List Nat :=
  (if i < K then [i] else []) ++ if ds.length + 1 = K then
    (List.range K).filter fun j => N - 1 - j ∉ (N - 1 - i) :: ds else []

section

variable {N K D : Nat} (hp : Params N K) {messages : List (List UInt8)} {ds : List Nat}
  {dc : rs_dc_t}

include hp

omit hp in
/-- A block of which K packets are there is whole. -/
theorem OfBlock.whole (h : OfBlock N K D messages ds dc) (hlen : messages.length ≤ K)
    (hfull : K ≤ ds.length) : messages.length = K := by
  rcases h.open_block with hwhole | hopen
  · exact hwhole
  · have hnodup : (ds.map fun d => N - 1 - d).Nodup := by
      refine (List.nodup_map_iff_inj_on (h.marked.nodup.of_map _)).mpr fun d hd e he heq => ?_
      have hd := h.marked.lt d hd
      have he := h.marked.lt e he
      simp only [rs_init_N] at hd he
      omega
    have hsub : (ds.map fun d => N - 1 - d) ⊆ List.range messages.length := by
      intro j hj
      obtain ⟨d, hd, rfl⟩ := List.mem_map.mp hj
      exact List.mem_range.mpr (hopen d hd)
    have hle := (List.subperm_of_subset hnodup hsub).length_le
    rw [List.length_map, List.length_range] at hle
    omega

omit hp in
/-- The unset degrees of the messages, read as indices. -/
theorem unset_raw_indices (hN : N ≤ 32) (hKN : K < N) (h : Marked (rs_init N K D) ds dc) :
    (unset_raw (rs_init N K D) dc.mask).map (fun d => N - 1 - d) =
      (List.range K).filter fun j => N - 1 - j ∉ ds := by
  have hclear := clear_of_le hN h.lt
  have hset : ∀ d < N, bitmap256_isset dc.mask d = decide (d ∈ ds) := fun d hd => by
    rw [h.isset, Bool.eq_iff_iff, decide_eq_true_eq, decide_eq_true_eq]
    exact ⟨hclear d hd, List.mem_map_of_mem⟩
  have hrange : (List.range' (N - K) (N - (N - K))).reverse =
      (List.range K).map fun j => N - 1 - j := by
    refine List.ext_getElem (by simp; omega) fun j hj _ => ?_
    simp only [List.length_reverse, List.length_range'] at hj
    simp only [List.getElem_reverse, List.getElem_range', List.length_range', List.getElem_map,
      List.getElem_range]
    omega
  rw [unset_raw, unset, T_SIZE_init, rs_init_N, hrange, List.filter_map, List.map_map]
  have hfilter : (List.range K).filter ((fun d => !bitmap256_isset dc.mask d) ∘ fun j => N - 1 - j) =
      (List.range K).filter fun j => N - 1 - j ∉ ds := by
    refine List.filter_congr fun j hj => ?_
    rw [Function.comp_apply, hset _ (by omega), decide_not]
  rw [hfilter]
  refine (List.map_congr_left fun j hj => ?_).trans (List.map_id _)
  have := List.mem_range.mp (List.mem_filter.mp hj).1
  simp only [Function.comp_apply, id]
  omega

/-- A genuine packet is added, or it is a duplicate. -/
theorem rs_decode_genuine (hN : N ≤ 32) (hlen : messages.length ≤ K)
    (hsize : ∀ message ∈ messages, message.length ≤ D) (h : OfBlock N K D messages ds dc)
    (hroom : ds.length < K) {i : Nat} {payload : List UInt8}
    (hg : Genuine (rs_init N K D) messages i payload) :
    (N - 1 - i ∈ ds ∧ rs_decode (rs_init N K D) dc payload ((N : Int) - 1 - i) =
        some (dc, .error .E_RS_DUPLICATE)) ∨
      N - 1 - i ∉ ds ∧ ∃ dc' n, rs_decode (rs_init N K D) dc payload ((N : Int) - 1 - i) =
          some (dc', .ok (n, decide (i < K))) ∧
        OfBlock N K D messages ((N - 1 - i) :: ds) dc' ∧
        (ds.length + 1 < K → n = 0) ∧
        (ds.length + 1 = K → n = dc'.raw_erasure_num ∧ Erasures (rs_init N K D) dc') := by
  have hlt := hp.lt
  have hpos := hp.pos
  have hb := block_padded (N := N) (K := K) hlen hsize
  obtain ⟨hi, rfl⟩ := payload_of_genuine hp hlen hg
  have hd : N - 1 - i < N := by omega
  have hdeg : (N : Int) - 1 - i = ((N - 1 - i : Nat) : Int) := by omega
  have hraw : IS_RAW (rs_init N K D) (N - 1 - i) = decide (i < K) := by
    rw [IS_RAW_init, decide_eq_decide]
    omega
  have hallowed := length_payload_at hp hb hd
  rw [hdeg]
  by_cases hmem : N - 1 - i ∈ ds
  · refine Or.inl ⟨hmem, rs_decode_duplicate hd hallowed ?_⟩
    rw [h.marked.isset, decide_eq_true_eq]
    exact List.mem_map_of_mem hmem
  · refine Or.inr ⟨hmem, ?_⟩
    have hnew : bitmap256_isset dc.mask (N - 1 - i) = false := by
      rw [h.marked.isset, decide_eq_false_iff_not]
      exact fun hslot => hmem (clear_of_le hN h.marked.lt _ hd hslot)
    obtain ⟨dc', n, hdecode, hmarked, hsyn, hzero, hlast⟩ := rs_decode_step hd hallowed hnew
      h.marked hroom hlt.le (by simp only [rs_init_N]; omega)
    rw [hraw] at hdecode
    refine ⟨dc', n, hdecode, ⟨hmarked, (rows_accept hp hb h.rows hd).of_syndromes hsyn, ?_⟩, hzero,
      hlast⟩
    rcases hg with ⟨hraw', -⟩ | ⟨hwhole, -⟩
    · refine h.open_block.imp_right fun hopen d hdmem => ?_
      rcases List.mem_cons.mp hdmem with rfl | hdmem
      · omega
      · exact hopen d hdmem
    · exact Or.inl hwhole

/-- What an accepted packet hands over: the messages that it brings to light. -/
theorem deliver_genuine (hN : N ≤ 32) (hD : D < 2 ^ 31) (hlen : messages.length ≤ K)
    (hsize : ∀ message ∈ messages, message.length ≤ D) {i : Nat} {payload : List UInt8}
    (hg : Genuine (rs_init N K D) messages i payload) {dc' : rs_dc_t} {n : Nat}
    (h : OfBlock N K D messages ((N - 1 - i) :: ds) dc') (hroom : ds.length < K)
    (hzero : ds.length + 1 < K → n = 0)
    (hlast : ds.length + 1 = K → n = dc'.raw_erasure_num ∧ Erasures (rs_init N K D) dc')
    (answer : List (List UInt8 × Int) → List UInt8 → Int → error_t)
    (seen : List (List UInt8 × Int)) :
    deliver (rs_init N K D) dc' (record answer) payload n (decide (i < K)) seen =
      some (hand_over answer ((brought N K ds i).map fun j => messages.getD j []) seen) := by
  have hb := block_padded (N := N) (K := K) hlen hsize
  have hhead : (if decide (i < K) = true then [payload] else []) =
      (if i < K then [i] else []).map fun j => messages.getD j [] := by
    by_cases hi : i < K
    · rcases hg with ⟨-, rfl⟩ | ⟨-, hge, -⟩
      · simp [hi]
      · exact absurd hge (Nat.not_le.mpr hi)
    · simp [hi]
  rw [brought, List.map_append, ← hhead]
  by_cases hfull : ds.length + 1 = K
  · obtain ⟨rfl, he⟩ := hlast hfull
    have hindices := unset_raw_indices hN hp.lt h.marked
    have hlist : (unset_raw (rs_init N K D) dc'.mask).map (fun d => messages.getD (N - 1 - d) []) =
        ((List.range K).filter fun j => N - 1 - j ∉ (N - 1 - i) :: ds).map fun j =>
          messages.getD j [] := by
      rw [← hindices, List.map_map]
      rfl
    rw [if_pos hfull, ← hlist, he.raw_num, ← List.length_map
      (f := fun d => messages.getD (N - 1 - d) [])]
    refine deliver_hand_over answer _ (fun seen => ?_) payload _ seen
    refine decode_loop_hand_over answer (fun k =>
      (unset_raw (rs_init N K D) dc'.mask).getD k 0) _ 0 (fun k hk => ?_) seen
    rw [List.length_map, ← he.raw_num] at hk
    have hperm := unset_perm_received h.marked (clear_of_le hN h.marked.lt)
    have hresult := rs_decode_result_spec hp hb hD h.marked h.rows he hfull
      (((unset_perm _ hp.lt.le dc'.mask).append_right _).trans hperm) hk
      le_rfl
    rw [Nat.zero_add, rs_init_max_data_size, hresult, getD_padded]
    rw [he.raw_num] at hk
    simp only [List.getD_eq_getElem?_getD, List.getElem?_map, List.getElem?_eq_getElem hk,
      Option.map_some, Option.getD_some]
  · rw [if_neg hfull, hzero (by omega), List.map_nil]
    exact deliver_hand_over answer [] (fun seen => rfl) payload _ seen

end

end nettle.nt_rs_fec
