-- What one sender puts into the tunnel: block by block, packets that a
-- receiver can tell by their index, whole blocks and an open one at the end.
import Nettle.EncoderBlocks
import Nettle.RsRestore

open nettle.nt_fec nettle.rs

namespace nettle.nt_rs_fec

/-! ## The sender -/

/-- One call for each message, and all packets in the order in which they are emitted. -/
def send_all : nt_rs_fec_t → idgen_t → List (List UInt8) → Option (List packet)
  | _, _, [] => some []
  | fec, idgen, input :: inputs =>
    match nt_rs_fec_encode fec idgen input [] (offer fun _ => 0) with
    | none => none
    | some (_, fec, idgen, sent) => (send_all fec idgen inputs).map (sent ++ ·)

/-- The id of block `b` of a sender that drew this one first. -/
def sent_id (first : UInt32) (b : Nat) : UInt32 := first + UInt32.ofNat b

/-- The blocks of a sender with their packets, the open one last. -/
def sent_blocks (N K D : Nat) (first : UInt32) (inputs : List (List UInt8)) :
    List (List packet) :=
  (List.range (inputs.length / K + 1)).map fun b =>
    block_packets (rs_init N K D) (sent_id first b) (block_of K inputs b)

theorem send_all_placed {c : config} (hp : Params c.N.toNat c.K.toNat) {inputs : List (List UInt8)}
    (hsize : ∀ input ∈ inputs, input.length ≤ c.max_data_size) (first : UInt32) (k : Nat)
    (rest : List (List UInt8)) (hrest : inputs.drop k = rest) {fec : nt_rs_fec_t}
    (h : Placed c.N.toNat c.K.toNat c.max_data_size (sent_id first) inputs k fec)
    {idgen : idgen_t} (hidgen : idgen = sent_id first (k / c.K.toNat + 1)) :
    send_all fec idgen rest =
      some ((List.range' k rest.length).map (call_of c (sent_id first) inputs)).flatten := by
  induction rest generalizing k fec idgen with
  | nil => rfl
  | cons input rest ih =>
    have hlt : k < inputs.length := by
      rw [← Nat.not_le, ← List.drop_eq_nil_iff, hrest]
      exact List.cons_ne_nil _ _
    rw [List.drop_eq_getElem_cons hlt, List.cons.injEq] at hrest
    obtain ⟨rfl, hrest⟩ := hrest
    have hin : inputs[k]? = some inputs[k] := List.getElem?_eq_getElem hlt
    obtain ⟨err, fec', idgen', hcall, hnext⟩ := encode_placed hp h hin
      (hsize _ (List.getElem_mem hlt)) (fun _ => 0) idgen
    rw [until_error_ok] at hcall
    have hafter : Placed c.N.toNat c.K.toNat c.max_data_size (sent_id first) inputs (k + 1) fec' ∧
        idgen' = sent_id first ((k + 1) / c.K.toNat + 1) := by
      rcases hnext with ⟨hlast, -, hgen, hplaced⟩ | ⟨-, herr, -⟩ | ⟨hmid, hgen, hplaced⟩
      · rw [(div_last hlast).1] at hplaced ⊢
        refine ⟨hplaced hidgen.symm, ?_⟩
        rw [hgen, hidgen, sent_id, sent_id, UInt32.add_assoc, UInt32.ofNat_add (_ + 1) 1]
        rfl
      · exact absurd rfl herr
      · rw [div_next hmid]
        exact ⟨hplaced, hgen.trans hidgen⟩
    unfold send_all
    rw [hcall]
    simp only [ih (k + 1) hrest hafter.1 hafter.2, Option.map_some, List.length_cons,
      List.range'_succ, List.map_cons, List.flatten_cons, call_of, List.getD_eq_getElem?_getD, hin,
      Option.getD_some]

/-- A sender emits its blocks one after the other. -/
theorem send_all_blocks {N K : UInt8} (hp : Params N.toNat K.toNat) {D B : Nat} {timeout : Int}
    {first idgen : idgen_t} {perf : perf_t} {fec : nt_rs_fec_t}
    (hinit : nt_rs_fec_init N K D B timeout first perf = some (fec, idgen))
    {inputs : List (List UInt8)} (hsize : ∀ input ∈ inputs, input.length ≤ D) :
    send_all fec idgen inputs = some (sent_blocks N.toNat K.toNat D first inputs).flatten := by
  obtain ⟨hfec, hidgen⟩ := nt_rs_fec_init_encoding hinit
  have hrun := send_all_placed (c := ⟨N, K, D, B, timeout, perf⟩) hp hsize first 0 inputs rfl
    (by simpa [Placed, messages_before, sent_id] using hfec)
    (by simpa [sent_id] using hidgen)
  rw [hrun, ← List.range_eq_range', calls_are_blocks (c := ⟨N, K, D, B, timeout, perf⟩) hp.pos
    (sent_id first) le_rfl, List.take_length]
  rfl

/-! ## Genuine packets -/

/-- Packet `i` of a block that has these messages so far: one of them, or a redundant payload of
the whole block. -/
def Genuine (rs : rs_t) (messages : List (List UInt8)) (i : Nat) (payload : List UInt8) : Prop :=
  i < messages.length ∧ payload = messages.getD i [] ∨
    messages.length = rs.K ∧ rs.K ≤ i ∧ i < rs.N ∧ payload = redundant rs messages (i - rs.K)

theorem genuine_of_getElem {rs : rs_t} {block_id : UInt32} {messages : List (List UInt8)} {i : Nat}
    {p : packet} (h : (block_packets rs block_id messages)[i]? = some p) :
    ∃ payload, p = packet_at rs block_id i payload ∧ Genuine rs messages i payload := by
  rw [block_packets] at h
  rcases Nat.lt_or_ge i messages.length with hlt | hge
  · rw [List.getElem?_append_left (by rwa [List.length_mapIdx]), List.getElem?_mapIdx,
      List.getElem?_eq_getElem hlt, Option.map_some, Option.some.injEq] at h
    exact ⟨messages[i], h.symm, Or.inl ⟨hlt, by rw [List.getD_eq_getElem _ _ hlt]⟩⟩
  · rw [List.getElem?_append_right (by rwa [List.length_mapIdx]), List.length_mapIdx] at h
    split at h
    · next hfull =>
      rw [redundant_packets, List.getElem?_map] at h
      obtain ⟨r, hr, rfl⟩ := Option.map_eq_some_iff.mp h
      obtain ⟨hlt, rfl⟩ := List.getElem?_eq_some_iff.mp hr
      rw [List.length_range, T_SIZE] at hlt
      rw [List.getElem_range, hfull, Nat.add_sub_cancel' (by omega)]
      exact ⟨_, rfl, Or.inr ⟨hfull, by omega, by omega, rfl⟩⟩
    · cases h

/-- The messages of a block, an open one filled up with empty messages. -/
def padded (rs : rs_t) (messages : List (List UInt8)) : List (List UInt8) :=
  messages ++ List.replicate (rs.K - messages.length) []

section

variable {N K D : Nat} {messages : List (List UInt8)}

theorem block_padded (hlen : messages.length ≤ K)
    (hsize : ∀ message ∈ messages, message.length ≤ D) :
    Block (rs_init N K D) (padded (rs_init N K D) messages) := by
  refine ⟨?_, fun message hmem => ?_⟩
  · rw [padded, List.length_append, List.length_replicate, rs_init_K]
    omega
  · rcases List.mem_append.mp hmem with hmem | hmem
    · exact hsize message hmem
    · rw [List.eq_of_mem_replicate hmem]
      exact Nat.zero_le D

theorem getD_padded (i : Nat) :
    (padded (rs_init N K D) messages).getD i [] = messages.getD i [] := by
  rw [padded]
  rcases Nat.lt_or_ge i messages.length with hlt | hge
  · rw [List.getD_append _ _ _ _ hlt]
  · rw [List.getD_append_right _ _ _ _ hge, in_place.getD_replicate, List.getD_eq_default _ _ hge]

/-- A genuine packet is what the codec has at its degree. -/
theorem payload_of_genuine (hp : Params N K) (hlen : messages.length ≤ K) {i : Nat}
    {payload : List UInt8} (h : Genuine (rs_init N K D) messages i payload) :
    i < N ∧ payload = payload_at (rs_init N K D) (padded (rs_init N K D) messages) (N - 1 - i) := by
  have hlt := hp.lt
  rcases h with ⟨hi, rfl⟩ | ⟨hfull, hge, hi, rfl⟩
  · have hraw : IS_RAW (rs_init N K D) (N - 1 - i) = true := by
      rw [IS_RAW_init, decide_eq_true_eq]
      omega
    refine ⟨by omega, ?_⟩
    rw [payload_at, if_pos hraw, rs_init_N, show N - 1 - (N - 1 - i) = i by omega, getD_padded]
  · rw [rs_init_K] at hfull hge
    rw [rs_init_N] at hi
    have hraw : ¬IS_RAW (rs_init N K D) (N - 1 - i) = true := by
      rw [IS_RAW_init, decide_eq_true_eq]
      omega
    refine ⟨hi, ?_⟩
    rw [payload_at, if_neg hraw, T_SIZE_init, show N - K - 1 - (N - 1 - i) = i - K by omega, padded,
      rs_init_K, hfull, Nat.sub_self]
    simp

end

end nettle.nt_rs_fec
