-- A tunnel that delivers: as long as the buffers suffice and no packet is too
-- late, the interleaved blocks do not disturb each other, and each hands over
-- its messages once.
import Nettle.BlockAlone
import Nettle.TunnelSoundness

open in_place nettle.nt_fec nettle.rs

namespace nettle.nt_rs_fec

/-! ## Blocks side by side -/

/-- The shelf while every block keeps its buffer: `touched` are the buffers of blocks of which
packets came, each with the degrees that the block by itself would have; `untouched` are blank. -/
structure Arranged (N K D : Nat) (content : UInt32 → List (List UInt8)) (ids : List UInt32)
    (clocks : List Int) (got : UInt32 → List Nat) (touched untouched : shelf) : Prop where
  buffer : ∀ s ∈ touched, OfBlock N K D (content s.2.block_id) (got s.2.block_id) s.2.buffer
  clock : ∀ s ∈ touched, s.2.timestamp ∈ clocks
  expected : ∀ s ∈ touched, s.2.block_id ∈ ids
  blank : ∀ s ∈ untouched, s.2 = fresh_buffer (rs_init N K D) s.2.block_id
  nothing : ∀ id ∈ ids, id ∉ shelf_ids touched → got id = []

section

variable {N K D B : Nat} {timeout : Int} {content : UInt32 → List (List UInt8)}
  {ids : List UInt32} {clocks : List Int} {got : UInt32 → List Nat} {touched untouched : shelf}

/-- The buffer of a block comes to the front and gets these degrees. -/
theorem Arranged.feed (h : Arranged N K D content ids clocks got touched untouched)
    {id : UInt32} (hid : id ∈ ids) {touched' untouched' : shelf} (htouched : touched' ⊆ touched)
    (hleft : ∀ s ∈ touched, s.2.block_id ≠ id → s ∈ touched')
    (hother : ∀ s ∈ touched', s.2.block_id ≠ id) (huntouched : untouched' ⊆ untouched)
    (place : Nat) {decode_buffer : decode_buffer_t} {ds : List Nat}
    (hblock : decode_buffer.block_id = id)
    (hbuffer : OfBlock N K D (content id) ds decode_buffer.buffer)
    (hclock : decode_buffer.timestamp ∈ clocks) :
    Arranged N K D content ids clocks (Function.update got id ds)
      ((place, decode_buffer) :: touched') untouched' := by
  refine ⟨fun s hs => ?_, fun s hs => ?_, fun s hs => ?_, fun s hs => h.blank s (huntouched hs),
    fun id' hid' hnot => ?_⟩
  · rcases List.mem_cons.mp hs with rfl | hs
    · rw [hblock, Function.update_self]
      exact hbuffer
    · rw [Function.update_of_ne (hother s hs)]
      exact h.buffer s (htouched hs)
  · rcases List.mem_cons.mp hs with rfl | hs
    · exact hclock
    · exact h.clock s (htouched hs)
  · rcases List.mem_cons.mp hs with rfl | hs
    · exact hblock ▸ hid
    · exact h.expected s (htouched hs)
  · rw [shelf_ids, List.map_cons, List.mem_cons, not_or, hblock] at hnot
    rw [Function.update_of_ne hnot.1]
    refine h.nothing id' hid' fun hmem => hnot.2 ?_
    obtain ⟨s, hs, rfl⟩ := List.mem_map.mp hmem
    exact List.mem_map_of_mem (hleft s hs hnot.1)

/-- As long as there are buffers for all blocks and no packet is late, a packet finds its block
complete, or the buffer of its block with all that came of it. -/
theorem select_arranged {fec : nt_rs_fec_t}
    (hshelf : Shelved N K D B timeout fec (touched ++ untouched))
    (h : Arranged N K D content ids clocks got touched untouched) (hK : 1 ≤ K)
    (hids : ids.dedup.length ≤ B) (hclocks : ∀ c ∈ clocks, ∀ c' ∈ clocks, c - c' ≤ timeout)
    {id : UInt32} (hid : id ∈ ids) {current : Int} (hcurrent : current ∈ clocks) :
    (∃ fec' touched', select_decode_buffer fec id current = some (fec', .error 0) ∧
        (got id).length = K ∧ Shelved N K D B timeout fec' (touched' ++ untouched) ∧
        Arranged N K D content ids clocks got touched' untouched) ∨
      ∃ fec' s touched' untouched', select_decode_buffer fec id current = some (fec', .ok s.1) ∧
        Shelved N K D B timeout fec' (s :: (touched' ++ untouched')) ∧ s.2.block_id = id ∧
        OfBlock N K D (content id) (got id) s.2.buffer ∧ (got id).length < K ∧
        touched' ⊆ touched ∧ untouched' ⊆ untouched ∧
        (∀ t ∈ touched, t.2.block_id ≠ id → t ∈ touched') ∧
        (got id = [] ∨ s.2.timestamp ∈ clocks) := by
  by_cases htouched : id ∈ shelf_ids touched
  · obtain ⟨s, hs, hblock⟩ := List.mem_map.mp htouched
    have hbuffer := h.buffer s hs
    have hcount := hshelf.count s (List.mem_append_left _ hs)
    rw [hblock] at hbuffer
    rw [hbuffer.marked.count] at hcount
    obtain ⟨newer, older, rfl⟩ := List.append_of_mem hs
    have hperm : (newer ++ s :: older).Perm (s :: (newer ++ older)) := List.perm_middle
    rw [List.append_assoc, List.cons_append] at hshelf
    obtain ⟨fec', hselect, hfront, -⟩ := select_hit hshelf hblock current
    have hrecent : current - s.2.timestamp ≤ timeout :=
      hclocks current hcurrent _ (h.clock s hs)
    rw [if_pos hrecent, ← List.append_assoc] at hfront
    simp only [hrecent, true_and, hbuffer.marked.count] at hselect
    have hleft : ∀ t ∈ newer ++ s :: older, t.2.block_id ≠ id → t ∈ newer ++ older :=
      fun t ht hne => (List.mem_cons.mp (hperm.mem_iff.mp ht)).resolve_left
        fun heq => hne (heq ▸ hblock)
    have hrest : newer ++ older ⊆ newer ++ s :: older := fun t ht =>
      hperm.mem_iff.mpr (List.mem_cons_of_mem s ht)
    by_cases hfull : (got id).length = K
    · rw [if_pos hfull] at hselect
      have hother : ∀ t ∈ newer ++ older, t.2.block_id ≠ id := by
        have hnodup := hfront.nodup_ids
        rw [shelf_ids, List.map_cons, List.map_append] at hnodup
        intro t ht heq
        exact (List.nodup_cons.mp hnodup).1 (List.mem_append_left _
          (by rw [hblock, ← heq]; exact List.mem_map_of_mem ht))
      have hfed := h.feed hid hrest hleft hother (List.Subset.refl _) s.1 hblock hbuffer
        (h.clock s hs)
      rw [Function.update_eq_self] at hfed
      exact Or.inl ⟨fec', s :: (newer ++ older), hselect, hfull, hfront, hfed⟩
    · rw [if_neg hfull] at hselect
      exact Or.inr ⟨fec', s, newer ++ older, untouched, hselect, hfront, hblock, hbuffer,
        lt_of_le_of_ne hcount hfull, hrest, List.Subset.refl _, hleft, Or.inr (h.clock s hs)⟩
  have hnothing := h.nothing id hid htouched
  have hfresh : OfBlock N K D (content id) (got id) (fresh_buffer (rs_init N K D) id).buffer :=
    hnothing ▸ of_block_fresh N K D id (content id)
  by_cases huntouched : id ∈ shelf_ids untouched
  · obtain ⟨s, hs, hblock⟩ := List.mem_map.mp huntouched
    have hblank := h.blank s hs
    rw [hblock] at hblank
    obtain ⟨newer, older, rfl⟩ := List.append_of_mem hs
    rw [← List.append_assoc] at hshelf
    obtain ⟨fec', hselect, hfront, -⟩ := select_hit hshelf hblock current
    rw [← hblank, ite_self, List.append_assoc] at hfront
    have hroom : ¬(current - s.2.timestamp ≤ timeout ∧ s.2.buffer.count = K) := by
      rw [hblank]
      exact fun hfull => absurd hfull.2.symm (Nat.ne_of_gt hK)
    rw [if_neg hroom] at hselect
    refine Or.inr ⟨fec', s, touched, newer ++ older, hselect, hfront, hblock, hblank ▸ hfresh,
      by rw [hnothing]; exact hK, List.Subset.refl _, fun t ht => ?_, fun t ht _ => ht,
      Or.inl hnothing⟩
    exact List.perm_middle.mem_iff.mpr (List.mem_cons_of_mem s ht)
  · rcases List.eq_nil_or_concat untouched with rfl | ⟨newer, s, rfl⟩
    · have hnodup := hshelf.nodup_ids
      rw [List.append_nil] at hshelf hnodup
      have hsub : id :: shelf_ids touched ⊆ ids.dedup := by
        refine List.cons_subset.mpr ⟨List.mem_dedup.mpr hid, fun id' hid' => ?_⟩
        obtain ⟨t, ht, rfl⟩ := List.mem_map.mp hid'
        exact List.mem_dedup.mpr (h.expected t ht)
      have hle := (List.subperm_of_subset (List.nodup_cons.mpr ⟨htouched, hnodup⟩) hsub).length_le
      rw [List.length_cons, shelf_ids, List.length_map, hshelf.length_slots] at hle
      omega
    · rw [List.concat_eq_append] at hshelf huntouched h
      rw [← List.append_assoc] at hshelf
      have hnot : id ∉ shelf_ids (touched ++ newer ++ [s]) := by
        rw [List.append_assoc, shelf_ids, List.map_append, List.mem_append, not_or]
        exact ⟨htouched, huntouched⟩
      rcases select_miss hshelf hnot current with ⟨⟨-, hprogress, -⟩, -⟩ | ⟨-, fec', hselect, hfront, -⟩
      · rw [h.blank s (List.mem_append_right _ List.mem_cons_self)] at hprogress
        exact absurd hprogress (lt_irrefl 0)
      · exact Or.inr ⟨fec', (s.1, fresh_buffer (rs_init N K D) id), touched, newer, hselect, hfront,
          rfl, hfresh, by rw [hnothing]; exact hK, List.Subset.refl _,
          fun t ht => by simp [ht], fun t ht _ => ht, Or.inl hnothing⟩

/-- One call does what the block of the packet would do by itself. -/
theorem decode_arranged (hp : Params N K) (hN : N ≤ 32) (hD : D < 2 ^ 31)
    (hcontent : Contents K D content) {fec : nt_rs_fec_t}
    (hshelf : Shelved N K D B timeout fec (touched ++ untouched))
    (h : Arranged N K D content ids clocks got touched untouched)
    (hids : ids.dedup.length ≤ B) (hclocks : ∀ c ∈ clocks, ∀ c' ∈ clocks, c - c' ≤ timeout)
    {header : nt_fec_header_t} {payload : List UInt8}
    (hg : GenuineCall N K D content header payload) {id : UInt32}
    (hheader : nt_fec_header_block_id header = id) (hid : id ∈ ids)
    {current : Int} (hcurrent : current ∈ clocks) :
    ∃ fec' touched' untouched',
      nt_rs_fec_decode fec header payload current [] (record fun _ _ _ => 0) =
        some (0, fec', noted ((block_step N K (got id) header.block_index.toNat).1.map fun j =>
          (content id).getD j [])) ∧
      Shelved N K D B timeout fec' (touched' ++ untouched') ∧
      Arranged N K D content ids clocks
        (Function.update got id (block_step N K (got id) header.block_index.toNat).2)
        touched' untouched' := by
  subst hheader
  have hok : ¬(header.tag ≠ NT_RS_FEC_TAG ∨ header.N.toNat ≠ fec.rs.N ∨
      header.K.toNat ≠ fec.rs.K) := by
    rw [hshelf.rs, hg.tag, hg.code.1, hg.code.2]
    simp
  unfold nt_rs_fec_decode
  rw [if_neg hok]
  rcases select_arranged hshelf h hp.pos hids hclocks hid hcurrent with
    ⟨fec', touched', hselect, hfull, hshelf', h'⟩ |
    ⟨fec₁, s, touched', untouched', hselect, hfront, hblock, hbuffer, hroom, htouched, huntouched,
      hleft, hclock⟩
  · simp only [hselect, Option.bind_eq_bind, Option.bind_some]
    have hstep : block_step N K (got (nt_fec_header_block_id header)) header.block_index.toNat =
        ([], got (nt_fec_header_block_id header)) := if_pos (Or.inl hfull)
    rw [hstep, Function.update_eq_self]
    exact ⟨fec', touched', untouched, rfl, hshelf', h'⟩
  · simp only [hselect, Option.bind_eq_bind, Option.bind_some]
    have hother : ∀ t ∈ touched', t.2.block_id ≠ nt_fec_header_block_id header := by
      have hnodup := hfront.nodup_ids
      rw [shelf_ids, List.map_cons, List.map_append] at hnodup
      intro t ht heq
      exact (List.nodup_cons.mp hnodup).1 (List.mem_append_left _
        (by rw [hblock, ← heq]; exact List.mem_map_of_mem ht))
    obtain ⟨hlen, hsize⟩ := hcontent (nt_fec_header_block_id header)
    rcases rs_decode_genuine hp hN hlen hsize hbuffer hroom hg.payload with
      ⟨hmem, hdecode⟩ | ⟨hnew, dc', n, hdecode, hof', hzero, hlast⟩
    · have hstep : block_step N K (got (nt_fec_header_block_id header)) header.block_index.toNat =
          ([], got (nt_fec_header_block_id header)) := if_pos (Or.inr hmem)
      obtain ⟨fec', hfeed, hshelf', -⟩ := feed_refused hfront hdecode current [] (record fun _ _ _ => 0)
      have hclock' := hclock.resolve_left (List.ne_nil_of_mem hmem)
      rw [hstep]
      exact ⟨fec', s :: touched', untouched', hfeed, hshelf',
        h.feed hid htouched hleft hother huntouched _ hblock hbuffer hclock'⟩
    · have hstep : block_step N K (got (nt_fec_header_block_id header)) header.block_index.toNat =
          (brought N K (got (nt_fec_header_block_id header)) header.block_index.toNat,
            (N - 1 - header.block_index.toNat) :: got (nt_fec_header_block_id header)) :=
        if_neg (not_or.mpr ⟨hroom.ne, hnew⟩)
      have hcount : dc'.count ≤ K := by
        rw [hof'.marked.count, List.length_cons]
        exact hroom
      obtain ⟨fec', hfeed, hshelf', -⟩ := feed_accepted hfront hdecode hcount current []
        (record fun _ _ _ => 0)
      rw [deliver_genuine hp hN hD hlen hsize hg.payload hof' hroom hzero hlast,
        hand_over_all] at hfeed
      rw [hstep]
      exact ⟨fec', (s.1, { s.2 with buffer := dc', timestamp := current }) :: touched', untouched',
        hfeed, hshelf', h.feed hid htouched hleft hother huntouched _ hblock hof' hcurrent⟩

end

/-! ## Runs of the receiver -/

/-- One call for each arrival, which names a block, the index of its packet there and the clock
value; noted are the block, the value of the call and what was handed over. -/
def arrivals_run (blocks : List (List packet)) : nt_rs_fec_t → List (Nat × Nat × Int) →
    Option (List (Nat × error_t × List (List UInt8 × Int)))
  | _, [] => some []
  | fec, (b, i, clock) :: arrivals => do
    let packets ← blocks[b]?
    let (header, payload) ← packets[i]?
    let (err, fec, seen) ← nt_rs_fec_decode fec header payload clock [] (record fun _ _ _ => 0)
    let log ← arrivals_run blocks fec arrivals
    return (b, err, seen) :: log

/-- The sender emitted the packet that arrives. -/
def Emitted (blocks : List (List packet)) (a : Nat × Nat × Int) : Prop :=
  ∃ packets p, blocks[a.1]? = some packets ∧ packets[a.2.1]? = some p

/-- What was handed over for the packets of block `b`. -/
def delivered (b : Nat) (log : List (Nat × error_t × List (List UInt8 × Int))) :
    List (List UInt8 × Int) :=
  ((entries_of b log).map Prod.snd).flatten

/-- No call fails, no message is handed over twice, and of a block of which K different packets
arrived each message is handed over. -/
structure Delivers (K : Nat) (inputs : List (List UInt8)) (arrivals : List (Nat × Nat × Int))
    (log : List (Nat × error_t × List (List UInt8 × Int))) : Prop where
  blocks : log.map Prod.fst = arrivals.map Prod.fst
  ok : ∀ entry ∈ log, entry.2.1 = 0
  once : ∀ b, List.Subperm (delivered b log) (noted (block_of K inputs b))
  whole : ∀ b, K ≤ ((entries_of b arrivals).map Prod.fst).dedup.length →
    (block_of K inputs b).length = K ∧ (delivered b log).Perm (noted (block_of K inputs b))

/-- There are buffers for all ids that arrive, no two packets are too far apart in time, and no
two blocks that arrive share an id. -/
structure Timely (B : Nat) (timeout : Int) (first : UInt32) (arrivals : List (Nat × Nat × Int)) :
    Prop where
  few : (arrivals.map fun a => sent_id first a.1).dedup.length ≤ B
  in_time : ∀ a ∈ arrivals, ∀ a' ∈ arrivals, a'.2.2 - a.2.2 ≤ timeout
  apart : ∀ a ∈ arrivals, ∀ a' ∈ arrivals, sent_id first a.1 = sent_id first a'.1 → a.1 = a'.1

section

variable {N K : UInt8} {D B : Nat} {timeout : Int} {first : UInt32} {inputs : List (List UInt8)}

theorem emitted_packet (hp : Params N.toNat K.toNat) {b i : Nat} {clock : Int}
    (h : Emitted (sent_blocks N.toNat K.toNat D first inputs) (b, i, clock)) :
    ∃ packets payload, (sent_blocks N.toNat K.toNat D first inputs)[b]? = some packets ∧
      packets[i]? = some (packet_at (rs_init N.toNat K.toNat D) (sent_id first b) i payload) ∧
      Genuine (rs_init N.toNat K.toNat D) (block_of K.toNat inputs b) i payload ∧ i < N.toNat := by
  obtain ⟨packets, p, hpackets, hi⟩ := h
  have hblock := hpackets
  rw [sent_blocks, List.getElem?_map] at hblock
  obtain ⟨b', hb', rfl⟩ := Option.map_eq_some_iff.mp hblock
  obtain ⟨hlt, rfl⟩ := List.getElem?_eq_some_iff.mp hb'
  rw [List.getElem_range] at hi hpackets
  obtain ⟨payload, rfl, hg⟩ := genuine_of_getElem hi
  exact ⟨_, payload, hpackets, hi, hg, (payload_of_genuine hp (List.length_take_le _ _) hg).1⟩

theorem emitted_raw {K : Nat} (N D : Nat) (first : UInt32) {inputs : List (List UInt8)} {b i : Nat}
    (hb : b ≤ inputs.length / K) (hi : i < (block_of K inputs b).length) :
    ∃ packets, (sent_blocks N K D first inputs)[b]? = some packets ∧
      packets[i]? = some (packet_at (rs_init N K D) (sent_id first b) i
        ((block_of K inputs b).getD i [])) := by
  refine ⟨block_packets (rs_init N K D) (sent_id first b) (block_of K inputs b), ?_, ?_⟩
  · rw [sent_blocks, List.getElem?_map, List.getElem?_range (Nat.lt_succ_of_le hb), Option.map_some]
  · rw [block_packets, List.getElem?_append_left (by rwa [List.length_mapIdx]),
      List.getElem?_mapIdx, List.getElem?_eq_getElem hi, Option.map_some,
      List.getD_eq_getElem _ _ hi]

/-- Interleaved arrivals are handed over as if each block came alone; `home` tells which block an
id stands for. -/
theorem arrivals_run_blocks (hp : Params N.toNat K.toNat) (hN : N.toNat ≤ 32) (hD : D < 2 ^ 31)
    (hsize : ∀ input ∈ inputs, input.length ≤ D) {ids : List UInt32} {clocks : List Int}
    (hids : ids.dedup.length ≤ B) (hclocks : ∀ c ∈ clocks, ∀ c' ∈ clocks, c - c' ≤ timeout)
    {home : UInt32 → Nat} (arrivals : List (Nat × Nat × Int))
    (ha : ∀ a ∈ arrivals, Emitted (sent_blocks N.toNat K.toNat D first inputs) a ∧
      sent_id first a.1 ∈ ids ∧ a.2.2 ∈ clocks ∧ home (sent_id first a.1) = a.1)
    {fec : nt_rs_fec_t} {got : UInt32 → List Nat} {touched untouched : shelf}
    (hshelf : Shelved N.toNat K.toNat D B timeout fec (touched ++ untouched))
    (h : Arranged N.toNat K.toNat D (fun id => block_of K.toNat inputs (home id)) ids clocks got
      touched untouched) :
    ∃ log, arrivals_run (sent_blocks N.toNat K.toNat D first inputs) fec arrivals = some log ∧
      log.map Prod.fst = arrivals.map Prod.fst ∧
      ∀ b, home (sent_id first b) = b → entries_of b log =
        (block_run N.toNat K.toNat ((entries_of b arrivals).map Prod.fst)
          (got (sent_id first b))).map fun js =>
            (0, noted (js.map fun j => (block_of K.toNat inputs b).getD j [])) := by
  induction arrivals generalizing fec got touched untouched with
  | nil => exact ⟨[], rfl, rfl, fun b hb => rfl⟩
  | cons a arrivals ih =>
    obtain ⟨b, i, clock⟩ := a
    obtain ⟨hemitted, hid, hcurrent, hhome⟩ := ha _ List.mem_cons_self
    simp only at hid hcurrent hhome
    obtain ⟨packets, payload, hpackets, hi, hg, hlt⟩ := emitted_packet hp hemitted
    have hcontent : Contents K.toNat D fun id => block_of K.toNat inputs (home id) := fun _ =>
      ⟨List.length_take_le _ _, fun message hmem =>
        hsize message (List.mem_of_mem_drop (List.mem_of_mem_take hmem))⟩
    have hcall := genuine_call_packet_at (fun id => block_of K.toNat inputs (home id))
      (by rw [hhome]) (sent_id first b) hlt hg
    have hindex := block_index_packet_at (rs_init N.toNat K.toNat D) (sent_id first b) (i := i)
      (by have := N.toNat_lt; omega) payload
    obtain ⟨fec', touched', untouched', hdecode, hshelf', h'⟩ := decode_arranged hp hN hD hcontent
      hshelf h hids hclocks hcall (block_id_set _ _) hid hcurrent
    change nt_rs_fec_decode fec
      (packet_at (rs_init N.toNat K.toNat D) (sent_id first b) i payload).1
      (packet_at (rs_init N.toNat K.toNat D) (sent_id first b) i payload).2 _ _ _ = _ at hdecode
    change (nt_fec_header_set_block_id (packet_at _ (sent_id first b) i payload).1
      (sent_id first b)).block_index.toNat = i at hindex
    simp only [hindex, hhome] at hdecode h'
    obtain ⟨log, hlog, hblocks, hentries⟩ := ih
      (fun a' ha' => ha a' (List.mem_cons_of_mem _ ha')) hshelf' h'
    refine ⟨(b, 0, noted ((block_step N.toNat K.toNat (got (sent_id first b)) i).1.map fun j =>
      (block_of K.toNat inputs b).getD j [])) :: log, ?_, ?_, fun b' hb' => ?_⟩
    · unfold arrivals_run
      simp only [hpackets, hi, hdecode, hlog, Option.bind_eq_bind, Option.bind_some]
      rfl
    · rw [List.map_cons, List.map_cons, hblocks]
    · by_cases heq : b = b'
      · subst heq
        rw [entries_of_self, entries_of_self, hentries b hb', Function.update_self]
        rfl
      · have hne : sent_id first b' ≠ sent_id first b := fun hsame =>
          heq (by rw [← hhome, ← hb', hsame])
        rw [entries_of_ne heq, entries_of_ne heq, hentries b' hb', Function.update_of_ne hne]

end

/-- If no two blocks that arrive share an id, an id stands for a block. -/
theorem Timely.exists_home {B : Nat} {timeout : Int} {first : UInt32}
    {arrivals : List (Nat × Nat × Int)} (h : Timely B timeout first arrivals) :
    ∃ home : UInt32 → Nat, ∀ a ∈ arrivals, home (sent_id first a.1) = a.1 := by
  refine ⟨fun id => (((arrivals.find? fun a => sent_id first a.1 = id).map Prod.fst).getD 0),
    fun a ha => ?_⟩
  have hfound : (arrivals.find? fun a' => sent_id first a'.1 = sent_id first a.1).isSome := by
    rw [List.find?_isSome]
    exact ⟨a, ha, decide_eq_true rfl⟩
  obtain ⟨a', ha'⟩ := Option.isSome_iff_exists.mp hfound
  have hsame := List.find?_some ha'
  rw [decide_eq_true_eq] at hsame
  simp only
  rw [ha', Option.map_some, Option.getD_some]
  exact h.apart a' (List.mem_of_find?_eq_some ha') a ha hsame

/-- What the packets of one block hand over, if it is handed over as if the block came alone. -/
theorem delivered_block {N K : UInt8} (hp : Params N.toNat K.toNat) {D : Nat} {first : UInt32}
    {inputs : List (List UInt8)} {arrivals : List (Nat × Nat × Int)}
    (ha : ∀ a ∈ arrivals, Emitted (sent_blocks N.toNat K.toNat D first inputs) a)
    {log : List (Nat × error_t × List (List UInt8 × Int))} {b : Nat}
    (hentries : entries_of b log =
      (block_run N.toNat K.toNat ((entries_of b arrivals).map Prod.fst) []).map fun js =>
        (0, noted (js.map fun j => (block_of K.toNat inputs b).getD j []))) :
    List.Subperm (delivered b log) (noted (block_of K.toNat inputs b)) ∧
      (K.toNat ≤ ((entries_of b arrivals).map Prod.fst).dedup.length →
        (block_of K.toNat inputs b).length = K.toNat ∧
        (delivered b log).Perm (noted (block_of K.toNat inputs b))) := by
  have hemitted : ∀ i ∈ (entries_of b arrivals).map Prod.fst, i < N.toNat ∧
      (i < (block_of K.toNat inputs b).length ∨ (block_of K.toNat inputs b).length = K.toNat) := by
    intro i hi
    obtain ⟨⟨i, clock⟩, hmem, rfl⟩ := List.mem_map.mp hi
    obtain ⟨_, _, -, -, hg, hlt⟩ := emitted_packet hp (ha _ (mem_entries_of.mp hmem))
    exact ⟨hlt, hg.imp And.left And.left⟩
  have hlen : (block_of K.toNat inputs b).length ≤ K.toNat := List.length_take_le _ _
  have hdelivered : delivered b log = noted
      ((block_run N.toNat K.toNat ((entries_of b arrivals).map Prod.fst) []).flatten.map fun j =>
        (block_of K.toNat inputs b).getD j []) := by
    rw [delivered, hentries]
    simp [noted, List.map_flatten, Function.comp_def]
  obtain ⟨hnodup, hlt, hwhole⟩ := block_run_spec hp.pos hp.lt (fun i hi => (hemitted i hi).1)
    (m := (block_of K.toNat inputs b).length) (by
      rcases hlen.eq_or_lt with heq | hlt
      · exact Or.inl heq
      · exact Or.inr ⟨hlt, fun i hi => (hemitted i hi).2.resolve_right hlt.ne⟩)
  rw [hdelivered]
  refine ⟨?_, fun hmany => ?_⟩
  · have hsub := List.subperm_of_subset hnodup
      fun j hj => List.mem_range.mpr (hlt j hj)
    obtain ⟨js, hperm, hsublist⟩ := hsub
    have hpart := hsublist.map fun j => (block_of K.toNat inputs b).getD j []
    rw [map_getD_range] at hpart
    exact ⟨_, (hperm.map _).map _, hpart.map _⟩
  · obtain ⟨hfull, hperm⟩ := hwhole hmany
    have hall := hperm.map fun j => (block_of K.toNat inputs b).getD j []
    have hpieces := map_getD_range (block_of K.toNat inputs b) []
    rw [hfull] at hpieces
    rw [hpieces] at hall
    exact ⟨hfull, hall.map _⟩

/-- What each block by itself hands over makes up the delivery. -/
theorem delivers_of_blocks {N K : UInt8} (hp : Params N.toNat K.toNat) {D : Nat} {first : UInt32}
    {inputs : List (List UInt8)} {arrivals : List (Nat × Nat × Int)}
    (ha : ∀ a ∈ arrivals, Emitted (sent_blocks N.toNat K.toNat D first inputs) a)
    {log : List (Nat × error_t × List (List UInt8 × Int))}
    (hblocks : log.map Prod.fst = arrivals.map Prod.fst)
    (hentries : ∀ a ∈ arrivals, entries_of a.1 log =
      (block_run N.toNat K.toNat ((entries_of a.1 arrivals).map Prod.fst) []).map fun js =>
        (0, noted (js.map fun j => (block_of K.toNat inputs a.1).getD j []))) :
    Delivers K.toNat inputs arrivals log := by
  have hspec := fun b (hb : b ∈ arrivals.map Prod.fst) =>
    delivered_block hp ha (b := b) (by
      obtain ⟨a, hmem, rfl⟩ := List.mem_map.mp hb
      exact hentries a hmem)
  have hnone : ∀ {α : Type} {calls : List (Nat × α)} {b : Nat},
      calls.map Prod.fst = arrivals.map Prod.fst → b ∉ arrivals.map Prod.fst →
      entries_of b calls = [] := fun {α calls b} heq hb => by
    refine List.eq_nil_iff_forall_not_mem.mpr fun x hx => hb ?_
    rw [← heq]
    exact List.mem_map_of_mem (f := Prod.fst) (mem_entries_of.mp hx)
  refine ⟨hblocks, fun entry hentry => ?_, fun b => ?_, fun b hmany => ?_⟩
  · have hb : entry.1 ∈ arrivals.map Prod.fst := hblocks ▸ List.mem_map_of_mem hentry
    obtain ⟨a, hmem, heq⟩ := List.mem_map.mp hb
    have hmem' : entry.2 ∈ entries_of a.1 log := mem_entries_of.mpr (heq ▸ hentry)
    rw [hentries a hmem] at hmem'
    obtain ⟨js, -, heq'⟩ := List.mem_map.mp hmem'
    rw [← heq']
  · by_cases hb : b ∈ arrivals.map Prod.fst
    · exact (hspec b hb).1
    · rw [delivered, hnone hblocks hb]
      exact List.nil_subperm
  · by_cases hb : b ∈ arrivals.map Prod.fst
    · exact (hspec b hb).2 hmany
    · rw [hnone rfl hb] at hmany
      exact absurd hmany (Nat.not_le.mpr hp.pos)

/-- One receiver: in time and with buffers enough, it delivers what the packets allow. -/
theorem tunnel_delivers {N K : UInt8} (hp : Params N.toNat K.toNat) (hN : N.toNat ≤ 32) {D : Nat}
    (hD : D + 4 ≤ 65535) {sender_buffers : Nat} {sender_timeout : Int} {first idgen : idgen_t}
    {sender_perf : perf_t} {sender : nt_rs_fec_t}
    (hsender : nt_rs_fec_init N K D sender_buffers sender_timeout first sender_perf =
      some (sender, idgen))
    {inputs : List (List UInt8)} (hsize : ∀ input ∈ inputs, input.length ≤ D) {B : Nat}
    (hB : 2 ≤ B ∧ B ≤ 2 ^ 32) (timeout : Int) (receiver_idgen : idgen_t) (perf : perf_t) :
    ∃ receiver receiver_idgen',
      send_all sender idgen inputs =
        some (sent_blocks N.toNat K.toNat D first inputs).flatten ∧
      nt_rs_fec_init N K D B timeout receiver_idgen perf = some (receiver, receiver_idgen') ∧
      ∀ arrivals : List (Nat × Nat × Int),
        (∀ a ∈ arrivals, Emitted (sent_blocks N.toNat K.toNat D first inputs) a) →
        Timely B timeout first arrivals →
        ∃ log, arrivals_run (sent_blocks N.toNat K.toNat D first inputs) receiver arrivals =
            some log ∧ Delivers K.toNat inputs arrivals log := by
  obtain ⟨receiver, receiver_idgen', hinit, hshelf⟩ :=
    nt_rs_fec_init_shelved N K D hB timeout receiver_idgen perf
  refine ⟨receiver, receiver_idgen', send_all_blocks hp hsender hsize, hinit,
    fun arrivals ha ht => ?_⟩
  obtain ⟨home, hhome⟩ := ht.exists_home
  have harranged : Arranged N.toNat K.toNat D (fun id => block_of K.toNat inputs (home id))
      (arrivals.map fun a => sent_id first a.1) (arrivals.map fun a => a.2.2) (fun _ => []) []
      (first_shelf (rs_init N.toNat K.toNat D) B) := by
    refine ⟨nofun, nofun, nofun, fun s hs => ?_, fun _ _ _ => rfl⟩
    obtain ⟨i, -, rfl⟩ := List.mem_map.mp hs
    rfl
  obtain ⟨log, hlog, hblocks, hentries⟩ := arrivals_run_blocks hp hN (by omega) hsize
    ht.few (fun c hc c' hc' => by
      obtain ⟨a, hmem, rfl⟩ := List.mem_map.mp hc
      obtain ⟨a', hmem', rfl⟩ := List.mem_map.mp hc'
      exact ht.in_time a' hmem' a hmem) arrivals
    (fun a hmem => ⟨ha a hmem, List.mem_map_of_mem (f := fun a => sent_id first a.1) hmem,
      List.mem_map_of_mem (f := fun a => a.2.2) hmem, hhome a hmem⟩) hshelf harranged
  exact ⟨log, hlog, delivers_of_blocks hp ha hblocks fun a hmem =>
    hentries a.1 (hhome a hmem)⟩

theorem tunnel_delivers_three :
    ∃ receiver receiver_idgen',
      (nt_rs_fec_init 3 2 4 2 100 7 (fun _ => 0)).bind
        (fun s => send_all s.1 s.2 [[1], [2, 3], [4]]) =
          some (sent_blocks 3 2 4 7 [[1], [2, 3], [4]]).flatten ∧
      nt_rs_fec_init 3 2 4 2 100 0 (fun _ => 0) = some (receiver, receiver_idgen') ∧
      ∃ log, arrivals_run (sent_blocks 3 2 4 7 [[1], [2, 3], [4]]) receiver
          [(0, 1, 5), (1, 0, 5), (0, 1, 6), (0, 0, 7)] = some log ∧
        Delivers 2 [[1], [2, 3], [4]] [(0, 1, 5), (1, 0, 5), (0, 1, 6), (0, 0, 7)] log := by
  obtain ⟨sender, idgen, hsender, -⟩ := nt_rs_fec_init_shelved 3 2 4 (B := 2)
    ⟨by decide, by decide⟩ 100 7 (fun _ => 0)
  rw [hsender]
  obtain ⟨receiver, receiver_idgen', hsend, hinit, hrun⟩ := tunnel_delivers (N := 3) (K := 2)
    ⟨by decide, by decide, by decide⟩ (by decide) (D := 4) (by decide) hsender
    (by decide : ∀ input ∈ [[1], [2, 3], ([4] : List UInt8)], input.length ≤ 4) (B := 2)
    ⟨by decide, by decide⟩ 100 0 (fun _ => 0)
  refine ⟨receiver, receiver_idgen', hsend, hinit, hrun _ (fun a ha => ?_)
    ⟨by decide, by decide, by decide⟩⟩
  have hall : ∀ a ∈ [(0, 1, 5), (1, 0, 5), (0, 1, 6), ((0, 0, 7) : Nat × Nat × Int)],
      a.1 ≤ 1 ∧ a.2.1 < (block_of 2 [[1], [2, 3], [4]] a.1).length := by decide
  obtain ⟨packets, hpackets, hi⟩ := emitted_raw 3 4 7 (hall a ha).1 (hall a ha).2
  exact ⟨packets, _, hpackets, hi⟩

/-! ## Ids come again -/

/-- So many one-byte messages, and a last one that differs. -/
def repeated (n : Nat) : List (List UInt8) := List.replicate n [1] ++ [[2]]

set_option synthInstance.maxSize 256 in
theorem wrapped_run : ((nt_rs_fec_init 2 1 4 2 100 0 fun _ => 0).bind fun s =>
    (nt_rs_fec_decode s.1 (packet_at (rs_init 2 1 4) 0 0 [1]).1 [1] 1 []
        (record fun _ _ _ => 0)).bind fun r =>
      (nt_rs_fec_decode r.2.1 (packet_at (rs_init 2 1 4) 0 0 [2]).1 [2] 2 []
        (record fun _ _ _ => 0)).map fun r' => (r.1, r.2.2, r'.1, r'.2.2)) =
    some (0, [([1], 1)], 0, []) := by decide +kernel

/-- Of two blocks under one id the second is taken for the first one. -/
theorem wrapped_block_lost {n : Nat} (hn : 0 < n) (hid : sent_id 0 n = 0) :
    ∃ receiver receiver_idgen log,
      nt_rs_fec_init 2 1 4 2 100 0 (fun _ => 0) = some (receiver, receiver_idgen) ∧
      (∀ a ∈ [(0, 0, 1), (n, 0, (2 : Int))], Emitted (sent_blocks 2 1 4 0 (repeated n)) a) ∧
      arrivals_run (sent_blocks 2 1 4 0 (repeated n)) receiver [(0, 0, 1), (n, 0, 2)] = some log ∧
      ¬Delivers 1 (repeated n) [(0, 0, 1), (n, 0, 2)] log := by
  have hfirst : block_of 1 (repeated n) 0 = [[1]] := by
    obtain ⟨m, rfl⟩ := Nat.exists_eq_succ_of_ne_zero hn.ne'
    rfl
  have hlast : block_of 1 (repeated n) n = [[2]] := by
    simp [block_of, repeated]
  have hlen : n ≤ (repeated n).length / 1 := by simp [repeated]
  obtain ⟨packets, hpackets, hi⟩ := emitted_raw 2 4 0 (Nat.zero_le _)
    (i := 0) (by rw [hfirst]; decide)
  obtain ⟨packets', hpackets', hi'⟩ := emitted_raw 2 4 0 hlen (i := 0) (by rw [hlast]; decide)
  rw [hfirst] at hi
  rw [hlast, hid] at hi'
  have hrun := wrapped_run
  simp only [Option.bind_eq_some_iff, Option.map_eq_some_iff] at hrun
  obtain ⟨⟨receiver, receiver_idgen⟩, hinit, ⟨err, fec, seen⟩, hdecode, ⟨err', fec', seen'⟩, hdecode',
    heq⟩ := hrun
  simp only [Prod.mk.injEq] at heq
  obtain ⟨rfl, rfl, rfl, rfl⟩ := heq
  refine ⟨receiver, receiver_idgen, [(0, 0, [([1], 1)]), (n, 0, [])], hinit, ?_, ?_, fun h => ?_⟩
  · rintro a ha
    rcases List.mem_cons.mp ha with rfl | ha
    · exact ⟨packets, _, hpackets, hi⟩
    · rw [List.mem_singleton.mp ha]
      exact ⟨packets', _, hpackets', hi'⟩
  · have hdecode₁ : nt_rs_fec_decode receiver (packet_at (rs_init 2 1 4) (sent_id 0 0) 0 [1]).1
        (packet_at (rs_init 2 1 4) (sent_id 0 0) 0 [1]).2 1 [] (record fun _ _ _ => 0) =
          some (0, fec, [([1], 1)]) := hdecode
    have hdecode₂ : nt_rs_fec_decode fec (packet_at (rs_init 2 1 4) 0 0 [2]).1
        (packet_at (rs_init 2 1 4) 0 0 [2]).2 2 [] (record fun _ _ _ => 0) =
          some (0, fec', []) := hdecode'
    simp only [arrivals_run, hpackets, hi, hpackets', hi', List.getD_cons_zero, hdecode₁, hdecode₂,
      Option.bind_eq_bind, Option.bind_some]
    rfl
  · have hmine : entries_of n [(0, 0, (1 : Int)), (n, 0, 2)] = [(0, 2)] := by
      rw [entries_of_ne hn.ne, entries_of_self, entries_of_nil]
    have hwhole := (h.whole n (by rw [hmine]; decide)).2
    rw [delivered, entries_of_ne hn.ne, entries_of_self, entries_of_nil, hlast] at hwhole
    exact absurd hwhole.length_eq (by decide)

/-- After 2^32 blocks the ids come again, and a block is lost although a packet for each of its
messages arrives, in time and with buffers enough. -/
theorem the_next_life_of_an_id_is_lost :
    ∃ sender idgen receiver receiver_idgen log,
      nt_rs_fec_init 2 1 4 2 100 0 (fun _ => 0) = some (sender, idgen) ∧
      send_all sender idgen (repeated (2 ^ 32)) =
        some (sent_blocks 2 1 4 0 (repeated (2 ^ 32))).flatten ∧
      nt_rs_fec_init 2 1 4 2 100 0 (fun _ => 0) = some (receiver, receiver_idgen) ∧
      (∀ a ∈ [(0, 0, 1), (2 ^ 32, 0, (2 : Int))],
        Emitted (sent_blocks 2 1 4 0 (repeated (2 ^ 32))) a) ∧
      ([(0, 0, 1), (2 ^ 32, 0, (2 : Int))].map fun a => sent_id 0 a.1).dedup.length ≤ 2 ∧
      arrivals_run (sent_blocks 2 1 4 0 (repeated (2 ^ 32))) receiver
        [(0, 0, 1), (2 ^ 32, 0, 2)] = some log ∧
      ¬Delivers 1 (repeated (2 ^ 32)) [(0, 0, 1), (2 ^ 32, 0, 2)] log := by
  obtain ⟨receiver, receiver_idgen, log, hinit, hemitted, hrun, hnot⟩ :=
    wrapped_block_lost (n := 2 ^ 32) (by decide) (by decide)
  have hsize : ∀ input ∈ repeated (2 ^ 32), input.length ≤ 4 := by
    intro input hmem
    rcases List.mem_append.mp hmem with hmem | hmem
    · rw [List.eq_of_mem_replicate hmem]
      decide
    · rw [List.mem_singleton.mp hmem]
      decide
  exact ⟨receiver, receiver_idgen, receiver, receiver_idgen, log, hinit,
    send_all_blocks (N := 2) (K := 1) ⟨by decide, by decide, by decide⟩ hinit hsize, hinit, hemitted,
    by decide, hrun, hnot⟩

end nettle.nt_rs_fec
