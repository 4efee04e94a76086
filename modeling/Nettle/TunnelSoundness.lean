-- A tunnel with one sender and several decoders: whatever is lost, repeated,
-- reordered or late, a payload that is handed over is a message of the block
-- that the packet belongs to.
import Nettle.DecoderBuffers
import Nettle.TunnelReceiver

open nettle.nt_fec nettle.rs

namespace nettle.nt_rs_fec

/-! ## One decoder with genuine packets -/

/-- The block of each key: at most K messages that fit. -/
def Contents (K D : Nat) (content : UInt32 → List (List UInt8)) : Prop :=
  ∀ key, (content key).length ≤ K ∧ ∀ message ∈ content key, message.length ≤ D

/-- The packet is one of the block of its key. -/
structure GenuineCall (N K D : Nat) (content : UInt32 → List (List UInt8))
    (header : nt_fec_header_t) (payload : List UInt8) : Prop where
  tag : header.tag = NT_RS_FEC_TAG
  code : header.N.toNat = N ∧ header.K.toNat = K
  payload : Genuine (rs_init N K D) (content (nt_fec_header_block_id header))
    header.block_index.toNat payload

/-- Every buffer holds packets of the one block that its key names. -/
def OfBlocks (N K D : Nat) (content : UInt32 → List (List UInt8)) (slots : shelf) : Prop :=
  ∀ s ∈ slots, ∃ ds, OfBlock N K D (content s.2.block_id) ds s.2.buffer

section

variable {N K D B : Nat} {timeout : Int} {content : UInt32 → List (List UInt8)}

theorem OfBlocks.from {block_id : UInt32} {slots slots' : shelf}
    (h : OfBlocks N K D content slots)
    (hfrom : FromShelf (rs_init N K D) block_id slots slots') : OfBlocks N K D content slots' := by
  intro s hs
  rcases hfrom s hs with hold | hfresh
  · exact h s hold
  · rw [hfresh]
    exact ⟨[], of_block_fresh N K D _ _⟩

theorem of_blocks_first (N K D B : Nat) (content : UInt32 → List (List UInt8)) :
    OfBlocks N K D content (first_shelf (rs_init N K D) B) := by
  intro s hs
  obtain ⟨i, -, rfl⟩ := List.mem_map.mp hs
  exact ⟨[], of_block_fresh N K D _ _⟩

/-- What a genuine packet brings to light are messages of its block. -/
theorem mem_brought {messages : List (List UInt8)} {ds : List Nat} {i : Nat}
    {payload : List UInt8} (hg : Genuine (rs_init N K D) messages i payload)
    (hwhole : ds.length + 1 = K → messages.length = K) {j : Nat} (hj : j ∈ brought N K ds i) :
    j < messages.length := by
  rcases List.mem_append.mp hj with hj | hj
  · split at hj
    · next hi =>
      rw [List.mem_singleton.mp hj]
      rcases hg with ⟨hlt, -⟩ | ⟨-, hge, -⟩
      · exact hlt
      · exact absurd hge (Nat.not_le.mpr hi)
    · cases hj
  · split at hj
    · next hlast =>
      rw [hwhole hlast]
      exact List.mem_range.mp (List.mem_filter.mp hj).1
    · cases hj

/-- One call with a genuine packet, at any time and with any callback. -/
theorem decode_genuine (hp : Params N K) (hN : N ≤ 32) (hD : D < 2 ^ 31) (hB : 1 ≤ B)
    (hcontent : Contents K D content) {fec : nt_rs_fec_t} {slots : shelf}
    (h : Shelved N K D B timeout fec slots) (hof : OfBlocks N K D content slots)
    {header : nt_fec_header_t} {payload : List UInt8}
    (hg : GenuineCall N K D content header payload) (current : Int)
    (answer : List (List UInt8 × Int) → List UInt8 → Int → error_t)
    (seen : List (List UInt8 × Int)) :
    ∃ err fec' slots' handed,
      nt_rs_fec_decode fec header payload current seen (record answer) =
        some (err, fec', seen ++ noted handed) ∧
      Shelved N K D B timeout fec' slots' ∧ OfBlocks N K D content slots' ∧
      (∀ message ∈ handed, message ∈ content (nt_fec_header_block_id header)) ∧
      (err = 0 ∨ err = E_FEC_DECODER_BUFFER_FULL ∨
        ∃ seen' message, err = answer seen' message message.length) := by
  have hheader : ¬(header.tag ≠ NT_RS_FEC_TAG ∨ header.N.toNat ≠ fec.rs.N ∨
      header.K.toNat ≠ fec.rs.K) := by
    rw [h.rs, hg.tag, hg.code.1, hg.code.2]
    simp
  unfold nt_rs_fec_decode
  rw [if_neg hheader]
  rcases select_cases h hp.pos hB (nt_fec_header_block_id header) current with
    ⟨err, fec', slots', hselect, hshelf, hperm, herr⟩ |
    ⟨fec₁, s, rest, hselect, hshelf, hid, hroom, hfrom⟩
  · simp only [hselect, Option.bind_eq_bind, Option.bind_some]
    refine ⟨err, fec', slots', [], ?_, hshelf, fun t ht => hof t (hperm.mem_iff.mp ht), nofun,
      herr.imp_right Or.inl⟩
    rw [noted, List.map_nil, List.append_nil]
    rfl
  · simp only [hselect, Option.bind_eq_bind, Option.bind_some]
    have hof₁ := hof.from hfrom
    obtain ⟨ds, hs⟩ := hof₁ s List.mem_cons_self
    rw [hid] at hs
    rw [hs.marked.count] at hroom
    obtain ⟨hlen, hsize⟩ := hcontent (nt_fec_header_block_id header)
    rcases rs_decode_genuine hp hN hlen hsize hs hroom hg.payload with
      ⟨-, hdecode⟩ | ⟨-, dc', n, hdecode, hof', hzero, hlast⟩
    · obtain ⟨fec', hfeed, hshelf', -⟩ := feed_refused hshelf hdecode current seen (record answer)
      refine ⟨_, fec', _, [], ?_, hshelf', hof₁, nofun, Or.inl rfl⟩
      rw [hfeed, noted, List.map_nil, List.append_nil]
      rfl
    · have hcount : dc'.count ≤ K := by
        rw [hof'.marked.count, List.length_cons]
        exact hroom
      obtain ⟨fec', hfeed, hshelf', -⟩ := feed_accepted hshelf hdecode hcount current seen
        (record answer)
      rw [deliver_genuine hp hN hD hlen hsize hg.payload hof' hroom hzero hlast] at hfeed
      obtain ⟨handed, hbegins, hseen⟩ := hand_over_prefix answer
        ((brought N K ds header.block_index.toNat).map fun j =>
          (content (nt_fec_header_block_id header)).getD j []) seen
      refine ⟨_, fec', _, handed, hfeed.trans (by rw [Option.map_some, hseen]), hshelf',
        fun t ht => ?_, fun message hmem => ?_, ?_⟩
      · rcases List.mem_cons.mp ht with rfl | ht
        · exact ⟨_, hid ▸ hof'⟩
        · exact hof₁ t (List.mem_cons_of_mem s ht)
      · obtain ⟨j, hj, rfl⟩ := List.mem_map.mp (hbegins.subset hmem)
        have hlt := mem_brought hg.payload
          (fun hfull => hof'.whole hlen (by rw [List.length_cons]; exact hfull.ge)) hj
        rw [List.getD_eq_getElem _ _ hlt]
        exact List.getElem_mem hlt
      · exact (hand_over_error answer _ seen).imp_right Or.inr

end

/-! ## The receiving end -/

/-- A packet that arrives, with the clock value at that time and what the callback is to
answer. -/
structure arrival where
  packet : packet
  clock : Int
  answer : List (List UInt8 × Int) → List UInt8 → Int → error_t

/-- The part of `nt_tun_handle_read` that picks the decoder and renames the block; a datagram of
the wrong size is dropped. -/
def nt_tun_handle_read (processor_num : UInt32) (p : packet) :
    Option (Nat × nt_fec_header_t × List UInt8) :=
  if nt_fec_message_size p.1 ≠ 10 + p.2.length then none
  else
    let block_id := nt_fec_header_block_id p.1
    some ((block_id % processor_num).toNat,
      nt_fec_header_set_block_id p.1 (block_id / processor_num), p.2)

/-- For each arrival the value of the call and what was handed over, nothing if it was dropped. -/
def receive_all (processor_num : UInt32) : List nt_rs_fec_t → List arrival →
    Option (List (Option (error_t × List (List UInt8 × Int))))
  | _, [] => some []
  | fecs, a :: arrivals =>
    match nt_tun_handle_read processor_num a.packet with
    | none => (receive_all processor_num fecs arrivals).map (none :: ·)
    | some (processor, header, payload) => do
      let fec ← fecs[processor]?
      let (err, fec, seen) ← nt_rs_fec_decode fec header payload a.clock [] (record a.answer)
      let log ← receive_all processor_num (fecs.set processor fec) arrivals
      return some (err, seen) :: log

/-- The messages of the block whose packets reach this decoder under this key. -/
def content_of (K : Nat) (first processor_num : UInt32) (inputs : List (List UInt8))
    (processor : Nat) (key : UInt32) : List (List UInt8) :=
  block_of K inputs (key * processor_num + UInt32.ofNat processor - first).toNat

/-- What is to be seen of an arrival: the packet is one of a certain block, only messages of that
block are handed over, and an error is a full shelf or the callback's own. -/
def SoundEntry (N K D : Nat) (first : UInt32) (inputs : List (List UInt8)) (a : arrival)
    (entry : Option (error_t × List (List UInt8 × Int))) : Prop :=
  ∃ b ≤ inputs.length / K, a.packet ∈ block_packets (rs_init N K D) (sent_id first b)
      (block_of K inputs b) ∧
    ∃ err handed, entry = some (err, noted handed) ∧
      (∀ message ∈ handed, message ∈ block_of K inputs b) ∧
      (err = 0 ∨ err = E_FEC_DECODER_BUFFER_FULL ∨
        ∃ seen message, err = a.answer seen message message.length)

section

variable {N K : UInt8} {D : Nat} {first : UInt32} {inputs : List (List UInt8)}

theorem contents_content_of (hsize : ∀ input ∈ inputs, input.length ≤ D) (processor_num : UInt32)
    (processor : Nat) :
    Contents K.toNat D (content_of K.toNat first processor_num inputs processor) :=
  fun _ => ⟨List.length_take_le _ _, fun message hmem =>
    hsize message (List.mem_of_mem_drop (List.mem_of_mem_take hmem))⟩

theorem mem_sent_blocks {p : packet}
    (h : p ∈ (sent_blocks N.toNat K.toNat D first inputs).flatten) :
    ∃ b ≤ inputs.length / K.toNat, p ∈ block_packets (rs_init N.toNat K.toNat D)
      (sent_id first b) (block_of K.toNat inputs b) := by
  obtain ⟨packets, hpackets, hp⟩ := List.mem_flatten.mp h
  obtain ⟨b, hb, rfl⟩ := List.mem_map.mp hpackets
  exact ⟨b, Nat.le_of_lt_succ (List.mem_range.mp hb), hp⟩

theorem key_of_dispatch (id processor_num : UInt32) :
    id / processor_num * processor_num + UInt32.ofNat (id % processor_num).toNat = id := by
  have hlt := id.toNat_lt
  rw [UInt32.ofNat_toNat, ← UInt32.toNat_inj, UInt32.toNat_add, UInt32.toNat_mul,
    UInt32.toNat_div, UInt32.toNat_mod, Nat.mod_add_mod, Nat.div_add_mod', Nat.mod_eq_of_lt hlt]

/-- A packet of a block, also under another id of the block, is a genuine packet. -/
theorem genuine_call_packet_at (content : UInt32 → List (List UInt8)) {key : UInt32}
    {messages : List (List UInt8)} (hcontent : content key = messages) (id : UInt32) {i : Nat}
    (hi : i < N.toNat) {payload : List UInt8}
    (hg : Genuine (rs_init N.toNat K.toNat D) messages i payload) :
    GenuineCall N.toNat K.toNat D content (nt_fec_header_set_block_id
      (packet_at (rs_init N.toNat K.toNat D) id i payload).1 key) payload := by
  have hlt := N.toNat_lt
  refine ⟨rfl, ⟨congrArg UInt8.toNat UInt8.ofNat_toNat, congrArg UInt8.toNat UInt8.ofNat_toNat⟩, ?_⟩
  rw [block_id_set, hcontent]
  have hindex := block_index_packet_at (rs_init N.toNat K.toNat D) id (i := i) (by omega) payload
  exact hindex.symm ▸ hg

/-- A packet of a block reaches one decoder as a genuine packet. -/
theorem dispatch_genuine (hp : Params N.toNat K.toNat) (hD : D + 4 ≤ 65535)
    {processor_num : UInt32} (hpos : 0 < processor_num.toNat)
    (hblocks : inputs.length / K.toNat < 2 ^ 32) {b : Nat} (hb : b ≤ inputs.length / K.toNat)
    (hsize : ∀ input ∈ inputs, input.length ≤ D) {p : packet}
    (h : p ∈ block_packets (rs_init N.toNat K.toNat D) (sent_id first b)
      (block_of K.toNat inputs b)) :
    ∃ processor header payload, nt_tun_handle_read processor_num p =
        some (processor, header, payload) ∧ processor < processor_num.toNat ∧
      content_of K.toNat first processor_num inputs processor (nt_fec_header_block_id header) =
        block_of K.toNat inputs b ∧
      GenuineCall N.toNat K.toNat D (content_of K.toNat first processor_num inputs processor)
        header payload := by
  obtain ⟨i, hi⟩ := List.mem_iff_getElem?.mp h
  obtain ⟨payload, rfl, hg⟩ := genuine_of_getElem hi
  have hlen : (block_of K.toNat inputs b).length ≤ K.toNat := List.length_take_le _ _
  have hN := (payload_of_genuine hp hlen hg).1
  have hle := hp.le
  have hpayload : payload.length ≤ D + 4 := by
    rcases hg with ⟨hlt, rfl⟩ | ⟨-, -, -, rfl⟩
    · rw [List.getD_eq_getElem _ _ hlt]
      exact (hsize _ (List.mem_of_mem_drop (List.mem_of_mem_take
        (List.getElem_mem hlt)))).trans (Nat.le_add_right D 4)
    · exact length_redundant_le _ _ _
  have hid : nt_fec_header_block_id (packet_at (rs_init N.toNat K.toNat D) (sent_id first b) i
      payload).1 = sent_id first b := block_id_init ..
  have hcontent : content_of K.toNat first processor_num inputs
      (sent_id first b % processor_num).toNat (sent_id first b / processor_num) =
        block_of K.toNat inputs b := by
    rw [content_of, key_of_dispatch, sent_id, UInt32.add_comm, UInt32.add_sub_cancel,
      UInt32.toNat_ofNat_of_lt' (hb.trans_lt hblocks)]
  refine ⟨(sent_id first b % processor_num).toNat, nt_fec_header_set_block_id
    (packet_at (rs_init N.toNat K.toNat D) (sent_id first b) i payload).1
    (sent_id first b / processor_num), payload, ?_, ?_, ?_, ?_⟩
  · unfold nt_tun_handle_read nt_fec_message_size
    rw [size_packet_at _ _ _ (hpayload.trans hD), if_neg (fun hne => hne rfl)]
    simp only [hid]
    rfl
  · rw [UInt32.toNat_mod]
    exact Nat.mod_lt _ hpos
  · rw [block_id_set, hcontent]
  · exact genuine_call_packet_at _ hcontent _ hN hg

end

/-! ## Runs of the receiving end -/

/-- A decoder of this code with enough buffers. -/
structure Receiver (N K : UInt8) (D : Nat) (c : config) : Prop where
  code : c.N = N ∧ c.K = K ∧ c.max_data_size = D
  buffers : 2 ≤ c.decode_buffer_size ∧ c.decode_buffer_size ≤ 2 ^ 32

/-- Every decoder's buffers hold packets of the blocks that are dispatched to it. -/
structure Receiving (N K D : Nat) (first : UInt32) (inputs : List (List UInt8))
    (configs : List config) (fecs : List nt_rs_fec_t) : Prop where
  length : fecs.length = configs.length
  decoder : ∀ q c, configs[q]? = some c → ∃ fec slots, fecs[q]? = some fec ∧
    Shelved N K D c.decode_buffer_size c.decode_timeout fec slots ∧
    OfBlocks N K D (content_of K first (UInt32.ofNat configs.length) inputs q) slots

theorem fecs_init_shelved {N K : UInt8} {D : Nat} {configs : List config}
    (h : ∀ c ∈ configs, Receiver N K D c) (idgen : idgen_t) :
    ∃ fecs idgen', fecs_init configs idgen = some (fecs, idgen') ∧
      fecs.length = configs.length ∧ ∀ (q : Nat) (c : config), configs[q]? = some c →
        ∃ fec, fecs[q]? = some fec ∧ Shelved N.toNat K.toNat D c.decode_buffer_size
          c.decode_timeout fec (first_shelf (rs_init N.toNat K.toNat D) c.decode_buffer_size) := by
  induction configs generalizing idgen with
  | nil => exact ⟨[], idgen, rfl, rfl, fun q c hc => by simp at hc⟩
  | cons c₀ configs ih =>
    obtain ⟨⟨rfl, rfl, rfl⟩, hbuffers⟩ := h c₀ List.mem_cons_self
    obtain ⟨fec, idgen₁, hinit, hshelf⟩ := nt_rs_fec_init_shelved c₀.N c₀.K c₀.max_data_size
      hbuffers c₀.decode_timeout idgen c₀.perf
    obtain ⟨fecs, idgen₂, hrun, hlen, hrest⟩ :=
      ih (fun c hc => h c (List.mem_cons_of_mem _ hc)) idgen₁
    refine ⟨fec :: fecs, idgen₂, ?_, by rw [List.length_cons, List.length_cons, hlen],
      fun q c hc => ?_⟩
    · simp only [fecs_init, hinit, hrun, Option.bind_eq_bind, Option.bind_some]
      rfl
    · rcases q with _ | q
      · rw [List.getElem?_cons_zero, Option.some.injEq] at hc
        subst hc
        exact ⟨fec, rfl, hshelf⟩
      · exact hrest q c hc

section

variable {N K : UInt8} {D : Nat} {first : UInt32} {inputs : List (List UInt8)}
  {configs : List config}

/-- One arrival. -/
theorem receive_one (hp : Params N.toNat K.toNat) (hN : N.toNat ≤ 32) (hD : D + 4 ≤ 65535)
    (hblocks : inputs.length / K.toNat < 2 ^ 32) (hsize : ∀ input ∈ inputs, input.length ≤ D)
    (hnum : configs ≠ [] ∧ configs.length < 2 ^ 32) (hconfigs : ∀ c ∈ configs, Receiver N K D c)
    {fecs : List nt_rs_fec_t}
    (h : Receiving N.toNat K.toNat D first inputs configs fecs) {a : arrival}
    (ha : a.packet ∈ (sent_blocks N.toNat K.toNat D first inputs).flatten) :
    ∃ processor header payload fec fec' err seen,
      nt_tun_handle_read (UInt32.ofNat configs.length) a.packet =
        some (processor, header, payload) ∧ fecs[processor]? = some fec ∧
      nt_rs_fec_decode fec header payload a.clock [] (record a.answer) = some (err, fec', seen) ∧
      Receiving N.toNat K.toNat D first inputs configs (fecs.set processor fec') ∧
      SoundEntry N.toNat K.toNat D first inputs a (some (err, seen)) := by
  have hpos : 0 < (UInt32.ofNat configs.length).toNat := by
    rw [UInt32.toNat_ofNat_of_lt' hnum.2]
    exact List.length_pos_iff.mpr hnum.1
  obtain ⟨b, hb, hmem⟩ := mem_sent_blocks ha
  obtain ⟨processor, header, payload, hread, hlt, hcontent, hg⟩ :=
    dispatch_genuine hp hD hpos hblocks hb hsize hmem
  rw [UInt32.toNat_ofNat_of_lt' hnum.2] at hlt
  have hc := List.getElem?_eq_getElem hlt
  obtain ⟨fec, slots, hfec, hshelf, hof⟩ := h.decoder processor _ hc
  have hbuffers := (hconfigs _ (List.getElem_mem hlt)).buffers
  obtain ⟨err, fec', slots', handed, hdecode, hshelf', hof', hhanded, herr⟩ :=
    decode_genuine hp hN (by omega) (Nat.le_of_succ_le hbuffers.1)
      (contents_content_of hsize _ processor) hshelf hof hg a.clock a.answer []
  rw [hcontent] at hhanded
  rw [List.nil_append] at hdecode
  refine ⟨processor, header, payload, fec, fec', err, noted handed, hread, hfec, hdecode, ?_,
    b, hb, hmem, err, handed, rfl, hhanded, herr⟩
  refine ⟨List.length_set.trans h.length, fun q c hq => ?_⟩
  by_cases heq : processor = q
  · subst heq
    rw [hc, Option.some.injEq] at hq
    subst hq
    exact ⟨fec', slots', List.getElem?_set_self (h.length ▸ hlt), hshelf', hof'⟩
  · rw [List.getElem?_set_ne heq]
    exact h.decoder q c hq

/-- Any number of arrivals. -/
theorem receive_all_sound (hp : Params N.toNat K.toNat) (hN : N.toNat ≤ 32) (hD : D + 4 ≤ 65535)
    (hblocks : inputs.length / K.toNat < 2 ^ 32) (hsize : ∀ input ∈ inputs, input.length ≤ D)
    (hnum : configs ≠ [] ∧ configs.length < 2 ^ 32) (hconfigs : ∀ c ∈ configs, Receiver N K D c)
    (arrivals : List arrival)
    (ha : ∀ a ∈ arrivals, a.packet ∈ (sent_blocks N.toNat K.toNat D first inputs).flatten)
    {fecs : List nt_rs_fec_t}
    (h : Receiving N.toNat K.toNat D first inputs configs fecs) :
    ∃ log, receive_all (UInt32.ofNat configs.length) fecs arrivals = some log ∧
      List.Forall₂ (SoundEntry N.toNat K.toNat D first inputs) arrivals log := by
  induction arrivals generalizing fecs with
  | nil => exact ⟨[], rfl, List.Forall₂.nil⟩
  | cons a arrivals ih =>
    obtain ⟨processor, header, payload, fec, fec', err, seen, hread, hfec, hdecode, hnext, hentry⟩ :=
      receive_one hp hN hD hblocks hsize hnum hconfigs h (ha a List.mem_cons_self)
    obtain ⟨log, hlog, hentries⟩ := ih (fun a' ha' => ha a' (List.mem_cons_of_mem a ha')) hnext
    refine ⟨some (err, seen) :: log, ?_, List.Forall₂.cons hentry hentries⟩
    unfold receive_all
    simp only [hread, hfec, hdecode, hlog, Option.bind_eq_bind, Option.bind_some]
    rfl

end

/-- Whatever packets of one sender arrive, when and how often, each of them gets only messages of
its own block handed over, and no call fails but for a full shelf or by the callback's word. -/
theorem tunnel_is_sound {N K : UInt8} (hp : Params N.toNat K.toNat) (hN : N.toNat ≤ 32) {D : Nat}
    (hD : D + 4 ≤ 65535) {B : Nat} {timeout : Int} {first idgen : idgen_t} {perf : perf_t}
    {sender : nt_rs_fec_t} (hsender : nt_rs_fec_init N K D B timeout first perf = some (sender, idgen))
    {inputs : List (List UInt8)} (hsize : ∀ input ∈ inputs, input.length ≤ D)
    (hblocks : inputs.length / K.toNat < 2 ^ 32) {configs : List config}
    (hnum : configs ≠ [] ∧ configs.length < 2 ^ 31) (hconfigs : ∀ c ∈ configs, Receiver N K D c)
    (receiver_idgen : idgen_t) :
    ∃ sent fecs receiver_idgen', send_all sender idgen inputs = some sent ∧
      fecs_init configs receiver_idgen = some (fecs, receiver_idgen') ∧
      ∀ arrivals : List arrival, (∀ a ∈ arrivals, a.packet ∈ sent) →
        ∃ log, receive_all (UInt32.ofNat configs.length) fecs arrivals = some log ∧
          List.Forall₂ (SoundEntry N.toNat K.toNat D first inputs) arrivals log := by
  obtain ⟨fecs, receiver_idgen', hinit, hlen, hfecs⟩ := fecs_init_shelved hconfigs receiver_idgen
  refine ⟨_, fecs, receiver_idgen', send_all_blocks hp hsender hsize, hinit, fun arrivals ha => ?_⟩
  refine receive_all_sound hp hN hD hblocks hsize ⟨hnum.1, by omega⟩ hconfigs arrivals ha
    ⟨hlen, fun q c hc => ?_⟩
  obtain ⟨fec, hfec, hshelf⟩ := hfecs q c hc
  exact ⟨fec, _, hfec, hshelf, of_blocks_first _ _ _ _ _⟩

theorem tunnel_is_sound_two :
    ∃ sent fecs receiver_idgen', (nt_rs_fec_init 3 2 4 2 100 7 (fun _ => 0)).bind
        (fun s => send_all s.1 s.2 [[1], [2, 3], [4]]) = some sent ∧
      fecs_init [⟨3, 2, 4, 2, 100, fun _ => 0⟩, ⟨3, 2, 4, 5, 7, fun _ => 0⟩] 0 =
        some (fecs, receiver_idgen') ∧
      ∀ arrivals : List arrival, (∀ a ∈ arrivals, a.packet ∈ sent) →
        ∃ log, receive_all 2 fecs arrivals = some log ∧
          List.Forall₂ (SoundEntry 3 2 4 7 [[1], [2, 3], [4]]) arrivals log := by
  obtain ⟨sender, idgen, hinit, -⟩ := nt_rs_fec_init_shelved 3 2 4 (B := 2)
    ⟨by decide, by decide⟩ 100 7 (fun _ => 0)
  rw [hinit]
  exact tunnel_is_sound (N := 3) (K := 2) ⟨by decide, by decide, by decide⟩ (by decide)
    (by decide) hinit (by decide) (by decide)
    ⟨by simp, by decide⟩ (fun c hc => by
      rcases List.mem_cons.mp hc with rfl | hc
      · exact ⟨⟨rfl, rfl, rfl⟩, by decide, by decide⟩
      · rw [List.mem_singleton.mp hc]
        exact ⟨⟨rfl, rfl, rfl⟩, by decide, by decide⟩) 0

end nettle.nt_rs_fec
