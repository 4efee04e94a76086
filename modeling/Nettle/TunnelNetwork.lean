-- A tunnel between two whole ends: several encoders on one id generator, and
-- several decoders that get the packets by their block ids. Every block is
-- handed over as if it were the only one.
import Nettle.TunnelDelivery

open in_place nettle.nt_fec nettle.rs

namespace nettle.nt_rs_fec

/-! ## What arrives of a block -/

def arrival.id (a : arrival) : UInt32 := nt_fec_header_block_id a.packet.1

def arrival.index (a : arrival) : Nat := a.packet.1.block_index.toNat

/-- The indexes of the packets of a block, as they arrive. -/
def indexes_of (id : UInt32) (arrivals : List arrival) : List Nat :=
  (arrivals.filter fun a => a.id = id).map arrival.index

/-- What is handed over for the packets of a block. -/
def handed_of (id : UInt32) (arrivals : List arrival)
    (log : List (Option (error_t × List (List UInt8 × Int)))) : List (List UInt8 × Int) :=
  ((arrivals.zip log).filter fun entry => entry.1.id = id).flatMap fun entry =>
    (entry.2.map Prod.snd).getD []

theorem indexes_of_cons (id : UInt32) (a : arrival) (arrivals : List arrival) :
    indexes_of id (a :: arrivals) =
      if a.id = id then a.index :: indexes_of id arrivals else indexes_of id arrivals := by
  by_cases h : a.id = id <;> simp [indexes_of, h]

theorem handed_of_cons (id : UInt32) (a : arrival) (arrivals : List arrival)
    (entry : Option (error_t × List (List UInt8 × Int)))
    (log : List (Option (error_t × List (List UInt8 × Int)))) :
    handed_of id (a :: arrivals) (entry :: log) =
      if a.id = id then (entry.map Prod.snd).getD [] ++ handed_of id arrivals log
      else handed_of id arrivals log := by
  by_cases h : a.id = id <;> simp [handed_of, h]

/-- The keys under which packets reach a decoder. -/
def keys_at (processor_num : UInt32) (processor : Nat) (arrivals : List arrival) : List UInt32 :=
  (arrivals.filter fun a => (a.id % processor_num).toNat = processor).map fun a =>
    a.id / processor_num

/-- The times at which packets reach a decoder. -/
def clocks_at (processor_num : UInt32) (processor : Nat) (arrivals : List arrival) : List Int :=
  (arrivals.filter fun a => (a.id % processor_num).toNat = processor).map arrival.clock

/-- A decoder has buffers for all blocks that come to it, and none of its packets is too late. -/
structure InTime (processor_num : UInt32) (c : config) (processor : Nat)
    (arrivals : List arrival) : Prop where
  few : (keys_at processor_num processor arrivals).dedup.length ≤ c.decode_buffer_size
  late : ∀ clock ∈ clocks_at processor_num processor arrivals,
    ∀ clock' ∈ clocks_at processor_num processor arrivals, clock' - clock ≤ c.decode_timeout

theorem mem_keys_at (processor_num : UInt32) {arrivals : List arrival} {a : arrival}
    (ha : a ∈ arrivals) :
    a.id / processor_num ∈ keys_at processor_num (a.id % processor_num).toNat arrivals :=
  List.mem_map_of_mem (f := fun a : arrival => a.id / processor_num)
    (List.mem_filter.mpr ⟨ha, decide_eq_true rfl⟩)

theorem mem_clocks_at (processor_num : UInt32) {arrivals : List arrival} {a : arrival}
    (ha : a ∈ arrivals) :
    a.clock ∈ clocks_at processor_num (a.id % processor_num).toNat arrivals :=
  List.mem_map_of_mem (List.mem_filter.mpr ⟨ha, decide_eq_true rfl⟩)

/-- A processor and a key stand for one id. -/
theorem same_id {id id' processor_num : UInt32}
    (hprocessor : (id % processor_num).toNat = (id' % processor_num).toNat)
    (hkey : id / processor_num = id' / processor_num) : id = id' := by
  rw [← key_of_dispatch id processor_num, ← key_of_dispatch id' processor_num, hprocessor, hkey]

/-! ## The receiving end -/

/-- The messages of the block that a decoder gets under a key. -/
def content_at (processor_num : UInt32) (content : UInt32 → List (List UInt8)) (processor : Nat)
    (key : UInt32) : List (List UInt8) :=
  content (key * processor_num + UInt32.ofNat processor)

theorem content_at_dispatch (processor_num : UInt32) (content : UInt32 → List (List UInt8))
    (id : UInt32) :
    content_at processor_num content (id % processor_num).toNat (id / processor_num) =
      content id := by
  rw [content_at, key_of_dispatch]

/-- The sender emitted the packet as one of the block that its id names. -/
def OfContent (N K D : Nat) (content : UInt32 → List (List UInt8)) (a : arrival) : Prop :=
  ∃ id, a.packet ∈ block_packets (rs_init N K D) id (content id)

/-- Every decoder keeps a buffer for each block of which packets came: `got` are the degrees of the
packets that a processor got under a key. -/
def Side (N K D : Nat) (content : UInt32 → List (List UInt8)) (configs : List config)
    (arrivals : List arrival) (got : Nat → UInt32 → List Nat) (fecs : List nt_rs_fec_t) : Prop :=
  let processor_num := UInt32.ofNat configs.length
  fecs.length = configs.length ∧
    ∀ q c, configs[q]? = some c → ∃ fec touched untouched, fecs[q]? = some fec ∧
      Shelved N K D c.decode_buffer_size c.decode_timeout fec (touched ++ untouched) ∧
      Arranged N K D (content_at processor_num content q) (keys_at processor_num q arrivals)
        (clocks_at processor_num q arrivals) (got q) touched untouched

section

variable {N K D : Nat} {content : UInt32 → List (List UInt8)}

theorem index_lt_of_genuine {messages : List (List UInt8)} {i : Nat} {payload : List UInt8}
    (hp : Params N K) (hlen : messages.length ≤ K)
    (h : Genuine (rs_init N K D) messages i payload) :
    i < N ∧ (i < messages.length ∨ messages.length = K) := by
  have hlt := hp.lt
  rcases h with ⟨hi, -⟩ | ⟨hfull, -, hi, -⟩
  · exact ⟨by omega, Or.inl hi⟩
  · exact ⟨hi, Or.inr hfull⟩

/-- The id and the index of a packet that arrives are those under which it was emitted. -/
theorem OfContent.packet {N K : UInt8} (hp : Params N.toNat K.toNat)
    (hcontent : Contents K.toNat D content) {a : arrival}
    (h : OfContent N.toNat K.toNat D content a) : ∃ payload,
      a.packet = packet_at (rs_init N.toNat K.toNat D) a.id a.index payload ∧
        a.index < N.toNat ∧ Genuine (rs_init N.toNat K.toNat D) (content a.id) a.index payload := by
  obtain ⟨id, hmem⟩ := h
  obtain ⟨i, hi⟩ := List.mem_iff_getElem?.mp hmem
  obtain ⟨payload, heq, hg⟩ := genuine_of_getElem hi
  have hN := (index_lt_of_genuine hp (hcontent id).1 hg).1
  have hlt := N.toNat_lt
  have hid : a.id = id := by
    rw [arrival.id, heq]
    exact block_id_init ..
  have hindex : a.index = i := by
    rw [arrival.index, heq]
    exact block_index_packet_at _ _ (by omega) payload
  exact ⟨payload, hid ▸ hindex ▸ heq, hindex ▸ hN, hid ▸ hindex ▸ hg⟩

/-- A packet goes to one decoder, where it is a genuine packet of its block. -/
theorem OfContent.dispatch {N K : UInt8} (hp : Params N.toNat K.toNat) (hD : D + 4 ≤ 65535)
    (hcontent : Contents K.toNat D content) {a : arrival}
    (h : OfContent N.toNat K.toNat D content a) (processor_num : UInt32) :
    ∃ header payload, nt_tun_handle_read processor_num a.packet =
        some ((a.id % processor_num).toNat, header, payload) ∧
      nt_fec_header_block_id header = a.id / processor_num ∧
      header.block_index.toNat = a.index ∧
      GenuineCall N.toNat K.toNat D (content_at processor_num content (a.id % processor_num).toNat)
        header payload := by
  obtain ⟨payload, heq, hN, hg⟩ := h.packet hp hcontent
  have hle := hp.le
  have hpayload : payload.length ≤ D + 4 := by
    rcases hg with ⟨hlt, rfl⟩ | ⟨-, -, -, rfl⟩
    · rw [List.getD_eq_getElem _ _ hlt]
      exact ((hcontent a.id).2 _ (List.getElem_mem hlt)).trans (Nat.le_add_right D 4)
    · exact length_redundant_le _ _ _
  refine ⟨nt_fec_header_set_block_id
    (packet_at (rs_init N.toNat K.toNat D) a.id a.index payload).1 (a.id / processor_num),
    payload, ?_, block_id_set _ _, block_index_packet_at _ _ (by omega) payload,
    genuine_call_packet_at _ (content_at_dispatch processor_num content a.id) a.id hN hg⟩
  unfold nt_tun_handle_read nt_fec_message_size
  rw [heq, size_packet_at _ _ _ (hpayload.trans hD), if_neg (fun hne => hne rfl)]
  simp only [show nt_fec_header_block_id
    (packet_at (rs_init N.toNat K.toNat D) a.id a.index payload).1 = a.id from block_id_init ..]
  rfl

/-- One arrival: the decoder does with it what its block by itself would do. -/
theorem side_step {N K : UInt8} (hp : Params N.toNat K.toNat) (hN : N.toNat ≤ 32)
    (hD : D + 4 ≤ 65535) (hcontent : Contents K.toNat D content) {configs : List config}
    (hnum : configs ≠ [] ∧ configs.length < 2 ^ 32) {arrivals : List arrival}
    (htime : ∀ q c, configs[q]? = some c → InTime (UInt32.ofNat configs.length) c q arrivals)
    {got : Nat → UInt32 → List Nat} {fecs : List nt_rs_fec_t}
    (h : Side N.toNat K.toNat D content configs arrivals got fecs) {a : arrival}
    (ha : a ∈ arrivals) (hof : OfContent N.toNat K.toNat D content a)
    (hok : a.answer = fun _ _ _ => 0) {q : Nat} {key : UInt32}
    (hq : q = (a.id % UInt32.ofNat configs.length).toNat)
    (hkey : key = a.id / UInt32.ofNat configs.length) :
    ∃ header payload fec fec',
      nt_tun_handle_read (UInt32.ofNat configs.length) a.packet = some (q, header, payload) ∧
      fecs[q]? = some fec ∧
      nt_rs_fec_decode fec header payload a.clock [] (record a.answer) = some (0, fec',
        noted ((block_step N.toNat K.toNat (got q key) a.index).1.map fun j =>
          (content a.id).getD j [])) ∧
      Side N.toNat K.toNat D content configs arrivals
        (Function.update got q (Function.update (got q) key
          (block_step N.toNat K.toNat (got q key) a.index).2)) (fecs.set q fec') := by
  obtain ⟨header, payload, hread, hid, hindex, hg⟩ :=
    hof.dispatch hp hD hcontent (UInt32.ofNat configs.length)
  have hlt : q < configs.length := by
    rw [hq, UInt32.toNat_mod, UInt32.toNat_ofNat_of_lt' hnum.2]
    exact Nat.mod_lt _ (List.length_pos_iff.mpr hnum.1)
  have hc := List.getElem?_eq_getElem hlt
  obtain ⟨hlen, hdecoders⟩ := h
  obtain ⟨fec, touched, untouched, hfec, hshelf, harranged⟩ := hdecoders q _ hc
  have hmem := mem_keys_at (UInt32.ofNat configs.length) ha
  have hclock := mem_clocks_at (UInt32.ofNat configs.length) ha
  have hmine := content_at_dispatch (UInt32.ofNat configs.length) content a.id
  rw [← hq, ← hkey] at hmem hmine
  rw [content_at] at hmine
  rw [← hq] at hread hclock hg
  obtain ⟨fec', touched', untouched', hdecode, hshelf', harranged'⟩ := decode_arranged hp hN
    (by omega) (fun key => hcontent _) hshelf harranged (htime q _ hc).few
    (fun c hc' c' hc'' => (htime q _ hc).late c' hc'' c hc') hg (hid.trans hkey.symm) hmem hclock
  rw [hindex, hmine, ← hok] at hdecode
  rw [hindex] at harranged'
  refine ⟨header, payload, fec, fec', hread, hfec, hdecode, List.length_set.trans hlen,
    fun q' c hc' => ?_⟩
  by_cases heq : q = q'
  · subst heq
    rw [hc, Option.some.injEq] at hc'
    subst hc'
    rw [Function.update_self]
    exact ⟨fec', touched', untouched', List.getElem?_set_self (hlen ▸ hlt), hshelf', harranged'⟩
  · rw [List.getElem?_set_ne heq, Function.update_of_ne (Ne.symm heq)]
    exact hdecoders q' c hc'

/-- Any arrivals that are left: of each block, what it by itself would hand over. -/
theorem side_run {N K : UInt8} (hp : Params N.toNat K.toNat) (hN : N.toNat ≤ 32)
    (hD : D + 4 ≤ 65535) (hcontent : Contents K.toNat D content) {configs : List config}
    (hnum : configs ≠ [] ∧ configs.length < 2 ^ 32) {all : List arrival}
    (htime : ∀ q c, configs[q]? = some c → InTime (UInt32.ofNat configs.length) c q all)
    (arrivals : List arrival) (ha : ∀ a ∈ arrivals, a ∈ all ∧
      OfContent N.toNat K.toNat D content a ∧ a.answer = fun _ _ _ => 0)
    {got : Nat → UInt32 → List Nat} {fecs : List nt_rs_fec_t}
    (h : Side N.toNat K.toNat D content configs all got fecs) :
    ∃ log, receive_all (UInt32.ofNat configs.length) fecs arrivals = some log ∧
      (∀ entry ∈ log, ∃ seen, entry = some (0, seen)) ∧
      ∀ id q key, q = (id % UInt32.ofNat configs.length).toNat →
        key = id / UInt32.ofNat configs.length → handed_of id arrivals log =
          noted ((block_run N.toNat K.toNat (indexes_of id arrivals) (got q key)).flatten.map
            fun j => (content id).getD j []) := by
  induction arrivals generalizing got fecs with
  | nil => exact ⟨[], rfl, nofun, fun id q key _ _ => rfl⟩
  | cons a arrivals ih =>
    obtain ⟨hall, hof, hok⟩ := ha a List.mem_cons_self
    obtain ⟨header, payload, fec, fec', hread, hfec, hdecode, hnext⟩ :=
      side_step hp hN hD hcontent hnum htime h hall hof hok rfl rfl
    obtain ⟨log, hlog, hzero, hhanded⟩ := ih (fun a' ha' => ha a' (List.mem_cons_of_mem a ha')) hnext
    refine ⟨some (0, noted ((block_step N.toNat K.toNat
      (got (a.id % UInt32.ofNat configs.length).toNat (a.id / UInt32.ofNat configs.length))
      a.index).1.map fun j => (content a.id).getD j [])) :: log, ?_, ?_, fun id q key hq hkey => ?_⟩
    · unfold receive_all
      simp only [hread, hfec, hdecode, hlog, Option.bind_eq_bind, Option.bind_some]
      rfl
    · intro entry hentry
      rcases List.mem_cons.mp hentry with rfl | hentry
      · exact ⟨_, rfl⟩
      · exact hzero entry hentry
    · have hrest := hhanded id q key hq hkey
      rw [handed_of_cons, indexes_of_cons]
      by_cases hid : a.id = id
      · subst hid
        subst hq
        subst hkey
        rw [Function.update_self, Function.update_self] at hrest
        rw [if_pos rfl, if_pos rfl, Option.map_some, Option.getD_some, hrest, block_run, List.flatten_cons, List.map_append, noted,
          noted, noted, List.map_append]
      · rw [if_neg hid, if_neg hid, hrest]
        by_cases hprocessor : q = (a.id % UInt32.ofNat configs.length).toNat
        · have hother : key ≠ a.id / UInt32.ofNat configs.length := fun hsame =>
            hid (same_id (hprocessor.symm.trans hq) (hsame.symm.trans hkey))
          subst hprocessor
          rw [Function.update_self, Function.update_of_ne hother]
        · rw [Function.update_of_ne hprocessor]

/-- The blank buffers at the start. -/
theorem side_start {N K : UInt8} {configs : List config} (h : ∀ c ∈ configs, Receiver N K D c)
    (idgen : idgen_t) (content : UInt32 → List (List UInt8)) (arrivals : List arrival) :
    ∃ fecs idgen', fecs_init configs idgen = some (fecs, idgen') ∧
      Side N.toNat K.toNat D content configs arrivals (fun _ _ => []) fecs := by
  obtain ⟨fecs, idgen', hinit, hlen, hfecs⟩ := fecs_init_shelved h idgen
  refine ⟨fecs, idgen', hinit, hlen, fun q c hc => ?_⟩
  obtain ⟨fec, hfec, hshelf⟩ := hfecs q c hc
  refine ⟨fec, [], _, hfec, hshelf, ⟨?_, ?_, ?_, ?_, fun _ _ _ => rfl⟩⟩
  · exact List.forall_mem_nil _
  · exact List.forall_mem_nil _
  · exact List.forall_mem_nil _
  · intro s hs
    obtain ⟨i, -, rfl⟩ := List.mem_map.mp hs
    rfl

/-- What the packets of one block hand over: none of its messages twice, and all of them when K
different packets come. -/
theorem handed_block {N K : UInt8} (hp : Params N.toNat K.toNat)
    (hcontent : Contents K.toNat D content) {arrivals : List arrival}
    (ha : ∀ a ∈ arrivals, OfContent N.toNat K.toNat D content a) (id : UInt32) :
    let handed := (block_run N.toNat K.toNat (indexes_of id arrivals) []).flatten.map fun j =>
      (content id).getD j []
    List.Subperm handed (content id) ∧
      (K.toNat ≤ (indexes_of id arrivals).dedup.length →
        (content id).length = K.toNat ∧ handed.Perm (content id)) := by
  have hlen := (hcontent id).1
  have hindex : ∀ i ∈ indexes_of id arrivals,
      i < N.toNat ∧ (i < (content id).length ∨ (content id).length = K.toNat) := by
    intro i hi
    obtain ⟨a, hmem, rfl⟩ := List.mem_map.mp hi
    obtain ⟨hmem, hid⟩ := List.mem_filter.mp hmem
    obtain ⟨payload, -, -, hg⟩ := (ha a hmem).packet hp hcontent
    rw [of_decide_eq_true hid] at hg
    exact index_lt_of_genuine hp hlen hg
  obtain ⟨hnodup, hlt, hwhole⟩ := block_run_spec hp.pos hp.lt (fun i hi => (hindex i hi).1)
    (m := (content id).length) (by
      rcases hlen.eq_or_lt with heq | hlt
      · exact Or.inl heq
      · exact Or.inr ⟨hlt, fun i hi => (hindex i hi).2.resolve_right hlt.ne⟩)
  have hpieces := map_getD_range (content id) []
  refine ⟨?_, fun hmany => ?_⟩
  · obtain ⟨js, hperm, hsublist⟩ :=
      List.subperm_of_subset hnodup fun j hj => List.mem_range.mpr (hlt j hj)
    have hpart := hsublist.map fun j => (content id).getD j []
    rw [hpieces] at hpart
    exact ⟨_, hperm.map _, hpart⟩
  · obtain ⟨hfull, hperm⟩ := hwhole hmany
    have hall := hperm.map fun j => (content id).getD j []
    rw [hfull] at hpieces
    rw [hpieces] at hall
    exact ⟨hfull, hall⟩

end

/-! ## The sending end -/

/-- Each call of the run notes its encoder. -/
theorem encoders_run_encoders {fecs : List nt_rs_fec_t} {idgen : idgen_t}
    {calls : List (Nat × List UInt8)} {log : List (Nat × List packet)}
    (h : encoders_run fecs idgen calls = some log) : log.map Prod.fst = calls.map Prod.fst := by
  induction calls generalizing fecs idgen log with
  | nil =>
    cases h
    rfl
  | cons call calls ih =>
    obtain ⟨e, input⟩ := call
    simp only [encoders_run, Option.bind_eq_bind, Option.bind_eq_some_iff] at h
    obtain ⟨fec, -, ⟨err, fec', idgen', sent⟩, -, log', hrest, heq⟩ := h
    cases heq
    rw [List.map_cons, List.map_cons, ih hrest]

/-- Ids of their own name blocks of their own. -/
theorem exists_content {α : Type} {ids : Nat → Nat → UInt32} {begun : Nat → Nat}
    (hinj : ∀ e b e' b', b < begun e → b' < begun e' → ids e b = ids e' b' → e = e' ∧ b = b')
    (block : Nat → Nat → List α) :
    ∃ content : UInt32 → List α, (∀ e b, b < begun e → content (ids e b) = block e b) ∧
      ∀ id, content id = [] ∨ ∃ e b, b < begun e ∧ content id = block e b := by
  classical
  refine ⟨fun id => if h : ∃ place : Nat × Nat, place.2 < begun place.1 ∧
    ids place.1 place.2 = id then block h.choose.1 h.choose.2 else [], fun e b hb => ?_, fun id => ?_⟩
  · have h : ∃ place : Nat × Nat, place.2 < begun place.1 ∧ ids place.1 place.2 = ids e b :=
      ⟨(e, b), hb, rfl⟩
    obtain ⟨he, hb'⟩ := hinj _ _ _ _ h.choose_spec.1 hb h.choose_spec.2
    simp only
    rw [dif_pos h, he, hb']
  · by_cases h : ∃ place : Nat × Nat, place.2 < begun place.1 ∧ ids place.1 place.2 = id
    · simp only
      rw [dif_pos h]
      exact Or.inr ⟨_, _, h.choose_spec.1, rfl⟩
    · exact Or.inl (dif_neg h)

section

variable {N K : UInt8} {D : Nat}

/-- An encoder of this code. -/
def Sender (N K : UInt8) (D : Nat) (c : config) : Prop :=
  c.N = N ∧ c.K = K ∧ c.max_data_size = D

/-- What the encoders emit are packets of the blocks that they have begun, each under an id of its
own. -/
theorem encoders_sent (hp : Params N.toNat K.toNat) {configs : List config}
    (hconfigs : ∀ c ∈ configs, Sender N K D c) {first idgen : idgen_t} {fecs : List nt_rs_fec_t}
    (hstart : fecs_init configs first = some (fecs, idgen)) {calls : List (Nat × List UInt8)}
    (hcalls : ∀ call ∈ calls, call.1 < configs.length ∧ call.2.length ≤ D)
    (hblocks : blocks_begun configs calls ≤ 2 ^ 32) :
    ∃ (sent : List (Nat × List packet)) (ids : Nat → Nat → UInt32),
      encoders_run fecs idgen calls = some sent ∧
      (∀ e b e' b', b < begun configs calls e → b' < begun configs calls e' →
        ids e b = ids e' b' → e = e' ∧ b = b') ∧
      ∀ p ∈ (sent.map Prod.snd).flatten, ∃ e b, b < begun configs calls e ∧
        p ∈ block_packets (rs_init N.toNat K.toNat D) (ids e b)
          (block_of K.toNat (entries_of e calls) b) := by
  obtain ⟨sent, off, _, _, hrun, hend, -, hsent⟩ := running_calls (fun c hc => by
      obtain ⟨rfl, rfl, rfl⟩ := hconfigs c hc
      exact hp) (fun call hcall => by
      have hc := List.getElem?_eq_getElem (hcalls call hcall).1
      refine ⟨_, hc, ?_⟩
      rw [(hconfigs _ (List.mem_of_getElem? hc)).2.2]
      exact (hcalls call hcall).2) calls [] rfl (running_start hstart calls)
  refine ⟨sent, fun e b => first + UInt32.ofNat (off e b), hrun,
    fun e b e' b' hb hb' heq => hend.inj e b e' b' hb hb' ?_, fun p hp' => ?_⟩
  · have heq := congrArg UInt32.toNat ((UInt32.add_right_inj first).mp heq)
    have hlt := hend.lt e b hb
    have hlt' := hend.lt e' b' hb'
    rwa [UInt32.toNat_ofNat_of_lt' (hlt.trans_le hblocks),
      UInt32.toNat_ofNat_of_lt' (hlt'.trans_le hblocks)] at heq
  · obtain ⟨packets, hpackets, hmem⟩ := List.mem_flatten.mp hp'
    obtain ⟨⟨e, packets'⟩, hentry, rfl⟩ := List.mem_map.mp hpackets
    have he : e ∈ calls.map Prod.fst :=
      encoders_run_encoders hrun ▸ List.mem_map_of_mem (f := Prod.fst) hentry
    obtain ⟨call, hcall, rfl⟩ := List.mem_map.mp he
    have hc := List.getElem?_eq_getElem (hcalls call hcall).1
    obtain ⟨hN, hK, hD⟩ := hconfigs _ (List.mem_of_getElem? hc)
    have hblock : p ∈ (entries_of call.1 sent).flatten :=
      List.mem_flatten.mpr ⟨packets', mem_entries_of.mpr hentry, hmem⟩
    rw [hsent _ _ hc, entries_of_nil, List.length_nil, ← List.range_eq_range', List.nil_append,
      calls_are_blocks (by rw [hK]; exact hp.pos) _ le_rfl, List.take_length] at hblock
    obtain ⟨block, hblock, hmem⟩ := List.mem_flatten.mp hblock
    obtain ⟨b, hb, rfl⟩ := List.mem_map.mp hblock
    rw [hN, hK, hD] at hmem
    refine ⟨call.1, b, ?_, hmem⟩
    rw [begun_of hc]
    exact List.mem_range.mp hb

/-! ## From end to end -/

/-- No call of a decoder fails, and every packet belongs to a block of an encoder, of which no
message is handed over twice, and all when K different packets arrive. -/
structure EveryBlock (K : Nat) (configs : List config) (calls : List (Nat × List UInt8))
    (ids : Nat → Nat → UInt32) (arrivals : List arrival)
    (log : List (Option (error_t × List (List UInt8 × Int)))) : Prop where
  ok : ∀ entry ∈ log, ∃ seen, entry = some (0, seen)
  known : ∀ a ∈ arrivals, ∃ e b, b < begun configs calls e ∧ a.id = ids e b
  once : ∀ e b, b < begun configs calls e → List.Subperm (handed_of (ids e b) arrivals log)
    (noted (block_of K (entries_of e calls) b))
  whole : ∀ e b, b < begun configs calls e →
    K ≤ (indexes_of (ids e b) arrivals).dedup.length →
    (block_of K (entries_of e calls) b).length = K ∧
      (handed_of (ids e b) arrivals log).Perm (noted (block_of K (entries_of e calls) b))

/-- The decoders get packets of the blocks that the encoders have begun. -/
theorem blocks_are_delivered (hp : Params N.toNat K.toNat) (hN : N.toNat ≤ 32) (hD : D + 4 ≤ 65535)
    {senders receivers : List config} (hreceivers : ∀ c ∈ receivers, Receiver N K D c)
    (hnum : receivers ≠ [] ∧ receivers.length < 2 ^ 31) {calls : List (Nat × List UInt8)}
    (hcalls : ∀ call ∈ calls, call.2.length ≤ D) {ids : Nat → Nat → UInt32}
    (hinj : ∀ e b e' b', b < begun senders calls e → b' < begun senders calls e' →
      ids e b = ids e' b' → e = e' ∧ b = b') {receiver_idgen receiver_idgen' : idgen_t}
    {decoders : List nt_rs_fec_t}
    (hinit : fecs_init receivers receiver_idgen = some (decoders, receiver_idgen'))
    {arrivals : List arrival} (ha : ∀ a ∈ arrivals, a.answer = (fun _ _ _ => 0) ∧
      ∃ e b, b < begun senders calls e ∧ a.packet ∈ block_packets (rs_init N.toNat K.toNat D)
        (ids e b) (block_of K.toNat (entries_of e calls) b))
    (htime : ∀ q c, receivers[q]? = some c → InTime (UInt32.ofNat receivers.length) c q arrivals) :
    ∃ log, receive_all (UInt32.ofNat receivers.length) decoders arrivals = some log ∧
      EveryBlock K.toNat senders calls ids arrivals log := by
  obtain ⟨content, hcontent, hall⟩ := exists_content hinj
    fun e b => block_of K.toNat (entries_of e calls) b
  have hcontents : Contents K.toNat D content := fun id => by
    rcases hall id with hnone | ⟨e, b, -, heq⟩
    · rw [hnone]
      exact ⟨Nat.zero_le _, List.forall_mem_nil _⟩
    · rw [heq]
      refine ⟨List.length_take_le _ _, fun message hmem => ?_⟩
      have hentry := mem_entries_of.mp (List.mem_of_mem_drop (List.mem_of_mem_take hmem))
      exact hcalls _ hentry
  have hof : ∀ a ∈ arrivals, OfContent N.toNat K.toNat D content a ∧
      ∃ e b, b < begun senders calls e ∧ a.id = ids e b := fun a hmem => by
    obtain ⟨e, b, hb, hpacket⟩ := (ha a hmem).2
    rw [← hcontent e b hb] at hpacket
    refine ⟨⟨_, hpacket⟩, e, b, hb, ?_⟩
    obtain ⟨i, hi⟩ := List.mem_iff_getElem?.mp hpacket
    obtain ⟨payload, heq, -⟩ := genuine_of_getElem hi
    rw [arrival.id, heq]
    exact block_id_init ..
  obtain ⟨decoders', _, hinit', hside⟩ := side_start hreceivers receiver_idgen content arrivals
  rw [hinit, Option.some.injEq, Prod.mk.injEq] at hinit'
  obtain ⟨rfl, -⟩ := hinit'
  obtain ⟨log, hlog, hok, hhanded⟩ := side_run hp hN hD hcontents ⟨hnum.1, by omega⟩ htime arrivals
    (fun a hmem => ⟨hmem, (hof a hmem).1, (ha a hmem).1⟩) hside
  refine ⟨log, hlog, hok, fun a hmem => (hof a hmem).2, fun e b hb => ?_, fun e b hb hmany => ?_⟩
  · obtain ⟨hsub, -⟩ := handed_block hp hcontents (fun a hmem => (hof a hmem).1) (ids e b)
    rw [hhanded _ _ _ rfl rfl, ← hcontent e b hb]
    obtain ⟨part, hperm, hsublist⟩ := hsub
    exact ⟨noted part, hperm.map _, hsublist.map _⟩
  · obtain ⟨hfull, hperm⟩ :=
      (handed_block hp hcontents (fun a hmem => (hof a hmem).1) (ids e b)).2 hmany
    rw [hhanded _ _ _ rfl rfl, ← hcontent e b hb]
    exact ⟨hfull, hperm.map _⟩

/-- Encoders of one code on one generator emit fewer than 2^32 blocks, in any order of calls, and
any of their packets reach the receiving end, in any order and as often as the network likes. If
each decoder has buffers for the blocks that come to it, and no packet is too late, every message
of a block of which K different packets arrive is handed over exactly once, and no message of any
block twice. -/
theorem every_block_is_delivered (hp : Params N.toNat K.toNat) (hN : N.toNat ≤ 32)
    (hD : D + 4 ≤ 65535) {senders receivers : List config}
    (hsenders : ∀ c ∈ senders, Sender N K D c) (hreceivers : ∀ c ∈ receivers, Receiver N K D c)
    (hnum : receivers ≠ [] ∧ receivers.length < 2 ^ 31) {first idgen : idgen_t}
    {encoders : List nt_rs_fec_t} (hstart : fecs_init senders first = some (encoders, idgen))
    (receiver_idgen : idgen_t) {calls : List (Nat × List UInt8)}
    (hcalls : ∀ call ∈ calls, call.1 < senders.length ∧ call.2.length ≤ D)
    (hblocks : blocks_begun senders calls ≤ 2 ^ 32) :
    ∃ sent ids decoders receiver_idgen', encoders_run encoders idgen calls = some sent ∧
      (∀ e b e' b', b < begun senders calls e → b' < begun senders calls e' →
        ids e b = ids e' b' → e = e' ∧ b = b') ∧
      fecs_init receivers receiver_idgen = some (decoders, receiver_idgen') ∧
      ∀ arrivals : List arrival,
        (∀ a ∈ arrivals, a.packet ∈ (sent.map Prod.snd).flatten ∧ a.answer = fun _ _ _ => 0) →
        (∀ q c, receivers[q]? = some c → InTime (UInt32.ofNat receivers.length) c q arrivals) →
        ∃ log, receive_all (UInt32.ofNat receivers.length) decoders arrivals = some log ∧
          EveryBlock K.toNat senders calls ids arrivals log := by
  obtain ⟨sent, ids, hrun, hinj, hsent⟩ := encoders_sent hp hsenders hstart hcalls hblocks
  obtain ⟨decoders, receiver_idgen', hinit, -⟩ :=
    side_start hreceivers receiver_idgen (fun _ => []) []
  exact ⟨sent, ids, decoders, receiver_idgen', hrun, hinj, hinit, fun arrivals ha htime =>
    blocks_are_delivered hp hN hD hreceivers hnum (fun call hcall => (hcalls call hcall).2) hinj hinit
      (fun a hmem => ⟨(ha a hmem).2, hsent _ (ha a hmem).1⟩) htime⟩

end

/-- All that two encoders emit arrives at two decoders. -/
theorem every_block_is_delivered_two : ∃ encoders idgen sent ids decoders receiver_idgen log,
    fecs_init [⟨3, 2, 4, 2, 100, fun _ => 0⟩, ⟨3, 2, 4, 2, 100, fun _ => 0⟩] 5 =
      some (encoders, idgen) ∧
    encoders_run encoders idgen [(0, [7]), (1, [8]), (0, [])] = some sent ∧
    fecs_init [⟨3, 2, 4, 8, 100, fun _ => 0⟩, ⟨3, 2, 4, 9, 100, fun _ => 0⟩] 0 =
      some (decoders, receiver_idgen) ∧
    receive_all 2 decoders
      ((sent.map Prod.snd).flatten.map fun p => ⟨p, 1, fun _ _ _ => 0⟩) = some log ∧
    EveryBlock 2 [⟨3, 2, 4, 2, 100, fun _ => 0⟩, ⟨3, 2, 4, 2, 100, fun _ => 0⟩]
      [(0, [7]), (1, [8]), (0, [])] ids
      ((sent.map Prod.snd).flatten.map fun p => ⟨p, 1, fun _ _ _ => 0⟩) log := by
  have hrun : ((fecs_init [⟨3, 2, 4, 2, 100, fun _ => 0⟩, ⟨3, 2, 4, 2, 100, fun _ => 0⟩] 5).bind
      fun start => (encoders_run start.1 start.2 [(0, [7]), (1, [8]), (0, [])]).map
        fun sent => (sent.map Prod.snd).flatten.length) = some 4 := by decide +kernel
  simp only [Option.bind_eq_some_iff, Option.map_eq_some_iff] at hrun
  obtain ⟨⟨encoders, idgen⟩, hstart, sent, hsent, hlen⟩ := hrun
  have hreceivers : ∀ c ∈ [(⟨3, 2, 4, 8, 100, fun _ => 0⟩ : config), ⟨3, 2, 4, 9, 100, fun _ => 0⟩],
      Receiver 3 2 4 c := by
    intro c hc
    rcases List.mem_cons.mp hc with rfl | hc
    · exact ⟨⟨rfl, rfl, rfl⟩, by decide, by decide⟩
    · rw [List.mem_singleton.mp hc]
      exact ⟨⟨rfl, rfl, rfl⟩, by decide, by decide⟩
  have hcalls : ∀ call ∈ [((0, [7]) : Nat × List UInt8), (1, [8]), (0, [])],
      call.1 < 2 ∧ call.2.length ≤ 4 := by decide
  obtain ⟨sent', ids, decoders, receiver_idgen, hsent', -, hinit, hall⟩ :=
    every_block_is_delivered ⟨by decide, by decide, by decide⟩ (by decide) (by decide)
      (fun c hc => by
        rcases List.mem_cons.mp hc with rfl | hc
        · exact ⟨rfl, rfl, rfl⟩
        · rw [List.mem_singleton.mp hc]
          exact ⟨rfl, rfl, rfl⟩)
      hreceivers ⟨by simp, by decide⟩ hstart 0 hcalls (by decide +kernel)
  rw [hsent, Option.some.injEq] at hsent'
  subst hsent'
  obtain ⟨log, hlog, hevery⟩ := hall
    ((sent.map Prod.snd).flatten.map fun p => ⟨p, 1, fun _ _ _ => 0⟩) (fun a ha => by
      obtain ⟨p, hp, rfl⟩ := List.mem_map.mp ha
      exact ⟨hp, rfl⟩) (fun q c hc => by
      have hsize : 4 ≤ c.decode_buffer_size ∧ 0 ≤ c.decode_timeout := by
        rcases q with _ | _ | q <;> simp at hc <;> rw [← hc] <;> decide
      refine ⟨?_, fun clock hclock clock' hclock' => ?_⟩
      · refine (List.dedup_sublist _).length_le.trans (le_trans ?_ hsize.1)
        rw [keys_at, List.length_map, ← hlen]
        refine (List.length_filter_le _ _).trans_eq ?_
        rw [List.length_map]
      · have hone : ∀ clock ∈ clocks_at 2 q ((sent.map Prod.snd).flatten.map
            fun p => ⟨p, 1, fun _ _ _ => 0⟩), clock = 1 := fun clock hclock => by
          obtain ⟨a, ha, rfl⟩ := List.mem_map.mp hclock
          obtain ⟨p, -, rfl⟩ := List.mem_map.mp (List.mem_filter.mp ha).1
          rfl
        rw [hone clock hclock, hone clock' hclock']
        exact hsize.2)
  exact ⟨encoders, idgen, sent, ids, decoders, receiver_idgen, log, hstart, hsent, hinit, hlog, hevery⟩

end nettle.nt_rs_fec
