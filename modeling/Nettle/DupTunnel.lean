-- A tunnel with the duplicating FEC of nt_dup_fec.c at both ends: every message
-- goes out in N copies, and of those that arrive the first one is handed over.
import Nettle.DuplicatePackets
import Nettle.TunnelNetwork

open nettle.hashmap nettle.linked nettle.nt_fec
open nettle.nt_rs_fec (arrival config entries_of handed_of idgen_t idgen_next nt_tun_handle_read record
  same_id)

namespace nettle.nt_dup_fec

/-! ## Encoding -/

variable {σ : Type}

/-- The header of copy `i`. -/
def encode_header (fec : nt_dup_fec_t) (block_id : UInt32) (i size : Nat) : nt_fec_header_t :=
  nt_fec_header_init NT_DUP_FEC_TAG fec.N 1 block_id (UInt8.ofNat i) (UInt16.ofNat size)

/-- The loop over the copies, `rest` of them from `i` on; an error breaks it. -/
def encode_loop (fec : nt_dup_fec_t) (block_id : UInt32) (input : List UInt8)
    (callback : σ → nt_fec_header_t → List UInt8 → error_t × σ) : Nat → Nat → σ → error_t × σ
  | 0, _, extra => (0, extra)
  | rest + 1, i, extra =>
    let (err, extra) := callback extra (encode_header fec block_id i input.length) input
    if err ≠ 0 then (err, extra) else encode_loop fec block_id input callback rest (i + 1) extra

def nt_dup_fec_encode (fec : nt_dup_fec_t) (idgen : idgen_t) (input : List UInt8) (extra : σ)
    (callback : σ → nt_fec_header_t → List UInt8 → error_t × σ) : error_t × idgen_t × σ :=
  let (block_id, idgen) := idgen_next idgen
  let (err, extra) := encode_loop fec block_id input callback fec.N.toNat 0 extra
  (err, idgen, extra)

/-! ## The two ends -/

/-- Several codecs are initialised one after the other. -/
def fecs_init (configs : List config) : Option (List nt_dup_fec_t) :=
  configs.mapM fun c => nt_dup_fec_init c.N c.decode_buffer_size c.decode_timeout

/-- Calls of the encoders in any order, each with the packets that it emits. No packet is refused. -/
def encoders_run (fecs : List nt_dup_fec_t) : idgen_t → List (Nat × List UInt8) →
    Option (List (List nt_rs_fec.packet))
  | _, [] => some []
  | idgen, (e, input) :: calls => do
    let fec ← fecs[e]?
    let (_, idgen, sent) := nt_dup_fec_encode fec idgen input []
      fun sent header payload => (0, sent ++ [(header, payload)])
    let log ← encoders_run fecs idgen calls
    return sent :: log

/-- For each arrival the value of the call and what was handed over, nothing if it was dropped. -/
def receive_all (processor_num : UInt32) : List nt_dup_fec_t → List arrival →
    Option (List (Option (error_t × List (List UInt8 × Int))))
  | _, [] => some []
  | fecs, a :: arrivals =>
    match nt_tun_handle_read processor_num a.packet with
    | none => (receive_all processor_num fecs arrivals).map (none :: ·)
    | some (processor, header, payload) => do
      let fec ← fecs[processor]?
      let (err, fec, seen) ← nt_dup_fec_decode fec header payload a.clock []
        fun seen input => record a.answer seen input input.length
      let log ← receive_all processor_num (fecs.set processor fec) arrivals
      return some (err, seen) :: log

/-! ## Copies -/

/-- The copies of a message. -/
def copies (N : UInt8) (block_id : UInt32) (input : List UInt8) : List nt_rs_fec.packet :=
  (List.range N.toNat).map fun i => (nt_fec_header_init NT_DUP_FEC_TAG N 1 block_id (UInt8.ofNat i)
    (UInt16.ofNat input.length), input)

theorem encode_loop_all (fec : nt_dup_fec_t) (block_id : UInt32) (input : List UInt8) (rest i : Nat)
    (sent : List nt_rs_fec.packet) :
    encode_loop fec block_id input (fun sent header payload => (0, sent ++ [(header, payload)]))
      rest i sent = (0, sent ++ (List.range' i rest).map fun i =>
        (encode_header fec block_id i input.length, input)) := by
  induction rest generalizing i sent with
  | zero => simp [encode_loop]
  | succ rest ih =>
    unfold encode_loop
    simp only [ne_eq, not_true_eq_false, if_false]
    rw [ih, List.append_assoc, List.range'_succ, List.map_cons, List.singleton_append]

theorem encode_copies (fec : nt_dup_fec_t) (idgen : idgen_t) (input : List UInt8) :
    nt_dup_fec_encode fec idgen input [] (fun sent header payload => (0, sent ++ [(header, payload)]))
      = (0, idgen + 1, copies fec.N idgen input) := by
  unfold nt_dup_fec_encode
  simp only [idgen_next, encode_loop_all, List.nil_append, ← List.range_eq_range']
  rfl

/-- Call number `n` takes id number `n`. -/
theorem encoders_run_copies {fecs : List nt_dup_fec_t} {calls : List (Nat × List UInt8)}
    (hcalls : ∀ call ∈ calls, call.1 < fecs.length) (first : idgen_t) :
    ∃ sent, encoders_run fecs first calls = some sent ∧ sent.length = calls.length ∧
      ∀ n e input, calls[n]? = some (e, input) → ∃ fec, fecs[e]? = some fec ∧
        sent[n]? = some (copies fec.N (first + UInt32.ofNat n) input) := by
  induction calls generalizing first with
  | nil => exact ⟨[], rfl, rfl, fun n e input h => by simp at h⟩
  | cons call calls ih =>
    obtain ⟨e, input⟩ := call
    obtain ⟨fec, hfec⟩ : ∃ fec, fecs[e]? = some fec :=
      ⟨_, List.getElem?_eq_getElem (hcalls (e, input) List.mem_cons_self)⟩
    obtain ⟨sent, hrun, hlen, hsent⟩ := ih (fun call hcall =>
      hcalls call (List.mem_cons_of_mem _ hcall)) (first + 1)
    refine ⟨copies fec.N first input :: sent, ?_, congrArg Nat.succ hlen, fun n e' input' h => ?_⟩
    · unfold encoders_run
      simp only [hfec, encode_copies, hrun, Option.bind_eq_bind, Option.bind_some]
      rfl
    · cases n with
      | zero =>
        cases h
        exact ⟨fec, hfec, by simp⟩
      | succ n =>
        obtain ⟨fec, hfec', hn⟩ := hsent n e' input' h
        refine ⟨fec, hfec', ?_⟩
        rw [List.getElem?_cons_succ, hn, UInt32.ofNat_add, UInt32.add_comm (UInt32.ofNat n),
          ← UInt32.add_assoc]
        rfl

/-! ## One arrival -/

/-- The processor of the decoder that an arrival goes to. -/
def processor_of (processor_num : UInt32) (a : arrival) : Nat := (a.id % processor_num).toNat

/-- What the decoder of an arrival gets. -/
def at_decoder (processor_num : UInt32) (a : arrival) : packet :=
  ⟨nt_fec_header_set_block_id a.packet.1 (a.id / processor_num), a.packet.2, a.clock⟩

/-- What a decoder got before, and whether it handed it over; the newest packet comes first. -/
def history_at (processor_num : UInt32) (processor : Nat) (done : List (arrival × Bool)) :
    List (packet × Bool) :=
  (done.filter fun entry => processor_of processor_num entry.1 = processor).map fun entry =>
    (at_decoder processor_num entry.1, entry.2)

/-- A packet of the FEC with the right size. -/
structure Copy (a : arrival) : Prop where
  tag : a.packet.1.tag = NT_DUP_FEC_TAG
  K : a.packet.1.K = 1
  size : (nt_fec_header_payload_size a.packet.1).toNat = a.packet.2.length

/-- The caches remember what came to them. -/
def Caches (configs : List config) (done : List (arrival × Bool)) (fecs : List nt_dup_fec_t) :
    Prop :=
  fecs.length = configs.length ∧ ∀ q c, configs[q]? = some c → ∃ fec bs, fecs[q]? = some fec ∧
    fec.dedup_timeout = c.decode_timeout ∧
    Keeps fec.dedup_cache naive_equal_func c.decode_buffer_size bs ∧
    Remembers c.decode_buffer_size (history_at (UInt32.ofNat configs.length) q done) bs

/-- What is handed over. -/
def handed (a : arrival) (delivered : Bool) : List (List UInt8 × Int) :=
  if delivered then [(a.packet.2, (a.packet.2.length : Int))] else []

/-- A call that is told by the cache whether the packet is a duplicate. -/
theorem decode_dedup {fec : nt_dup_fec_t} {capacity : Nat} {bs : List (Nat × Int)} {p : packet}
    (h : Keeps fec.dedup_cache naive_equal_func capacity bs) (hpos : 0 < capacity)
    (hvalid : p.header.tag = NT_DUP_FEC_TAG ∧ p.header.K = 1) (extra : σ)
    (callback : σ → List UInt8 → error_t × σ) :
    ∃ fec', nt_dup_fec_decode fec p.header p.input p.current extra callback =
        some (if (dedup_step capacity fec.dedup_timeout bs (block_id p) p.current).1 then
          (0, fec', extra)
        else ((callback extra p.input).1, fec', (callback extra p.input).2)) ∧
      fec'.dedup_timeout = fec.dedup_timeout ∧ Keeps fec'.dedup_cache naive_equal_func capacity
        (dedup_step capacity fec.dedup_timeout bs (block_id p) p.current).2 := by
  obtain ⟨cache, hdedup, hkeeps⟩ := dedup_keeps h hpos (block_id p) p.current
  have hcapacity := h.1
  refine ⟨{ fec with dedup_cache := cache }, ?_, rfl, hkeeps⟩
  unfold nt_dup_fec_decode
  rw [if_neg (by rw [not_or]; exact ⟨not_not.mpr hvalid.1, not_not.mpr hvalid.2⟩),
    if_pos (by rw [hcapacity]; exact hpos)]
  rw [block_id] at hdedup
  simp only [hdedup, Option.bind_eq_bind, Option.bind_some]
  rw [← block_id]
  cases (dedup_step capacity fec.dedup_timeout bs (block_id p) p.current).1 <;> rfl

theorem caches_step {configs : List config} (hnum : configs ≠ [] ∧ configs.length < 2 ^ 32)
    (hconfigs : ∀ c ∈ configs, 2 ≤ c.decode_buffer_size) {done : List (arrival × Bool)}
    {fecs : List nt_dup_fec_t} (h : Caches configs done fecs) {a : arrival} (ha : Copy a)
    (hclock : ∀ entry ∈ done, entry.1.clock ≤ a.clock) {q : Nat}
    (hq : q = processor_of (UInt32.ofNat configs.length) a) :
    ∃ c header payload fec fec' err delivered, configs[q]? = some c ∧
      nt_tun_handle_read (UInt32.ofNat configs.length) a.packet = some (q, header, payload) ∧
      fecs[q]? = some fec ∧
      (nt_dup_fec_decode fec header payload a.clock [] fun seen input =>
        record a.answer seen input input.length) = some (err, fec', handed a delivered) ∧
      (delivered = false → err = 0) ∧ Caches configs ((a, delivered) :: done) (fecs.set q fec') ∧
      Judged c.decode_buffer_size c.decode_timeout
        (history_at (UInt32.ofNat configs.length) q done)
        (at_decoder (UInt32.ofNat configs.length) a) delivered := by
  have hlt : q < configs.length := by
    rw [hq, processor_of, UInt32.toNat_mod, UInt32.toNat_ofNat_of_lt' hnum.2]
    exact Nat.mod_lt _ (List.length_pos_iff.mpr hnum.1)
  have hc := List.getElem?_eq_getElem hlt
  obtain ⟨hlen, hcaches⟩ := h
  obtain ⟨fec, bs, hfec, htimeout, hkeeps, hremembers⟩ := hcaches q _ hc
  have hpos : 0 < configs[q].decode_buffer_size :=
    Nat.lt_of_lt_of_le Nat.zero_lt_two (hconfigs _ (List.getElem_mem hlt))
  let p := at_decoder (UInt32.ofNat configs.length) a
  obtain ⟨fec', hdecode, htimeout', hkeeps'⟩ := decode_dedup (p := p) hkeeps hpos
    ⟨ha.tag, ha.K⟩ ([] : List (List UInt8 × Int))
    fun seen input => record a.answer seen input input.length
  have hbefore : ∀ entry ∈ history_at (UInt32.ofNat configs.length) q done,
      entry.1.current ≤ p.current := fun entry hentry => by
    obtain ⟨e, he, rfl⟩ := List.mem_map.mp hentry
    exact hclock e (List.mem_filter.mp he).1
  have hremembers' := step_remembers configs[q].decode_timeout hremembers hpos hbefore
  rw [htimeout] at hdecode hkeeps' htimeout'
  generalize hstep : dedup_step configs[q].decode_buffer_size configs[q].decode_timeout bs
    (block_id p) p.current = step at hdecode hkeeps' hremembers'
  refine ⟨_, p.header, p.input, fec, fec', if step.1 then 0 else a.answer [] p.input p.input.length,
    !step.1, hc, ?_, hfec, ?_, fun hdup => ?_, ⟨List.length_set.trans hlen, fun q' c hc' => ?_⟩, ?_⟩
  · unfold nt_tun_handle_read nt_fec_message_size
    rw [ha.size, if_neg (fun hne => hne rfl)]
    simp only
    rw [hq]
    rfl
  · rw [show a.clock = p.current from rfl, hdecode]
    cases step.1 <;> rfl
  · rw [Bool.not_eq_false'] at hdup
    rw [if_pos hdup]
  · by_cases heq : q = q'
    · subst heq
      rw [hc, Option.some.injEq] at hc'
      subst hc'
      refine ⟨fec', step.2, List.getElem?_set_self (hlen ▸ hlt), htimeout', hkeeps', ?_⟩
      rw [history_at, List.filter_cons_of_pos (by rw [hq]; exact decide_eq_true rfl), List.map_cons]
      exact hremembers'
    · obtain ⟨fec₀, bs₀, hfec₀, htimeout₀, hkeeps₀, hremembers₀⟩ := hcaches q' c hc'
      refine ⟨fec₀, bs₀, by rw [List.getElem?_set_ne heq, hfec₀], htimeout₀, hkeeps₀, ?_⟩
      rw [history_at, List.filter_cons_of_neg (by
        rw [← hq, decide_eq_true_eq]
        exact heq)]
      exact hremembers₀
  · rw [← hstep]
    refine ⟨fun hdup => suppressed_only_if hremembers (by simpa using hdup), fun hjust hfew => ?_⟩
    rw [suppressed_if hremembers hjust hfew]
    rfl

/-! ## Arrival after arrival -/

/-- What there is to be seen of an arrival: it was handed over or not, as its cache judges. -/
def Seen (configs : List config) (done : List (arrival × Bool)) (a : arrival)
    (entry : Option (error_t × List (List UInt8 × Int))) (delivered : Bool) : Prop :=
  ∃ c err, configs[processor_of (UInt32.ofNat configs.length) a]? = some c ∧
    entry = some (err, handed a delivered) ∧ (delivered = false → err = 0) ∧
    Judged c.decode_buffer_size c.decode_timeout (history_at (UInt32.ofNat configs.length)
      (processor_of (UInt32.ofNat configs.length) a) done)
      (at_decoder (UInt32.ofNat configs.length) a) delivered

theorem caches_run {configs : List config} (hnum : configs ≠ [] ∧ configs.length < 2 ^ 32)
    (hconfigs : ∀ c ∈ configs, 2 ≤ c.decode_buffer_size) (arrivals : List arrival)
    (ha : ∀ a ∈ arrivals, Copy a) (hclock : arrivals.Pairwise fun a a' => a.clock ≤ a'.clock)
    {done : List (arrival × Bool)}
    (hlater : ∀ entry ∈ done, ∀ a ∈ arrivals, entry.1.clock ≤ a.clock) {fecs : List nt_dup_fec_t}
    (h : Caches configs done fecs) :
    ∃ (log : List (Option (error_t × List (List UInt8 × Int)))) (delivered : List Bool),
      receive_all (UInt32.ofNat configs.length) fecs arrivals = some log ∧
      log.length = arrivals.length ∧ delivered.length = arrivals.length ∧
      ∀ (n : Nat) (a : arrival) (entry : Option (error_t × List (List UInt8 × Int))) (d : Bool),
        arrivals[n]? = some a → log[n]? = some entry → delivered[n]? = some d →
          Seen configs (((arrivals.zip delivered).take n).reverse ++ done) a entry d := by
  induction arrivals generalizing done fecs with
  | nil => exact ⟨[], [], rfl, rfl, rfl, fun n a entry d h => by simp at h⟩
  | cons a arrivals ih =>
    obtain ⟨ha_a, ha⟩ := List.forall_mem_cons.mp ha
    obtain ⟨hclock_a, hclock⟩ := List.pairwise_cons.mp hclock
    obtain ⟨c, header, payload, fec, fec', err, d, hc, hread, hfec, hdecode, herr, hnext, hjudged⟩ :=
      caches_step hnum hconfigs h ha_a (fun entry hentry => hlater entry hentry a List.mem_cons_self)
        rfl
    obtain ⟨log, delivered, hlog, hlen, hlen', hseen⟩ := ih ha hclock (fun entry hentry a' ha' => by
      rcases List.mem_cons.mp hentry with rfl | hentry
      · exact hclock_a a' ha'
      · exact hlater entry hentry a' (List.mem_cons_of_mem a ha')) hnext
    refine ⟨some (err, handed a d) :: log, d :: delivered, ?_, congrArg Nat.succ hlen,
      congrArg Nat.succ hlen', fun n a' entry d' ha' hentry hd' => ?_⟩
    · unfold receive_all
      simp only [hread, hfec, hdecode, hlog, Option.bind_eq_bind, Option.bind_some]
      rfl
    · cases n with
      | zero =>
        obtain rfl := Option.some.inj ha'
        obtain rfl := Option.some.inj hentry
        obtain rfl := Option.some.inj hd'
        exact ⟨c, err, hc, rfl, herr, hjudged⟩
      | succ n =>
        rw [List.zip_cons_cons, List.take_succ_cons, List.reverse_cons, List.append_assoc]
        exact hseen n a' entry d' ha' hentry hd'

theorem caches_start {configs : List config} (h : ∀ c ∈ configs, 2 ≤ c.decode_buffer_size) :
    ∃ fecs, fecs_init configs = some fecs ∧ Caches configs [] fecs := by
  unfold fecs_init
  suffices hall : ∃ fecs, (configs.mapM fun c =>
      nt_dup_fec_init c.N c.decode_buffer_size c.decode_timeout) = some fecs ∧
      fecs.length = configs.length ∧ ∀ (q : Nat) (c : config), configs[q]? = some c →
        ∃ fec, fecs[q]? = some fec ∧ fec.N = c.N ∧ fec.dedup_timeout = c.decode_timeout ∧
          Keeps fec.dedup_cache naive_equal_func c.decode_buffer_size [] by
    obtain ⟨fecs, hinit, hlen, hfecs⟩ := hall
    refine ⟨fecs, hinit, hlen, fun q c hc => ?_⟩
    obtain ⟨fec, hfec, -, htimeout, hkeeps⟩ := hfecs q c hc
    exact ⟨fec, [], hfec, htimeout, hkeeps, by simp [recency.last_used, history_at],
      List.forall_mem_nil _, List.forall_mem_nil _⟩
  induction configs with
  | nil => exact ⟨[], rfl, rfl, fun q c hc => by simp at hc⟩
  | cons c₀ configs ih =>
    obtain ⟨hc₀, h⟩ := List.forall_mem_cons.mp h
    obtain ⟨cache, hcache, hkeeps⟩ := lrumap_init1_keeps (β := Int) lawful_naive hc₀
    have hinit₀ : nt_dup_fec_init c₀.N c₀.decode_buffer_size c₀.decode_timeout =
        some ⟨c₀.N, cache, c₀.decode_timeout⟩ := by
      simp only [nt_dup_fec_init, hcache, Option.bind_eq_bind, Option.bind_some]
      rfl
    obtain ⟨fecs, hinit, hlen, hfecs⟩ := ih h
    refine ⟨⟨c₀.N, cache, c₀.decode_timeout⟩ :: fecs, ?_, congrArg Nat.succ hlen, fun q c hc => ?_⟩
    · rw [List.mapM_cons]
      simp only [hinit₀, hinit, Option.bind_eq_bind, Option.bind_some]
      rfl
    · cases q with
      | zero =>
        obtain rfl := Option.some.inj hc
        exact ⟨_, rfl, rfl, rfl, hkeeps⟩
      | succ q => exact hfecs q c hc

/-! ## Block ids -/

section

variable {processor_num : UInt32} {a : arrival} {done : List (arrival × Bool)}

/-- At one decoder a key stands for an id. -/
theorem block_id_at_decoder {a' : arrival}
    (h : processor_of processor_num a' = processor_of processor_num a) :
    block_id (at_decoder processor_num a') = block_id (at_decoder processor_num a) ↔
      a'.id = a.id := by
  simp only [block_id, at_decoder, block_id_set]
  refine ⟨fun heq => same_id h (UInt32.toNat_inj.mp heq), fun heq => by rw [heq]⟩

theorem just_delivered_iff (timeout : Int) :
    JustDelivered (history_at processor_num (processor_of processor_num a) done) timeout
        (at_decoder processor_num a) ↔
      ∃ entry ∈ done, entry.2 = true ∧ entry.1.id = a.id ∧ a.clock - entry.1.clock ≤ timeout := by
  constructor
  · rintro ⟨h, hmem, hdelivered, hid, htime⟩
    obtain ⟨entry, hentry, rfl⟩ := List.mem_map.mp hmem
    obtain ⟨hentry, hsame⟩ := List.mem_filter.mp hentry
    exact ⟨entry, hentry, hdelivered, (block_id_at_decoder (of_decide_eq_true hsame)).mp hid, htime⟩
  · rintro ⟨entry, hentry, hdelivered, hid, htime⟩
    have hsame : processor_of processor_num entry.1 = processor_of processor_num a := by
      rw [processor_of, processor_of, hid]
    exact ⟨_, List.mem_map_of_mem (List.mem_filter.mpr ⟨hentry, decide_eq_true hsame⟩), hdelivered,
      (block_id_at_decoder hsame).mpr hid, htime⟩

/-- The ids of the packets that came to the decoder of an arrival since the last one of its id; the
newest comes first. -/
def ids_since (processor_num : UInt32) (earlier : List arrival) (a : arrival) : List UInt32 :=
  ((earlier.filter fun a' => processor_of processor_num a' = processor_of processor_num a).map
    arrival.id).takeWhile (· ≠ a.id)

theorem card_others_since : (others_since (history_at processor_num (processor_of processor_num a)
    done) (at_decoder processor_num a)).toFinset.card ≤
      (ids_since processor_num (done.map Prod.fst) a).toFinset.card := by
  have hkeys : others_since (history_at processor_num (processor_of processor_num a) done)
      (at_decoder processor_num a) = (ids_since processor_num (done.map Prod.fst) a).map
        fun id => (id / processor_num).toNat := by
    rw [others_since, ids_since, history_at]
    induction done with
    | nil => rfl
    | cons entry done ih =>
      by_cases hsame : processor_of processor_num entry.1 = processor_of processor_num a
      · have hid := block_id_at_decoder hsame
        simp only [List.filter_cons, List.map_cons, hsame, decide_true, if_true]
        by_cases heq : entry.1.id = a.id
        · rw [List.takeWhile_cons_of_neg (by simpa using hid.mpr heq),
            List.takeWhile_cons_of_neg (by simpa using heq), List.map_nil]
        · rw [List.takeWhile_cons_of_pos (by simpa using fun h => heq (hid.mp h)),
            List.takeWhile_cons_of_pos (by simpa using heq), List.map_cons, ih]
          simp [block_id, at_decoder]
      · simp only [List.filter_cons, List.map_cons, hsame, decide_false, Bool.false_eq_true, if_false]
        exact ih
  have himage : ((ids_since processor_num (done.map Prod.fst) a).map
      fun id => (id / processor_num).toNat).toFinset =
        (ids_since processor_num (done.map Prod.fst) a).toFinset.image
          fun id => (id / processor_num).toNat := by
    ext key
    simp
  rw [hkeys, himage]
  exact Finset.card_image_le

end

/-! ## From end to end -/

/-- No packet of the id is too late after the first one, and between two of them there are fewer
ids at the decoder than its cache has room for. -/
def Prompt (configs : List config) (arrivals : List arrival) (id : UInt32) : Prop :=
  let processor_num := UInt32.ofNat configs.length
  ∀ (n : Nat) (a : arrival) (c : config), arrivals[n]? = some a → a.id = id →
    configs[processor_of processor_num a]? = some c →
    (∀ a' ∈ arrivals.take n, a'.id = id → a.clock - a'.clock ≤ c.decode_timeout) ∧
      ((∃ a' ∈ arrivals.take n, a'.id = id) →
        (ids_since processor_num (arrivals.take n).reverse a).toFinset.card < c.decode_buffer_size)

/-- Of some things at the front of a list there is a first one. -/
theorem exists_first {α : Type} {P : α → Prop} {l : List α} {n : Nat} (h : ∃ x ∈ l.take n, P x) :
    ∃ m x, m < n ∧ l[m]? = some x ∧ P x ∧ ∀ y ∈ l.take m, ¬P y := by
  induction n with
  | zero => simp at h
  | succ n ih =>
    by_cases hbefore : ∃ x ∈ l.take n, P x
    · obtain ⟨m, x, hlt, hrest⟩ := ih hbefore
      exact ⟨m, x, Nat.lt_succ_of_lt hlt, hrest⟩
    · obtain ⟨x, hmem, hx⟩ := h
      rw [List.take_add_one, List.mem_append] at hmem
      have hlast := Option.mem_toList.mp (hmem.resolve_left fun hmem => hbefore ⟨x, hmem, hx⟩)
      exact ⟨n, x, Nat.lt_succ_self n, hlast, hx, fun y hy hp => hbefore ⟨y, hy, hp⟩⟩

section

variable {configs : List config} {arrivals : List arrival} {delivered : List Bool}
  {log : List (Option (error_t × List (List UInt8 × Int)))}

/-- The first packet of an id is handed over; of a prompt one, no other. -/
theorem delivered_first (hlen : log.length = arrivals.length)
    (hlen' : delivered.length = arrivals.length)
    (hseen : ∀ (n : Nat) (a : arrival) (entry : Option (error_t × List (List UInt8 × Int))) (d : Bool),
      arrivals[n]? = some a → log[n]? = some entry → delivered[n]? = some d →
        Seen configs ((arrivals.zip delivered).take n).reverse a entry d)
    {n : Nat} {a : arrival} {d : Bool} (ha : arrivals[n]? = some a) (hd : delivered[n]? = some d) :
    ((∀ a' ∈ arrivals.take n, a'.id ≠ a.id) → d = true) ∧
      (Prompt configs arrivals a.id → (∃ a' ∈ arrivals.take n, a'.id = a.id) → d = false) := by
  have hentry : ∀ {n : Nat} {a : arrival}, arrivals[n]? = some a →
      ∃ entry, log[n]? = some entry := fun h =>
    ⟨_, List.getElem?_eq_getElem (hlen ▸ (List.getElem?_eq_some_iff.mp h).1)⟩
  have hmem : ∀ {n : Nat} {entry : arrival × Bool}, entry ∈ ((arrivals.zip delivered).take n).reverse →
      entry.1 ∈ arrivals.take n := fun {n entry} h => by
    have hmap := List.mem_map_of_mem (f := Prod.fst) (List.mem_reverse.mp h)
    rwa [List.map_take, List.map_fst_zip hlen'.ge] at hmap
  have hfirst : ∀ {n : Nat} {a : arrival} {d : Bool}, arrivals[n]? = some a →
      delivered[n]? = some d → (∀ a' ∈ arrivals.take n, a'.id ≠ a.id) → d = true := by
    intro n a d ha hd hnone
    obtain ⟨entry, hlog⟩ := hentry ha
    obtain ⟨c, err, hc, -, -, hjudged⟩ := hseen n a entry d ha hlog hd
    by_contra hnot
    obtain ⟨e, he, -, hid, -⟩ := (just_delivered_iff _).mp (hjudged.1 (by simpa using hnot))
    exact hnone e.1 (hmem he) hid
  refine ⟨hfirst ha hd, fun hprompt hexists => ?_⟩
  obtain ⟨entry, hlog⟩ := hentry ha
  obtain ⟨c, err, hc, -, -, hjudged⟩ := hseen n a entry d ha hlog hd
  obtain ⟨htime, hfew⟩ := hprompt n a c ha rfl hc
  -- the first packet of the id was handed over
  obtain ⟨m, a', hltn, hm, hid, hleast⟩ := exists_first hexists
  rw [← hid] at hleast
  obtain ⟨d', hd'⟩ : ∃ d', delivered[m]? = some d' :=
    ⟨_, List.getElem?_eq_getElem (hlen' ▸ (List.getElem?_eq_some_iff.mp hm).1)⟩
  obtain rfl := hfirst hm hd' hleast
  have hbefore : (a', true) ∈ ((arrivals.zip delivered).take n).reverse := by
    rw [List.mem_reverse]
    refine List.mem_iff_getElem?.mpr ⟨m, ?_⟩
    rw [List.getElem?_take_of_lt hltn, List.getElem?_zip_eq_some]
    exact ⟨hm, hd'⟩
  refine hjudged.2 ((just_delivered_iff _).mpr ⟨_, hbefore, rfl, hid, htime a' ?_ hid⟩)
    (card_others_since.trans_lt ?_)
  · exact hmem hbefore
  · rw [List.map_reverse, List.map_take, List.map_fst_zip hlen'.ge]
    exact hfew hexists

end

theorem handed_of_none {id : UInt32} {arrivals : List arrival}
    {log : List (Option (error_t × List (List UInt8 × Int)))}
    (h : ∀ (n : Nat) (a : arrival) (entry : Option (error_t × List (List UInt8 × Int))),
      arrivals[n]? = some a → a.id = id → log[n]? = some entry → (entry.map Prod.snd).getD [] = []) :
    handed_of id arrivals log = [] := by
  induction arrivals generalizing log with
  | nil => rfl
  | cons a arrivals ih =>
    cases log with
    | nil => rfl
    | cons entry log =>
      have hrest := ih fun n a' entry' ha hid hentry => h (n + 1) a' entry' ha hid hentry
      rw [nt_rs_fec.handed_of_cons, hrest, List.append_nil]
      split
      · next hid => exact h 0 a entry rfl hid rfl
      · rfl

/-- If the first packet of an id hands over `x` and the others nothing, `x` is all. -/
theorem handed_of_first {id : UInt32} {x : List UInt8 × Int} {arrivals : List arrival}
    {log : List (Option (error_t × List (List UInt8 × Int)))} (hlen : log.length = arrivals.length)
    (hcome : ∃ a ∈ arrivals, a.id = id)
    (h : ∀ (n : Nat) (a : arrival) (entry : Option (error_t × List (List UInt8 × Int))),
      arrivals[n]? = some a → a.id = id → log[n]? = some entry →
        ((∀ a' ∈ arrivals.take n, a'.id ≠ id) → (entry.map Prod.snd).getD [] = [x]) ∧
        ((∃ a' ∈ arrivals.take n, a'.id = id) → (entry.map Prod.snd).getD [] = [])) :
    handed_of id arrivals log = [x] := by
  induction arrivals generalizing log with
  | nil =>
    obtain ⟨a, ha, -⟩ := hcome
    exact absurd ha List.not_mem_nil
  | cons a arrivals ih =>
    obtain ⟨entry, log, rfl⟩ := List.exists_cons_of_length_eq_add_one hlen
    rw [nt_rs_fec.handed_of_cons]
    by_cases hid : a.id = id
    · have hnone : handed_of id arrivals log = [] := handed_of_none fun n a' entry' ha hid' hentry =>
        (h (n + 1) a' entry' ha hid' hentry).2 ⟨a, List.mem_cons_self, hid⟩
      rw [if_pos hid, hnone, List.append_nil]
      exact (h 0 a entry rfl hid rfl).1 (List.forall_mem_nil _)
    · rw [if_neg hid]
      refine ih (Nat.succ.inj hlen) ?_ fun n a' entry' ha hid' hentry => ?_
      · obtain ⟨a', ha', hid'⟩ := hcome
        exact ⟨a', (List.mem_cons.mp ha').resolve_left fun heq => hid (heq ▸ hid'), hid'⟩
      · obtain ⟨hfirst, hother⟩ := h (n + 1) a' entry' ha hid' hentry
        refine ⟨fun hnone => hfirst fun a'' ha'' => ?_, fun ⟨a'', ha'', hid''⟩ =>
          hother ⟨a'', List.mem_cons_of_mem a ha'', hid''⟩⟩
        rcases List.mem_cons.mp ha'' with rfl | ha''
        · exact hid
        · exact hnone a'' ha''

/-- A packet hands over the message of its call or nothing; of every call of which a packet arrives
the message is handed over, and exactly once if its packets are prompt. -/
structure EveryMessage (receivers : List config) (calls : List (Nat × List UInt8)) (first : UInt32)
    (arrivals : List arrival) (log : List (Option (error_t × List (List UInt8 × Int)))) : Prop where
  length : log.length = arrivals.length
  sound : ∀ (n : Nat) (a : arrival) (entry : Option (error_t × List (List UInt8 × Int))),
    arrivals[n]? = some a → log[n]? = some entry →
      ∃ k e input err, calls[k]? = some (e, input) ∧ a.id = first + UInt32.ofNat k ∧
        (entry = some (err, [(input, (input.length : Int))]) ∨ entry = some (0, []))
  delivered : ∀ (k e : Nat) (input : List UInt8), calls[k]? = some (e, input) →
    (∃ a ∈ arrivals, a.id = first + UInt32.ofNat k) →
      (input, (input.length : Int)) ∈ handed_of (first + UInt32.ofNat k) arrivals log
  once : ∀ (k e : Nat) (input : List UInt8), calls[k]? = some (e, input) →
    (∃ a ∈ arrivals, a.id = first + UInt32.ofNat k) →
      Prompt receivers arrivals (first + UInt32.ofNat k) →
        handed_of (first + UInt32.ofNat k) arrivals log = [(input, (input.length : Int))]

/-- The decoders get copies of the messages. -/
theorem messages_are_delivered {receivers : List config}
    (hreceivers : ∀ c ∈ receivers, 2 ≤ c.decode_buffer_size)
    (hnum : receivers ≠ [] ∧ receivers.length < 2 ^ 31) {calls : List (Nat × List UInt8)}
    (hcalls : ∀ call ∈ calls, call.2.length ≤ 65535) (hcount : calls.length ≤ 2 ^ 32)
    {first : idgen_t} {decoders : List nt_dup_fec_t} (hdecoders : fecs_init receivers = some decoders)
    {arrivals : List arrival}
    (ha : ∀ a ∈ arrivals, ∃ k e input N, calls[k]? = some (e, input) ∧
      a.packet ∈ copies N (first + UInt32.ofNat k) input)
    (hclock : arrivals.Pairwise fun a a' => a.clock ≤ a'.clock) :
    ∃ log, receive_all (UInt32.ofNat receivers.length) decoders arrivals = some log ∧
      EveryMessage receivers calls first arrivals log := by
  obtain ⟨decoders', hdecoders', hstart⟩ := caches_start hreceivers
  rw [hdecoders, Option.some.injEq] at hdecoders'
  subst hdecoders'
  -- the call of a packet
  have hcall : ∀ a ∈ arrivals, Copy a ∧ ∃ k e, calls[k]? = some (e, a.packet.2) ∧
      a.id = first + UInt32.ofNat k := by
    intro a hmem
    obtain ⟨k, e, input, N, hk, hp⟩ := ha a hmem
    obtain ⟨i, -, heq⟩ := List.mem_map.mp hp
    have hsize : input.length < 2 ^ 16 := Nat.lt_succ_of_le (hcalls _ (List.mem_of_getElem? hk))
    refine ⟨⟨by rw [← heq]; rfl, by rw [← heq]; rfl, ?_⟩, k, e, by rw [← heq]; exact hk, ?_⟩
    · rw [← heq, payload_size_init, UInt16.toNat_ofNat_of_lt' hsize]
    · rw [arrival.id, ← heq]
      exact block_id_init ..
  have hsame : ∀ {k k' : Nat} {e e' : Nat} {input input' : List UInt8},
      calls[k]? = some (e, input) → calls[k']? = some (e', input') →
      first + UInt32.ofNat k = first + UInt32.ofNat k' → input = input' := by
    intro k k' e e' input input' hk hk' heq
    have hlt := (List.getElem?_eq_some_iff.mp hk).1
    have hlt' := (List.getElem?_eq_some_iff.mp hk').1
    have heq := congrArg UInt32.toNat ((UInt32.add_right_inj first).mp heq)
    rw [UInt32.toNat_ofNat_of_lt' (hlt.trans_le hcount),
      UInt32.toNat_ofNat_of_lt' (hlt'.trans_le hcount)] at heq
    rw [heq, hk', Option.some.injEq, Prod.mk.injEq] at hk
    exact hk.2.symm
  obtain ⟨log, delivered, hlog, hlength, hlength', hseen⟩ := caches_run ⟨hnum.1, by omega⟩ hreceivers
    arrivals (fun a hmem => (hcall a hmem).1) hclock
    (fun entry hentry => absurd hentry List.not_mem_nil) hstart
  simp only [List.append_nil] at hseen
  have hflag : ∀ {n : Nat} {a : arrival}, arrivals[n]? = some a → ∃ d, delivered[n]? = some d :=
    fun h => ⟨_, List.getElem?_eq_getElem (hlength' ▸ (List.getElem?_eq_some_iff.mp h).1)⟩
  refine ⟨log, hlog, hlength, fun n a entry hn hentry => ?_, fun k e input hk hcome => ?_,
    fun k e input hk hcome hprompt => ?_⟩
  · obtain ⟨d, hd⟩ := hflag hn
    obtain ⟨c, err, -, rfl, herr, -⟩ := hseen n a entry d hn hentry hd
    obtain ⟨-, k, e, hk, hid⟩ := hcall a (List.mem_of_getElem? hn)
    refine ⟨k, e, a.packet.2, err, hk, hid, ?_⟩
    cases d with
    | false => exact Or.inr (by rw [herr rfl]; rfl)
    | true => exact Or.inl rfl
  · -- the first packet of the call
    obtain ⟨a₀, hmem₀, hid₀⟩ := hcome
    obtain ⟨n, a, -, hn, hid, hnone⟩ := exists_first (P := fun a : arrival =>
      a.id = first + UInt32.ofNat k) (l := arrivals) (n := arrivals.length)
      ⟨a₀, by rwa [List.take_length], hid₀⟩
    obtain ⟨d, hd⟩ := hflag hn
    obtain ⟨entry, hentry⟩ : ∃ entry, log[n]? = some entry :=
      ⟨_, List.getElem?_eq_getElem (hlength ▸ (List.getElem?_eq_some_iff.mp hn).1)⟩
    obtain ⟨c, err, -, rfl, -, -⟩ := hseen n a entry d hn hentry hd
    obtain rfl := (delivered_first hlength hlength' hseen hn hd).1 (by rwa [hid])
    obtain ⟨-, k', e', hk', hid'⟩ := hcall a (List.mem_of_getElem? hn)
    rw [hsame hk hk' (hid.symm.trans hid')]
    refine List.mem_flatMap.mpr ⟨(a, some (err, handed a true)), List.mem_filter.mpr ⟨?_,
      decide_eq_true hid⟩, List.mem_cons_self⟩
    exact List.mem_iff_getElem?.mpr ⟨n, List.getElem?_zip_eq_some.mpr ⟨hn, hentry⟩⟩
  · refine handed_of_first hlength hcome fun n a entry hn hid hentry => ?_
    obtain ⟨d, hd⟩ := hflag hn
    obtain ⟨c, err, -, rfl, -, -⟩ := hseen n a entry d hn hentry hd
    obtain ⟨hfirst, hother⟩ := delivered_first hlength hlength' hseen hn hd
    obtain ⟨-, k', e', hk', hid'⟩ := hcall a (List.mem_of_getElem? hn)
    rw [hid] at hfirst hother
    refine ⟨fun hnone => ?_, fun hsome => ?_⟩
    · rw [hfirst hnone, hsame hk hk' (hid.symm.trans hid')]
      rfl
    · rw [hother hprompt hsome]
      rfl

/-- Encoders of any N on one generator emit the copies of fewer than 2^32 messages, and any of
these packets arrive, in any order and as often as the network likes: every message of which a
packet arrives is handed over, a prompt one exactly once, and nothing else is. -/
theorem every_message_is_delivered {senders receivers : List config}
    (hsenders : ∀ c ∈ senders, 2 ≤ c.decode_buffer_size)
    (hreceivers : ∀ c ∈ receivers, 2 ≤ c.decode_buffer_size)
    (hnum : receivers ≠ [] ∧ receivers.length < 2 ^ 31) {calls : List (Nat × List UInt8)}
    (hcalls : ∀ call ∈ calls, call.1 < senders.length ∧ call.2.length ≤ 65535)
    (hcount : calls.length ≤ 2 ^ 32) (first : idgen_t) :
    ∃ encoders sent decoders, fecs_init senders = some encoders ∧
      encoders_run encoders first calls = some sent ∧ fecs_init receivers = some decoders ∧
      ∀ arrivals : List arrival, (∀ a ∈ arrivals, a.packet ∈ sent.flatten) →
        (arrivals.Pairwise fun a a' => a.clock ≤ a'.clock) →
        ∃ log, receive_all (UInt32.ofNat receivers.length) decoders arrivals = some log ∧
          EveryMessage receivers calls first arrivals log := by
  obtain ⟨encoders, hencoders, hcaches, -⟩ := caches_start hsenders
  obtain ⟨decoders, hdecoders, -⟩ := caches_start hreceivers
  obtain ⟨sent, hrun, hlen, hsent⟩ := encoders_run_copies
    (fun call hcall => hcaches ▸ (hcalls call hcall).1) first
  refine ⟨encoders, sent, decoders, hencoders, hrun, hdecoders, fun arrivals ha hclock =>
    messages_are_delivered hreceivers hnum (fun call hcall => (hcalls call hcall).2) hcount hdecoders
      (fun a hmem => ?_) hclock⟩
  obtain ⟨packets, hpackets, hp⟩ := List.mem_flatten.mp (ha a hmem)
  obtain ⟨k, hk⟩ := List.mem_iff_getElem?.mp hpackets
  have hlt : k < calls.length := hlen ▸ (List.getElem?_eq_some_iff.mp hk).1
  obtain ⟨⟨e, input⟩, hkc⟩ : ∃ call, calls[k]? = some call := ⟨_, List.getElem?_eq_getElem hlt⟩
  obtain ⟨fec, -, hcopies⟩ := hsent k e input hkc
  rw [hcopies, Option.some.injEq] at hk
  exact ⟨k, e, input, fec.N, hkc, hk ▸ hp⟩

/-- Of two messages in two copies each, all packets arrive twice. -/
theorem every_message_is_delivered_two : ∃ encoders sent decoders log,
    fecs_init [⟨2, 1, 4, 2, 100, fun _ => 0⟩] = some encoders ∧
    encoders_run encoders 5 [(0, [7]), (0, [8, 9])] = some sent ∧
    fecs_init [⟨2, 1, 4, 2, 100, fun _ => 0⟩, ⟨2, 1, 4, 3, 50, fun _ => 0⟩] = some decoders ∧
    receive_all 2 decoders
      ((sent.flatten ++ sent.flatten).map fun p => ⟨p, 1, fun _ _ _ => 0⟩) = some log ∧
    EveryMessage [⟨2, 1, 4, 2, 100, fun _ => 0⟩, ⟨2, 1, 4, 3, 50, fun _ => 0⟩]
      [(0, [7]), (0, [8, 9])] 5
      ((sent.flatten ++ sent.flatten).map fun p => ⟨p, 1, fun _ _ _ => 0⟩) log := by
  have hbuffers : ∀ c ∈ [(⟨2, 1, 4, 2, 100, fun _ => 0⟩ : config), ⟨2, 1, 4, 3, 50, fun _ => 0⟩],
      2 ≤ c.decode_buffer_size := by
    intro c hc
    rcases List.mem_cons.mp hc with rfl | hc
    · exact le_rfl
    · rw [List.mem_singleton.mp hc]
      decide
  have hsender : ∀ c ∈ [(⟨2, 1, 4, 2, 100, fun _ => 0⟩ : config)], 2 ≤ c.decode_buffer_size :=
    fun c hc => hbuffers c (List.mem_cons.mpr (Or.inl (List.mem_singleton.mp hc)))
  have hcalls : ∀ call ∈ [((0, [7]) : Nat × List UInt8), (0, [8, 9])],
      call.1 < 1 ∧ call.2.length ≤ 65535 := by decide
  obtain ⟨encoders, sent, decoders, hencoders, hrun, hdecoders, hall⟩ :=
    every_message_is_delivered hsender hbuffers ⟨by simp, by decide⟩ hcalls (by decide) 5
  obtain ⟨log, hlog, hevery⟩ := hall
    ((sent.flatten ++ sent.flatten).map fun p => ⟨p, 1, fun _ _ _ => 0⟩) (fun a ha => by
      obtain ⟨p, hp, rfl⟩ := List.mem_map.mp ha
      exact (List.mem_append.mp hp).elim id id) (by
      rw [List.pairwise_map]
      exact List.pairwise_of_forall fun _ _ => le_rfl)
  exact ⟨encoders, sent, decoders, log, hencoders, hrun, hdecoders, hlog, hevery⟩

end nettle.nt_dup_fec
