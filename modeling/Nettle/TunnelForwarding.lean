-- The law of a whole tunnel with the Reed-Solomon FEC at both ends: what leaves
-- an API port are messages that the other end has accepted, none of them twice,
-- and every message of a block of which K different packets have come.
import Nettle.Grouping
import Nettle.TunnelEnds

open nettle.nt_api nettle.nt_fec nettle.nt_processor nettle.rs nettle.udp
open nettle.nt_rs_fec

namespace nettle.tunnel

/-! ## The encoders -/

/-- Every encoder is in the middle of a block. -/
def Middle (N K D : Nat) (fecs : List nt_rs_fec_t) : Prop :=
  ∀ fec ∈ fecs, ∃ block_id messages, Encoding N K D block_id messages fec ∧ messages.length < K

section

variable {N K D : Nat}

theorem encoders_keep_on (hp : Params N K) {fecs : List nt_rs_fec_t} (h : Middle N K D fecs)
    {calls : List (Nat × List UInt8)}
    (hcalls : ∀ call ∈ calls, call.1 < fecs.length ∧ call.2.length ≤ D) (idgen : idgen_t)
    (sent : List packet) :
    ∃ log fecs' idgen', encoders_run fecs idgen calls = some log ∧
      calls.foldlM (encode_call rs_emitted) (fecs, idgen, sent) =
        some (fecs', idgen', sent ++ (log.map Prod.snd).flatten) := by
  induction calls generalizing fecs idgen sent with
  | nil => exact ⟨[], fecs, idgen, rfl, by simp⟩
  | cons call calls ih =>
    obtain ⟨e, input⟩ := call
    obtain ⟨⟨hlt, hsize⟩, hcalls⟩ := List.forall_mem_cons.mp hcalls
    simp only at hlt hsize
    obtain ⟨block_id, messages, henc, hroom⟩ := h fecs[e] (List.getElem_mem hlt)
    obtain ⟨err, fec', idgen', hcall, hok, hnext⟩ :=
      nt_rs_fec_encode_spec hp henc hroom hsize (fun _ => 0) idgen
    rw [until_error_ok] at hcall
    obtain rfl := hok fun _ => rfl
    have hmiddle : Middle N K D (fecs.set e fec') := by
      intro fec hfec
      rcases List.mem_or_eq_of_mem_set hfec with hold | rfl
      · exact h fec hold
      · rcases hnext with ⟨-, -, henc', -⟩ | ⟨hmid, henc', -⟩
        · exact ⟨_, [], henc', hp.pos⟩
        · refine ⟨_, _, henc', ?_⟩
          rw [List.length_append, List.length_singleton]
          have : messages.length + 1 ≠ K := fun hlast => hmid ⟨hlast, rfl⟩
          omega
    obtain ⟨log, fecs', idgen'', hrun, hfold⟩ := ih hmiddle (fun call hcall => by
      rw [List.length_set]
      exact hcalls call hcall) idgen'
      (sent ++ call_packets (rs_init N K D) block_id messages input)
    refine ⟨(e, call_packets (rs_init N K D) block_id messages input) :: log, fecs', idgen'', ?_, ?_⟩
    · unfold encoders_run
      simp only [List.getElem?_eq_getElem hlt, hcall, hrun, Option.bind_eq_bind, Option.bind_some]
      rfl
    · rw [List.foldlM_cons, encode_call]
      simp only [rs_emitted, List.getElem?_eq_getElem hlt, hcall, Option.bind_eq_bind,
        Option.bind_some, ne_eq, not_true_eq_false, if_false]
      refine hfold.trans ?_
      rw [List.map_cons, List.flatten_cons, List.append_assoc]

end

/-- The decoders hand over what they do by themselves, whichever FEC they have: `receive_all` notes it
for each arrival. -/
theorem decode_all_of_receive_all {F : Type} (decode : decode_t F) {processor_num : UInt32}
    (receive_all : List F → List arrival → Option (List (Option (error_t × List (List UInt8 × Int)))))
    (call : F → nt_fec_header_t → List UInt8 → arrival →
      Option (error_t × F × List (List UInt8 × Int)))
    (hnil : ∀ fecs, receive_all fecs [] = some [])
    (hcons : ∀ fecs a arrivals, receive_all fecs (a :: arrivals) =
      match nt_tun_handle_read processor_num a.packet with
      | none => (receive_all fecs arrivals).map (none :: ·)
      | some (q, header, payload) => do
        let fec ← fecs[q]?
        let (err, fec, seen) ← call fec header payload a
        let log ← receive_all (fecs.set q fec) arrivals
        return some (err, seen) :: log)
    (hdecode : ∀ fec header payload a, a.answer = (fun _ _ _ => 0) →
      decode fec header payload a.clock =
        (call fec header payload a).map fun r => (r.1, r.2.1, r.2.2.map Prod.fst))
    {fecs : List F} {arrivals : List arrival}
    {log : List (Option (error_t × List (List UInt8 × Int)))}
    (hok : ∀ a ∈ arrivals, a.answer = fun _ _ _ => 0) (h : receive_all fecs arrivals = some log)
    (handed : List (List UInt8)) :
    ∃ fecs', arrivals.foldlM (decode_arrival decode processor_num) (fecs, handed) = some (fecs',
        handed ++ (log.flatMap fun entry => ((entry.map Prod.snd).getD []).map Prod.fst)) ∧
      log.length = arrivals.length := by
  induction arrivals generalizing fecs log handed with
  | nil =>
    rw [hnil, Option.some.injEq] at h
    subst h
    exact ⟨fecs, by simp⟩
  | cons a arrivals ih =>
    obtain ⟨ha, hok⟩ := List.forall_mem_cons.mp hok
    rw [List.foldlM_cons, decode_arrival]
    rw [hcons] at h
    cases hread : nt_tun_handle_read processor_num a.packet with
    | none =>
      rw [hread] at h
      obtain ⟨rest, hrest, rfl⟩ := Option.map_eq_some_iff.mp h
      obtain ⟨fecs', hfold, hlen⟩ := ih hok hrest handed
      exact ⟨fecs', by simpa using hfold, congrArg Nat.succ hlen⟩
    | some read =>
      obtain ⟨q, header, payload⟩ := read
      rw [hread] at h
      simp only [Option.bind_eq_bind, Option.bind_eq_some_iff] at h
      obtain ⟨fec, hfec, ⟨err, fec', seen⟩, hcall, rest, hrest, heq⟩ := h
      obtain rfl := Option.some.inj heq
      obtain ⟨fecs', hfold, hlen⟩ := ih hok hrest (handed ++ seen.map Prod.fst)
      refine ⟨fecs', ?_, congrArg Nat.succ hlen⟩
      simp only [hfec, hdecode _ _ _ _ ha, hcall, Option.map_some, Option.bind_eq_bind, Option.bind_some]
      refine hfold.trans ?_
      simp

/-! ## All blocks together -/

/-- The blocks that the encoders have begun, by encoder and number. -/
def places (configs : List config) (calls : List (Nat × List UInt8)) : List (Nat × Nat) :=
  (List.range configs.length).flatMap fun e => (List.range (begun configs calls e)).map fun b => (e, b)

/-- The messages of a block. -/
def block_at (K : Nat) (calls : List (Nat × List UInt8)) (place : Nat × Nat) : List (List UInt8) :=
  block_of K (entries_of place.1 calls) place.2

section

variable {configs : List config} {calls : List (Nat × List UInt8)}

theorem mem_places {place : Nat × Nat} :
    place ∈ places configs calls ↔ place.2 < begun configs calls place.1 := by
  rw [places, List.mem_flatMap]
  constructor
  · rintro ⟨e, -, hmem⟩
    obtain ⟨b, hb, rfl⟩ := List.mem_map.mp hmem
    exact List.mem_range.mp hb
  · intro h
    refine ⟨place.1, List.mem_range.mpr ?_, List.mem_map.mpr ⟨place.2, List.mem_range.mpr h, rfl⟩⟩
    by_contra hge
    rw [begun, List.getElem?_eq_none (Nat.not_lt.mp hge)] at h
    exact absurd h (Nat.not_lt_zero _)

theorem nodup_places : (places configs calls).Nodup := by
  refine List.nodup_flatMap.mpr ⟨fun e _ => List.nodup_range.map fun b b' h => by
    rwa [Prod.mk.injEq, and_iff_right rfl] at h, ?_⟩
  refine List.nodup_range.imp fun {e e'} hne x hx hx' => ?_
  obtain ⟨b, -, rfl⟩ := List.mem_map.mp hx
  obtain ⟨b', -, heq⟩ := List.mem_map.mp hx'
  rw [Prod.mk.injEq] at heq
  exact hne heq.1.symm

/-- The blocks hold the messages of all calls. -/
theorem blocks_perm {K : Nat} (hK : 1 ≤ K) (hconfigs : ∀ c ∈ configs, c.K.toNat = K)
    (hcalls : ∀ call ∈ calls, call.1 < configs.length) :
    ((places configs calls).flatMap (block_at K calls)).Perm (calls.map Prod.snd) := by
  have hencoder : ∀ e ∈ List.range configs.length,
      ((List.range (begun configs calls e)).map fun b => (e, b)).flatMap (block_at K calls) =
        (calls.filter fun call => call.1 = e).flatMap fun call => [call.2] := by
    intro e he
    have hc := List.getElem?_eq_getElem (List.mem_range.mp he)
    rw [begun_of hc, hconfigs _ (List.getElem_mem _), List.flatMap_map]
    simp only [block_at, block_of]
    rw [grouping.flatMap_pieces, List.take_of_length_le]
    · rw [entries_of]
      exact List.map_eq_flatMap
    · rw [Nat.succ_mul]
      exact (Nat.lt_div_mul_add hK).le
  rw [places, List.flatMap_assoc, List.flatMap_congr hencoder]
  refine (grouping.groups_perm Prod.fst (fun call : Nat × List UInt8 => [call.2]) List.nodup_range
    fun call hcall => List.mem_range.mpr (hcalls call hcall)).trans ?_
  rw [← List.map_eq_flatMap]

end

/-- What leaves an API port, of the calls of the other end and the packets that came. Every packet is
one of the block that its id names. -/
structure Forwards (N K D : Nat) (configs : List config) (calls : List (Nat × List UInt8))
    (arrivals : List arrival) (ids : Nat × Nat → UInt32) (out : List (address_t × List UInt8)) :
    Prop where
  inj : ∀ place ∈ places configs calls, ∀ place' ∈ places configs calls,
    ids place = ids place' → place = place'
  known : ∀ a ∈ arrivals, ∃ place ∈ places configs calls,
    a.packet ∈ block_packets (rs_init N K D) (ids place) (block_at K calls place)
  /-- No message is sent twice, and nothing else is sent. -/
  once : List.Subperm out ((calls.map Prod.snd).filterMap forwarded)
  /-- All messages are sent of the blocks of which K different packets came. -/
  whole : List.Subperm ((((places configs calls).filter fun place =>
    K ≤ (indexes_of (ids place) arrivals).dedup.length).flatMap (block_at K calls)).filterMap forwarded) out

section

variable {N K D : Nat} {configs : List config} {calls : List (Nat × List UInt8)}
  {arrivals : List arrival} {ids : Nat × Nat → UInt32}
  {log : List (Option (error_t × List (List UInt8 × Int)))}

theorem map_noted (messages : List (List UInt8)) : (noted messages).map Prod.fst = messages := by
  rw [noted, List.map_map]
  exact List.map_id' _

/-- Id by id it is all that is handed over. -/
theorem handed_perm {α : Type} (keys : List α) (ids : α → UInt32) (hnodup : keys.Nodup)
    (hinj : ∀ k ∈ keys, ∀ k' ∈ keys, ids k = ids k' → k = k')
    (hknown : ∀ a ∈ arrivals, ∃ k ∈ keys, a.id = ids k) (hlen : log.length = arrivals.length) :
    (keys.flatMap fun k => (handed_of (ids k) arrivals log).map Prod.fst).Perm
      (log.flatMap fun entry => ((entry.map Prod.snd).getD []).map Prod.fst) := by
  have hzip : log.flatMap (fun entry => ((entry.map Prod.snd).getD []).map Prod.fst) =
      (arrivals.zip log).flatMap fun entry => ((entry.2.map Prod.snd).getD []).map Prod.fst := by
    have hmap : (arrivals.zip log).map Prod.snd = log := List.map_snd_zip hlen.le
    rw [← hmap, List.flatMap_map, hmap]
  have hgroups := grouping.groups_perm (fun entry : arrival × _ => entry.1.id)
    (fun entry => ((entry.2.map Prod.snd).getD []).map Prod.fst)
    (List.Nodup.map_on (fun k h k' h' heq => hinj k h k' h' heq) hnodup) (l := arrivals.zip log)
    fun entry hentry => by
      obtain ⟨k, hk, heq⟩ := hknown entry.1 (List.of_mem_zip hentry).1
      exact List.mem_map.mpr ⟨k, hk, heq.symm⟩
  rw [hzip]
  refine List.Perm.trans (List.Perm.of_eq ?_) hgroups
  rw [List.flatMap_map]
  simp only [handed_of, List.map_flatMap]

theorem forwards_of_blocks (hK : 1 ≤ K) (hconfigs : ∀ c ∈ configs, c.K.toNat = K)
    (hcalls : ∀ call ∈ calls, call.1 < configs.length) (hlen : log.length = arrivals.length)
    (hinj : ∀ place ∈ places configs calls, ∀ place' ∈ places configs calls,
      ids place = ids place' → place = place')
    (hknown : ∀ a ∈ arrivals, ∃ place ∈ places configs calls,
      a.packet ∈ block_packets (rs_init N K D) (ids place) (block_at K calls place))
    (h : EveryBlock K configs calls (fun e b => ids (e, b)) arrivals log) :
    Forwards N K D configs calls arrivals ids
      ((log.flatMap fun entry => ((entry.map Prod.snd).getD []).map Prod.fst).filterMap forwarded) := by
  have hperm := handed_perm _ ids nodup_places hinj (fun a ha => by
    obtain ⟨e, b, hb, hid⟩ := h.known a ha
    exact ⟨(e, b), mem_places.mpr hb, hid⟩) hlen
  refine ⟨hinj, hknown, grouping.filterMap_subperm _ ?_, grouping.filterMap_subperm _ ?_⟩
  · refine hperm.symm.subperm.trans (List.Subperm.trans ?_ (blocks_perm hK hconfigs hcalls).subperm)
    refine grouping.flatMap_subperm fun place hplace => ?_
    obtain ⟨part, hpart, hsublist⟩ := h.once place.1 place.2 (mem_places.mp hplace)
    have hmap := hsublist.map Prod.fst
    rw [map_noted] at hmap
    exact ⟨_, hpart.map _, hmap⟩
  · refine List.Subperm.trans ?_ hperm.subperm
    refine List.Subperm.trans (List.Perm.subperm (List.Perm.flatMap_left _ fun place hplace => ?_))
      (List.filter_sublist.flatMap _).subperm
    obtain ⟨hmem, hmany⟩ := List.mem_filter.mp hplace
    have hall := ((h.whole place.1 place.2 (mem_places.mp hmem) (of_decide_eq_true hmany)).2).map Prod.fst
    rw [map_noted] at hall
    exact hall.symm

end

/-! ## From end to end -/

/-- The ends are asked for no more than they can do: the messages fit, there are ids for all blocks,
and every decoder has buffers for the blocks that come to it, with no packet too late. -/
structure Bounded (D : Nat) (configs : peer → List config) (start : peer → tunnel_end nt_rs_fec_t)
    (turns : List (peer × event)) : Prop where
  fits : ∀ s, ∀ call ∈ calls_at (start s).max_udp_buffer_size s turns, call.2.length ≤ D
  blocks : ∀ s, blocks_begun (configs s) (calls_at (start s).max_udp_buffer_size s turns) ≤ 2 ^ 32
  in_time : ∀ s q c, (configs s)[q]? = some c → InTime (UInt32.ofNat (configs s).length) c q
    (arrivals_at (start s).max_udp_buffer_size s turns)

section

variable {N K : UInt8} {D : Nat} {configs : peer → List config} {first : peer → idgen_t}
  {start ends : peer → tunnel_end nt_rs_fec_t}

/-- What the encoders of an end emit. -/
theorem calls_sent (hp : Params N.toNat K.toNat) (hconfigs : ∀ s, ∀ c ∈ configs s, Receiver N K D c)
    (hinit : ∀ s, fecs_init (configs s) (first s) = some ((start s).fecs, (start s).idgen))
    (s : peer) {calls : List (Nat × List UInt8)}
    (hcalls : ∀ call ∈ calls, call.1 < (configs s).length ∧ call.2.length ≤ D)
    (hblocks : blocks_begun (configs s) calls ≤ 2 ^ 32) :
    ∃ (fecs : List nt_rs_fec_t) (idgen : idgen_t) (sent : List packet) (ids : Nat × Nat → UInt32),
      encode_all rs_emitted (start s).fecs (start s).idgen calls = some (fecs, idgen, sent) ∧
      (∀ place ∈ places (configs s) calls, ∀ place' ∈ places (configs s) calls,
        ids place = ids place' → place = place') ∧
      ∀ p ∈ sent, ∃ place ∈ places (configs s) calls,
        p ∈ block_packets (rs_init N.toNat K.toNat D) (ids place) (block_at K.toNat calls place) := by
  obtain ⟨sent, ids, hrun, hinj, hsent⟩ := encoders_sent hp
    (fun c hc => (hconfigs s c hc).code) (hinit s) hcalls hblocks
  obtain ⟨fecs, idgen, hinit', hlen, -⟩ := fecs_init_shelved (hconfigs s) (first s)
  rw [hinit s, Option.some.injEq, Prod.mk.injEq] at hinit'
  obtain ⟨rfl, rfl⟩ := hinit'
  have hmiddle : Middle N.toNat K.toNat D (start s).fecs := by
    intro fec hfec
    obtain ⟨e, he⟩ := List.mem_iff_getElem?.mp hfec
    have hlt : e < (configs s).length := hlen ▸ (List.getElem?_eq_some_iff.mp he).1
    have hc := List.getElem?_eq_getElem hlt
    obtain ⟨fec', hfec', henc⟩ := (fecs_init_placed (hinit s)).2 e _ hc
    obtain ⟨hN, hK, hD⟩ := (hconfigs s _ (List.getElem_mem hlt)).code
    rw [he, Option.some.injEq] at hfec'
    rw [hN, hK, hD, ← hfec'] at henc
    exact ⟨_, [], henc, hp.pos⟩
  obtain ⟨log, fecs, idgen, hrun', hfold⟩ := encoders_keep_on hp hmiddle (fun call hcall => by
    rw [hlen]
    exact hcalls call hcall) (start s).idgen []
  rw [hrun, Option.some.injEq] at hrun'
  subst hrun'
  refine ⟨fecs, idgen, (sent.map Prod.snd).flatten, fun place => ids place.1 place.2, hfold,
    fun place h place' h' heq => ?_, fun p hp => ?_⟩
  · obtain ⟨he, hb⟩ := hinj _ _ _ _ (mem_places.mp h) (mem_places.mp h') heq
    exact Prod.ext he hb
  · obtain ⟨e, b, hb, hmem⟩ := hsent p hp
    exact ⟨(e, b), mem_places.mpr hb, hmem⟩

/-- What the decoders of an end make of it. -/
theorem arrivals_forwarded (hp : Params N.toNat K.toNat) (hN : N.toNat ≤ 32) (hD : D + 4 ≤ 65535)
    (hconfigs : ∀ s, ∀ c ∈ configs s, Receiver N K D c)
    (hinit : ∀ s, fecs_init (configs s) (first s) = some ((start s).fecs, (start s).idgen))
    (s : peer) (hnum : configs s ≠ [] ∧ (configs s).length < 2 ^ 31)
    {calls : List (Nat × List UInt8)}
    (hcalls : ∀ call ∈ calls, call.1 < (configs s.other).length ∧ call.2.length ≤ D)
    {ids : Nat × Nat → UInt32}
    (hinj : ∀ place ∈ places (configs s.other) calls, ∀ place' ∈ places (configs s.other) calls,
      ids place = ids place' → place = place')
    {arrivals : List arrival} (hok : ∀ a ∈ arrivals, a.answer = fun _ _ _ => 0)
    (hknown : ∀ a ∈ arrivals, ∃ place ∈ places (configs s.other) calls,
      a.packet ∈ block_packets (rs_init N.toNat K.toNat D) (ids place) (block_at K.toNat calls place))
    (htime : ∀ q c, (configs s)[q]? = some c →
      InTime (UInt32.ofNat (configs s).length) c q arrivals) :
    ∃ fecs handed, decode_all rs_handed (UInt32.ofNat (configs s).length) (start s).fecs arrivals =
        some (fecs, handed) ∧
      Forwards N.toNat K.toNat D (configs s.other) calls arrivals ids (handed.filterMap forwarded) := by
  have hids : ∀ e b e' b', b < begun (configs s.other) calls e → b' < begun (configs s.other) calls e' →
      ids (e, b) = ids (e', b') → e = e' ∧ b = b' := fun e b e' b' hb hb' heq => by
    have hplace := hinj (e, b) (mem_places.mpr hb) (e', b') (mem_places.mpr hb') heq
    rwa [Prod.mk.injEq] at hplace
  obtain ⟨log, hlog, hblocks⟩ := blocks_are_delivered hp hN hD (hconfigs s) hnum
    (fun call hcall => (hcalls call hcall).2) hids (hinit s)
    (fun a ha => by
      obtain ⟨place, hplace, hmem⟩ := hknown a ha
      exact ⟨hok a ha, place.1, place.2, mem_places.mp hplace, hmem⟩) htime
  obtain ⟨fecs, hfold, hlen⟩ := decode_all_of_receive_all rs_handed
    (receive_all (UInt32.ofNat (configs s).length))
    (fun fec header payload a =>
      nt_rs_fec_decode fec header payload a.clock [] (record a.answer)) (fun _ => rfl)
    (fun _ _ _ => rfl) (fun fec header payload a ha => by rw [ha]; rfl) hok hlog []
  exact ⟨fecs, _, hfold, forwards_of_blocks hp.pos
    (fun c hc => by rw [(hconfigs s.other c hc).code.2.1])
    (fun call hcall => (hcalls call hcall).1) hlen hinj hknown hblocks⟩

theorem mem_calls_at {n : Nat} {s : peer} {turns : List (peer × event)} {call : Nat × List UInt8}
    (h : call ∈ calls_at n s turns) : ∃ i src buffer datagram,
      (s, event.api i src buffer datagram) ∈ turns ∧ call.1 = i ∧
        call.2.length ≤ datagram.length := by
  obtain ⟨e, he, hcall⟩ := List.mem_filterMap.mp h
  obtain ⟨⟨s', e'⟩, hmem, rfl⟩ := List.mem_map.mp he
  obtain ⟨hturn, hs⟩ := List.mem_filter.mp hmem
  obtain rfl : s' = s := of_decide_eq_true hs
  cases e' with
  | tun buffer datagram clock => cases hcall
  | api i src buffer datagram =>
    obtain ⟨message, hmessage, hsome⟩ := Option.bind_eq_some_iff.mp hcall
    obtain ⟨n, hplain, rfl⟩ := Option.map_eq_some_iff.mp hsome
    refine ⟨i, src, buffer, datagram, hturn, rfl, le_trans ?_ (plain_size_le hmessage hplain)⟩
    exact List.length_take_le _ _

theorem arrivals_answer {n : Nat} {s : peer} {turns : List (peer × event)} {a : arrival}
    (h : a ∈ arrivals_at n s turns) : a.answer = fun _ _ _ => 0 := by
  obtain ⟨e, -, ha⟩ := List.mem_filterMap.mp h
  cases e with
  | api i src buffer datagram => cases ha
  | tun buffer datagram clock =>
    obtain ⟨p, -, rfl⟩ := Option.map_eq_some_iff.mp ha
    rfl

/-- Messages only go to encoders that there are, and are no longer than a datagram. -/
def InRange (configs : peer → List config) (turns : List (peer × event)) : Prop :=
  ∀ s i src buffer datagram, (s, event.api i src buffer datagram) ∈ turns →
    i < (configs s).length ∧ datagram.length ≤ UDP_MAX

theorem serves (hp : Params N.toNat K.toNat) (hN : N.toNat ≤ 32) (hD : D + 4 ≤ 65535)
    (hconfigs : ∀ s, ∀ c ∈ configs s, Receiver N K D c)
    (hinit : ∀ s, fecs_init (configs s) (first s) = some ((start s).fecs, (start s).idgen))
    (hnum : ∀ s, configs s ≠ [] ∧ (configs s).length < 2 ^ 31)
    (hlen : ∀ s, (start s).fecs.length = (configs s).length) :
    Serves rs_emitted rs_handed start fun turns => InRange configs turns ∧ Bounded D configs start turns := by
  have hcalls : ∀ turns, InRange configs turns → Bounded D configs start turns → ∀ s,
      ∀ call ∈ calls_at (start s).max_udp_buffer_size s turns,
        call.1 < (configs s).length ∧ call.2.length ≤ D := by
    intro turns hrange hbounded s call hcall
    obtain ⟨i, src, buffer, datagram, hturn, heq, -⟩ := mem_calls_at hcall
    exact ⟨heq ▸ (hrange s i src buffer datagram hturn).1, hbounded.fits s call hcall⟩
  refine ⟨fun turns ⟨hrange, hbounded⟩ s => ?_, fun turns ⟨hrange, hbounded⟩ s e he hgenuine => ?_⟩
  · obtain ⟨fecs, idgen, sent, -, hencode, -⟩ :=
      calls_sent hp hconfigs hinit s (hcalls turns hrange hbounded s) (hbounded.blocks s)
    exact ⟨_, hencode⟩
  · obtain ⟨fecs, idgen, sent, ids, hencode, hinj, hsent⟩ := calls_sent hp hconfigs hinit s.other
      (hcalls turns hrange hbounded s.other) (hbounded.blocks s.other)
    rw [hencode, Option.some.injEq] at he
    subst he
    obtain ⟨fecs', handed, hdecode, -⟩ := arrivals_forwarded hp hN hD hconfigs hinit s (hnum s)
      (hcalls turns hrange hbounded s.other) hinj (fun a ha => arrivals_answer ha)
      (fun a ha => hsent _ (hgenuine a ha)) (hbounded.in_time s)
    rw [hlen]
    exact ⟨_, hdecode⟩

theorem in_time_before {processor_num : UInt32} {c : config} {q : Nat} {arrivals more : List arrival}
    (h : InTime processor_num c q (arrivals ++ more)) : InTime processor_num c q arrivals := by
  refine ⟨le_trans ?_ h.few, fun clock hclock clock' hclock' => h.late clock ?_ clock' ?_⟩
  · rw [← List.card_toFinset, ← List.card_toFinset]
    refine Finset.card_le_card fun key hkey => ?_
    rw [List.mem_toFinset] at hkey ⊢
    simp only [keys_at, List.filter_append, List.map_append]
    exact List.mem_append_left _ hkey
  · simp only [clocks_at, List.filter_append, List.map_append]
    exact List.mem_append_left _ hclock
  · simp only [clocks_at, List.filter_append, List.map_append]
    exact List.mem_append_left _ hclock'

theorem blocks_begun_before (configs : List config) (calls more : List (Nat × List UInt8)) :
    blocks_begun configs calls ≤ blocks_begun configs (calls ++ more) := by
  refine Finset.sum_le_sum fun e _ => ?_
  unfold begun
  split
  · rw [entries_of_append, List.length_append]
    exact Nat.succ_le_succ (Nat.div_le_div_right (Nat.le_add_right _ _))
  · exact le_rfl

theorem calls_before (n : Nat) (s : peer) (turns : List (peer × event)) (turn : peer × event) :
    ∃ more, calls_at n s (turns ++ [turn]) = calls_at n s turns ++ more := by
  by_cases hs : turn.1 = s
  · subst hs
    exact ⟨_, calls_at_self n turn.1 turns turn.2⟩
  · exact ⟨[], by rw [calls_at_ne n hs, List.append_nil]⟩

theorem arrivals_before (n : Nat) (s : peer) (turns : List (peer × event)) (turn : peer × event) :
    ∃ more, arrivals_at n s (turns ++ [turn]) = arrivals_at n s turns ++ more := by
  by_cases hs : turn.1 = s
  · subst hs
    exact ⟨_, arrivals_at_self n turn.1 turns turn.2⟩
  · exact ⟨[], by rw [arrivals_at_ne n hs, List.append_nil]⟩

/-- What is not too much after a turn was not before. -/
theorem Bounded.before {turns : List (peer × event)} {turn : peer × event}
    (h : Bounded D configs start (turns ++ [turn])) : Bounded D configs start turns := by
  refine ⟨fun s call hcall => h.fits s call ?_, fun s => le_trans ?_ (h.blocks s),
    fun s q c hc => ?_⟩
  · obtain ⟨more, hmore⟩ := calls_before (start s).max_udp_buffer_size s turns turn
    rw [hmore]
    exact List.mem_append_left _ hcall
  · obtain ⟨more, hmore⟩ := calls_before (start s).max_udp_buffer_size s turns turn
    rw [hmore]
    exact blocks_begun_before _ _ _
  · obtain ⟨more, hmore⟩ := arrivals_before (start s).max_udp_buffer_size s turns turn
    have htime := h.in_time s q c hc
    rw [hmore] at htime
    exact in_time_before htime

end

/-- A turn leaves the number of processors as it is. -/
theorem end_turn_count {F : Type} {nt_fec_encode : nt_fec_encode_t (F × idgen_t)}
    {nt_fec_decode : nt_fec_decode_t (F × idgen_t)} {t t' : tunnel_end F} {e : event}
    (h : end_turn nt_fec_encode nt_fec_decode t e = some t') : t'.fecs.length = t.fecs.length := by
  cases e with
  | api i src buffer datagram =>
    unfold end_turn at h
    simp only at h
    split at h
    · cases h
      rfl
    · simp only [Option.bind_eq_bind, Option.bind_eq_some_iff] at h
      obtain ⟨processor, -, processor', -, heq⟩ := h
      obtain rfl := Option.some.inj heq
      exact List.length_set
  | tun buffer datagram clock =>
    unfold end_turn at h
    simp only at h
    split at h
    · cases h
      rfl
    · simp only [Option.bind_eq_bind, Option.bind_eq_some_iff] at h
      obtain ⟨processor, -, ⟨processor', failure⟩, -, heq⟩ := h
      obtain rfl := Option.some.inj heq
      exact List.length_set

theorem InRange.before {configs : peer → List config} {turns : List (peer × event)}
    {turn : peer × event} (h : InRange configs (turns ++ [turn])) : InRange configs turns :=
  fun s i src buffer datagram hmem => h s i src buffer datagram (List.mem_append_left _ hmem)

theorem InRange.turn {F : Type} {ends : peer → tunnel_end F} {configs : peer → List config}
    {turns : List (peer × event)} (h : InRange configs turns) {s : peer} {e : event}
    (hlen : (ends s).fecs.length = (configs s).length) (hpossible : Possible ends s e) :
    InRange configs (turns ++ [(s, e)]) := by
  intro s' i src buffer datagram hmem
  rcases List.mem_append.mp hmem with hmem | hmem
  · exact h s' i src buffer datagram hmem
  · obtain ⟨rfl, rfl⟩ := Prod.mk.injEq .. ▸ List.mem_singleton.mp hmem
    exact ⟨hlen ▸ hpossible.1, hpossible.2⟩

theorem Reaches.in_range {F : Type} {nt_fec_encode : nt_fec_encode_t (F × idgen_t)}
    {nt_fec_decode : nt_fec_decode_t (F × idgen_t)} {start ends : peer → tunnel_end F}
    {turns : List (peer × event)} {configs : peer → List config}
    (h : Reaches nt_fec_encode nt_fec_decode start turns ends)
    (hlen : ∀ s, (start s).fecs.length = (configs s).length) :
    InRange configs turns ∧ ∀ s, (ends s).fecs.length = (configs s).length := by
  induction h with
  | start => exact ⟨fun s i src buffer datagram h => absurd h List.not_mem_nil, hlen⟩
  | @turn turns ends s e t _ hpossible hturn ih =>
    obtain ⟨hrange, hends⟩ := ih
    refine ⟨hrange.turn (hends s) hpossible, fun s' => ?_⟩
    by_cases hs : s' = s
    · subst hs
      rw [Function.update_self, end_turn_count hturn, hends]
    · rw [Function.update_of_ne hs, hends]

/-- Two ends of one code, with any number of processors each, from their start on, and without a key
center: messages come to both API ports and go to any of the encoders, and the network between the
ends loses, repeats and reorders the datagrams as it likes. As long as the messages fit, there are
ids for the blocks and the decoders are in time, no turn of a worker fails an `ensure`, and what
leaves each API port is what the other end has accepted: no message twice, and every message of a
block of which K different packets have come. -/
theorem every_message_is_forwarded {N K : UInt8} (hp : Params N.toNat K.toNat) (hN : N.toNat ≤ 32)
    {D : Nat} (hD : D + 4 ≤ 65535) {configs : peer → List config}
    (hconfigs : ∀ s, ∀ c ∈ configs s, Receiver N K D c) {first : peer → idgen_t}
    {start ends : peer → tunnel_end nt_rs_fec_t}
    (hinit : ∀ s, fecs_init (configs s) (first s) = some ((start s).fecs, (start s).idgen))
    (hidle : ∀ s, Idle (start s)) {turns : List (peer × event)}
    (hreaches : Reaches rs_fec_encode rs_fec_decode start turns ends) :
    (∀ s e, Possible ends s e → Bounded D configs start (turns ++ [(s, e)]) →
      ∃ t, end_turn rs_fec_encode rs_fec_decode (ends s) e = some t) ∧
    (Bounded D configs start turns → ∀ s, ∃ ids, Forwards N.toNat K.toNat D (configs s.other)
      (calls_at (start s.other).max_udp_buffer_size s.other turns)
      (arrivals_at (start s).max_udp_buffer_size s turns) ids (ends s).api_udp.sent) := by
  have hlen : ∀ s, (start s).fecs.length = (configs s).length := by
    intro s
    obtain ⟨fecs, idgen, hinit', hlen, -⟩ := fecs_init_shelved (hconfigs s) (first s)
    rw [hinit s, Option.some.injEq, Prod.mk.injEq] at hinit'
    rw [hinit'.1, hlen]
  have hnum : ∀ s, configs s ≠ [] ∧ (configs s).length < 2 ^ 31 := by
    intro s
    have hprocessors := (hidle s).processors
    rw [hlen] at hprocessors
    exact ⟨List.ne_nil_of_length_pos hprocessors.1, hprocessors.2⟩
  have hserves := serves hp hN hD hconfigs hinit hnum hlen
  have hbefore : ∀ (turns : List (peer × event)) (turn : peer × event),
      InRange configs (turns ++ [turn]) ∧ Bounded D configs start (turns ++ [turn]) →
        InRange configs turns ∧ Bounded D configs start turns :=
    fun turns turn h => ⟨h.1.before, h.2.before⟩
  obtain ⟨hrange, hends⟩ := hreaches.in_range hlen
  refine ⟨fun s e hpossible hbounded => ?_, fun hbounded s => ?_⟩
  · obtain ⟨encoded, decoded, hfollowed⟩ := followed_run rs_emits rs_hands rs_halves hidle hserves
      hbefore hreaches ⟨hrange, hbounded.before⟩
    obtain ⟨t, -, -, hturn, -⟩ := hfollowed.turn rs_emits rs_hands rs_halves hidle hserves hpossible
      ⟨hrange.turn (hends s) hpossible, hbounded⟩
    exact ⟨t, hturn⟩
  · obtain ⟨encoded, decoded, hfollowed⟩ := followed_run rs_emits rs_hands rs_halves hidle hserves
      hbefore hreaches ⟨hrange, hbounded⟩
    have hcalls : ∀ call ∈ calls_at (start s.other).max_udp_buffer_size s.other turns,
        call.1 < (configs s.other).length ∧ call.2.length ≤ D := by
      intro call hcall
      obtain ⟨i, src, buffer, datagram, hturn, heq, -⟩ := mem_calls_at hcall
      exact ⟨heq ▸ (hrange s.other i src buffer datagram hturn).1, hbounded.fits s.other call hcall⟩
    obtain ⟨fecs, idgen, sent, ids, hencode, hinj, hsent⟩ :=
      calls_sent hp hconfigs hinit s.other hcalls (hbounded.blocks s.other)
    have hencoded := hfollowed.encoded s.other
    rw [hencode, Option.some.injEq] at hencoded
    have hgenuine := hfollowed.genuine s
    rw [← hencoded] at hgenuine
    obtain ⟨fecs', handed, hdecode, hforwards⟩ := arrivals_forwarded hp hN hD hconfigs hinit s (hnum s)
      hcalls hinj (fun a ha => arrivals_answer ha) (fun a ha => hsent _ (hgenuine a ha))
      (hbounded.in_time s)
    have hdecoded := hfollowed.decoded s
    rw [hlen, hdecode, Option.some.injEq] at hdecoded
    refine ⟨ids, ?_⟩
    rw [(hfollowed.follows s).api, ← hdecoded]
    exact hforwards

/-- An end with these FECs that can send, on one path. -/
def open_end {F : Type} (fecs : List F) (idgen : idgen_t) : tunnel_end F where
  max_udp_buffer_size := 64
  distributor := ⟨[⟨.addr_in 1 1, .addr_in 2 2⟩], [0], 1, 1⟩
  api_udp := open_udp
  tun_udp := open_udp
  fecs
  idgen
  perf := fun _ => 0
  failures := fun _ => 0

theorem usable_open_end {F : Type} (fecs : List F) (idgen : idgen_t) :
    nt_distributor.Usable (open_end fecs idgen).distributor := by
  refine ⟨Nat.one_pos, fun row hrow j hj => ?_⟩
  obtain rfl := Nat.lt_one_iff.mp hrow
  obtain rfl := Nat.lt_one_iff.mp hj
  exact ⟨0, rfl, Int.one_pos⟩

theorem idle_open_end {F : Type} {fecs : List F} (hone : fecs.length = 1) (idgen : idgen_t) :
    Idle (open_end fecs idgen) :=
  ⟨usable_open_end fecs idgen, ⟨whole_open_udp, whole_open_udp⟩, ⟨rfl, rfl⟩,
    hone.symm ▸ Nat.one_pos, (show fecs.length < 2 ^ 31 from hone.symm ▸ by decide)⟩

/-- A message with one byte, and what becomes of it. -/
def one_byte (src_ip src_port byte : UInt8) : List UInt8 :=
  [87, 0, 0, 0, 1, src_ip, 0, 0, 0, src_port, 0, 9, 0, 0, 0, 7, 0, 0, 1, byte]

/-- What clients hand in on the left, and what comes to the right after that. -/
def from_left (datagrams wires : List (List UInt8)) : List (peer × event) :=
  datagrams.map (fun datagram => (.left, .api 0 (.addr_in 5 6) [] datagram)) ++
    wires.map fun wire => (.right, .tun [] wire 1)

theorem turns_from_left (datagrams wires : List (List UInt8)) :
    turns_at .left (from_left datagrams wires) =
        datagrams.map (fun datagram => .api 0 (.addr_in 5 6) [] datagram) ∧
      turns_at .right (from_left datagrams wires) = wires.map fun wire => .tun [] wire 1 := by
  simp [turns_at, from_left, List.filter_map, Function.comp_def]

theorem calls_from_left (n : Nat) (s : peer) (datagrams wires : List (List UInt8)) :
    calls_at n s (from_left datagrams wires) = if s = .left then
      datagrams.filterMap fun datagram => call_of_event n (.api 0 (.addr_in 5 6) [] datagram)
    else [] := by
  cases s with
  | left =>
    rw [calls_at, (turns_from_left datagrams wires).1, if_pos rfl, List.filterMap_map]
    rfl
  | right =>
    rw [calls_at, (turns_from_left datagrams wires).2]
    simp [List.filterMap_map, call_of_event]

theorem arrivals_from_left (n : Nat) (s : peer) (datagrams wires : List (List UInt8)) :
    (arrivals_at n s (from_left datagrams wires)).length ≤ wires.length ∧
      ∀ a ∈ arrivals_at n s (from_left datagrams wires), a.clock = 1 := by
  cases s with
  | left =>
    have hnone : arrivals_at n .left (from_left datagrams wires) = [] := by
      rw [arrivals_at, (turns_from_left datagrams wires).1]
      simp [List.filterMap_map, arrival_of_event]
    rw [hnone]
    exact ⟨Nat.zero_le _, List.forall_mem_nil _⟩
  | right =>
    rw [arrivals_at, (turns_from_left datagrams wires).2, List.filterMap_map]
    refine ⟨List.length_filterMap_le _ _, fun a ha => ?_⟩
    obtain ⟨wire, -, h⟩ := List.mem_filterMap.mp ha
    obtain ⟨p, -, rfl⟩ := Option.map_eq_some_iff.mp h
    rfl

/-- Two messages go from the left into one block. The packet of the first is lost, and the right gets
the other two packets: it sends both messages. -/
theorem every_message_is_forwarded_two : ∃ start ends lost raw redundant,
    Reaches rs_fec_encode rs_fec_decode start
      (from_left [one_byte 0 0 42, one_byte 0 0 43] [raw, redundant]) ends ∧
    (ends .left).tun_udp.sent.map Prod.snd = [lost, raw, redundant] ∧ raw ≠ redundant ∧
    (ends .right).api_udp.sent = [(.addr_in 9 7, one_byte 5 6 43), (.addr_in 9 7, one_byte 5 6 42)] ∧
    ∃ ids, Forwards 3 2 20 [⟨3, 2, 20, 2, 100, fun _ => 0⟩]
      (calls_at 64 .left (from_left [one_byte 0 0 42, one_byte 0 0 43] [raw, redundant]))
      (arrivals_at 64 .right (from_left [one_byte 0 0 42, one_byte 0 0 43] [raw, redundant])) ids
      (ends .right).api_udp.sent := by
  have hrun : ((fecs_init [⟨3, 2, 20, 2, 100, fun _ => 0⟩] 0).bind fun s =>
      (end_turn rs_fec_encode rs_fec_decode (open_end s.1 s.2)
        (.api 0 (.addr_in 5 6) [] (one_byte 0 0 42))).bind fun t =>
      (end_turn rs_fec_encode rs_fec_decode t
        (.api 0 (.addr_in 5 6) [] (one_byte 0 0 43))).bind fun t' =>
      (t'.tun_udp.sent.map Prod.snd)[1]?.bind fun raw =>
      (t'.tun_udp.sent.map Prod.snd)[2]?.bind fun redundant =>
      (end_turn rs_fec_encode rs_fec_decode (open_end s.1 s.2) (.tun [] raw 1)).bind fun u =>
      (end_turn rs_fec_encode rs_fec_decode u (.tun [] redundant 1)).map fun u' =>
        ([t'.tun_udp.sent.length, raw.length, redundant.length], u'.api_udp.sent)) =
          some ([3, 30, 34],
            [(.addr_in 9 7, one_byte 5 6 43), (.addr_in 9 7, one_byte 5 6 42)]) := by
    decide +kernel
  simp only [Option.bind_eq_some_iff, Option.map_eq_some_iff, Prod.mk.injEq, List.cons.injEq] at hrun
  obtain ⟨⟨fecs, idgen⟩, hinit, t, ht, t', ht', raw, hraw, redundant, hredundant, u, hu, u', hu',
    ⟨hcount, hlen, hlen', -⟩, hsent⟩ := hrun
  have hreceiver : ∀ c ∈ [(⟨3, 2, 20, 2, 100, fun _ => 0⟩ : config)], Receiver 3 2 20 c := by
    intro c hc
    rw [List.mem_singleton.mp hc]
    exact ⟨⟨rfl, rfl, rfl⟩, by decide, by decide⟩
  have hone : fecs.length = 1 := by
    obtain ⟨fecs', idgen', hinit', hlen', -⟩ := fecs_init_shelved hreceiver 0
    rw [hinit, Option.some.injEq, Prod.mk.injEq] at hinit'
    rw [hinit'.1, hlen']
    rfl
  have hpossible : ∀ (ends : peer → tunnel_end nt_rs_fec_t) (datagram : List UInt8),
      (ends .left).fecs.length = 1 → datagram.length ≤ UDP_MAX →
        Possible ends .left (.api 0 (.addr_in 5 6) [] datagram) :=
    fun ends datagram hends hmax => ⟨hends.symm ▸ Nat.one_pos, hmax⟩
  -- the four turns
  have hfirst := Reaches.turn (s := .left) (t := t) Reaches.start
    (hpossible (fun _ => open_end fecs idgen) (one_byte 0 0 42) hone (by decide)) ht
  have hsecond := Reaches.turn (s := .left) (t := t') hfirst
    (hpossible _ (one_byte 0 0 43) (by rw [Function.update_self, end_turn_count ht]; exact hone)
      (by decide)) (by rw [Function.update_self]; exact ht')
  have hthird := Reaches.turn (s := .right) (e := .tun [] raw 1) (t := u) hsecond
    ⟨by rw [peer.other, Function.update_self]; exact List.mem_of_getElem? hraw, by rw [hlen]; decide⟩
    (by rw [Function.update_of_ne (by decide), Function.update_of_ne (by decide)]; exact hu)
  have hreaches := Reaches.turn (s := .right) (e := .tun [] redundant 1) (t := u') hthird
    ⟨by
      rw [peer.other, Function.update_of_ne (by decide), Function.update_self]
      exact List.mem_of_getElem? hredundant, by rw [hlen']; decide⟩
    (by rw [Function.update_self]; exact hu')
  have hmessages : ([one_byte 0 0 42, one_byte 0 0 43].filterMap fun datagram =>
      call_of_event 64 (.api 0 (.addr_in 5 6) [] datagram)) =
        [(0, one_byte 5 6 42), (0, one_byte 5 6 43)] := by decide +kernel
  have hcalls : ∀ s, calls_at 64 s (from_left [one_byte 0 0 42, one_byte 0 0 43] [raw, redundant]) =
      if s = .left then [(0, one_byte 5 6 42), (0, one_byte 5 6 43)] else [] := by
    intro s
    rw [calls_from_left, hmessages]
  have hbounded : Bounded 20 (fun _ => [⟨3, 2, 20, 2, 100, fun _ => 0⟩])
      (fun _ => open_end fecs idgen)
      (from_left [one_byte 0 0 42, one_byte 0 0 43] [raw, redundant]) := by
    refine ⟨fun s call hcall => ?_, fun s => ?_, fun s q c hc => ⟨?_, fun clock hclock clock' hclock' => ?_⟩⟩
    · replace hcall := hcalls s ▸ hcall
      split at hcall
      · rcases List.mem_pair.mp hcall with rfl | rfl <;> decide
      · exact absurd hcall List.not_mem_nil
    · refine le_trans (le_of_eq_of_le (congrArg _ (hcalls s)) ?_) (by decide : 2 ≤ 2 ^ 32)
      split <;> decide +kernel
    · have hsize : c.decode_buffer_size = 2 := by
        rw [List.mem_singleton.mp (List.mem_of_getElem? hc)]
      rw [hsize]
      refine (List.dedup_sublist _).length_le.trans (le_trans ?_
        (arrivals_from_left 64 s [one_byte 0 0 42, one_byte 0 0 43] [raw, redundant]).1)
      rw [keys_at, List.length_map]
      exact List.length_filter_le _ _
    · have hclocks : ∀ clock ∈ clocks_at (UInt32.ofNat 1) q (arrivals_at 64 s
          (from_left [one_byte 0 0 42, one_byte 0 0 43] [raw, redundant])), clock = 1 := by
        intro clock hclock
        obtain ⟨a, ha, rfl⟩ := List.mem_map.mp hclock
        exact (arrivals_from_left 64 s _ _).2 a (List.mem_filter.mp ha).1
      rw [hclocks clock hclock, hclocks clock' hclock', List.mem_singleton.mp (List.mem_of_getElem? hc)]
      decide
  obtain ⟨lost, hlost⟩ : ∃ lost, t'.tun_udp.sent.map Prod.snd = [lost, raw, redundant] := by
    obtain ⟨a, b, c, hthree⟩ := List.length_eq_three.mp hcount
    rw [hthree] at hraw hredundant ⊢
    cases hraw
    cases hredundant
    exact ⟨a.2, rfl⟩
  refine ⟨_, _, lost, raw, redundant, hreaches, ?_, ?_, ?_, ?_⟩
  · rw [Function.update_of_ne (by decide), Function.update_of_ne (by decide), Function.update_self]
    exact hlost
  · rintro rfl
    exact absurd (hlen.symm.trans hlen') (by decide)
  · rw [Function.update_self]
    exact hsent
  · exact (every_message_is_forwarded (N := 3) (K := 2) ⟨by decide, by decide, by decide⟩ (by decide)
      (by decide) (fun _ => hreceiver) (fun _ => hinit) (fun _ => idle_open_end hone idgen)
      hreaches).2 hbounded .right

end nettle.tunnel
