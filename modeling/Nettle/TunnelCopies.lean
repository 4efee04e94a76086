-- The law of a whole tunnel with the duplicating FEC at both ends: every message
-- of which a copy comes through leaves the API port, and once if its copies are
-- prompt.
import Nettle.TunnelForwarding

open nettle.nt_api nettle.nt_fec nettle.nt_processor nettle.udp nettle.nt_dup_fec
open nettle.nt_rs_fec (arrival config handed_of idgen_t record)

namespace nettle.tunnel

/-! ## The encoders -/

/-- Call number `k` of the encoders takes id number `k`. -/
theorem copies_sent (fecs : List nt_dup_fec_t) (first : idgen_t) {calls : List (Nat × List UInt8)}
    (hcalls : ∀ call ∈ calls, call.1 < fecs.length) :
    ∃ sent, encode_all dup_emitted fecs first calls =
        some (fecs, first + UInt32.ofNat calls.length, sent) ∧
      ∀ p ∈ sent, ∃ k e input N, calls[k]? = some (e, input) ∧
        p ∈ copies N (first + UInt32.ofNat k) input := by
  induction calls using List.reverseRecOn with
  | nil => exact ⟨[], by rw [encode_all]; simp, List.forall_mem_nil _⟩
  | append_singleton calls call ih =>
    obtain ⟨sent, hencode, hsent⟩ := ih fun call hmem => hcalls call (List.mem_append_left _ hmem)
    have hlt : call.1 < fecs.length := hcalls call (List.mem_append_right _ (List.mem_singleton.mpr rfl))
    have hfec := List.getElem?_eq_getElem hlt
    refine ⟨sent ++ copies fecs[call.1].N (first + UInt32.ofNat calls.length) call.2, ?_, fun p hp => ?_⟩
    · rw [encode_all_snoc hencode, encode_call]
      simp only [hfec, dup_emitted, Option.bind_eq_bind, Option.bind_some, ne_eq, not_true_eq_false,
        if_false, List.set_getElem_self, List.length_append, List.length_singleton, UInt32.ofNat_add,
        ← UInt32.add_assoc]
      rfl
    · rcases List.mem_append.mp hp with hp | hp
      · obtain ⟨k, e, input, N, hk, hcopy⟩ := hsent p hp
        exact ⟨k, e, input, N, List.getElem?_append_left (List.getElem?_eq_some_iff.mp hk).1 ▸ hk, hcopy⟩
      · exact ⟨calls.length, call.1, call.2, _, List.getElem?_concat_length, hp⟩

/-! ## All messages together -/

/-- The message of call number `k`, if a copy of it came. -/
def came_through (calls : List (Nat × List UInt8)) (first : UInt32) (arrivals : List arrival) (k : Nat) :
    List (List UInt8) :=
  if first + UInt32.ofNat k ∈ arrivals.map arrival.id then (calls[k]?.map Prod.snd).toList else []

/-- All messages of which a copy came. -/
def all_through (calls : List (Nat × List UInt8)) (first : UInt32) (arrivals : List arrival) :
    List (List UInt8) :=
  (List.range calls.length).flatMap (came_through calls first arrivals)

/-- What leaves an API port, of the calls of the other end and the packets that came. -/
structure ForwardsCopies (receivers : List config) (calls : List (Nat × List UInt8)) (first : UInt32)
    (arrivals : List arrival) (out : List (address_t × List UInt8)) : Prop where
  /-- Nothing else is sent. -/
  sound : out ⊆ (all_through calls first arrivals).filterMap forwarded
  delivered : List.Subperm ((all_through calls first arrivals).filterMap forwarded) out
  once : (∀ k < calls.length, Prompt receivers arrivals (first + UInt32.ofNat k)) →
    out.Perm ((all_through calls first arrivals).filterMap forwarded)

section

variable {receivers : List config} {calls : List (Nat × List UInt8)} {first : UInt32}
  {arrivals : List arrival} {log : List (Option (error_t × List (List UInt8 × Int)))}

/-- There are ids for all calls. -/
theorem id_inj (hcount : calls.length ≤ 2 ^ 32) :
    ∀ k ∈ List.range calls.length, ∀ k' ∈ List.range calls.length,
      first + UInt32.ofNat k = first + UInt32.ofNat k' → k = k' := by
  intro k hk k' hk' heq
  have hlt := List.mem_range.mp hk
  have hlt' := List.mem_range.mp hk'
  have hsame := congrArg UInt32.toNat (UInt32.add_right_inj first |>.mp heq)
  rwa [UInt32.toNat_ofNat_of_lt' (hlt.trans_le hcount),
    UInt32.toNat_ofNat_of_lt' (hlt'.trans_le hcount)] at hsame

/-- For one call, only its message is handed over. -/
theorem handed_through (hcount : calls.length ≤ 2 ^ 32)
    (h : EveryMessage receivers calls first arrivals log) {k : Nat} (hk : k ∈ List.range calls.length) :
    (handed_of (first + UInt32.ofNat k) arrivals log).map Prod.fst ⊆
        came_through calls first arrivals k ∧
      List.Subperm (came_through calls first arrivals k)
        ((handed_of (first + UInt32.ofNat k) arrivals log).map Prod.fst) ∧
      (Prompt receivers arrivals (first + UInt32.ofNat k) →
        (handed_of (first + UInt32.ofNat k) arrivals log).map Prod.fst =
          came_through calls first arrivals k) := by
  obtain ⟨⟨e, input⟩, hcall⟩ : ∃ call, calls[k]? = some call :=
    ⟨_, List.getElem?_eq_getElem (List.mem_range.mp hk)⟩
  by_cases hcame : first + UInt32.ofNat k ∈ arrivals.map arrival.id
  · have harrival : ∃ a ∈ arrivals, a.id = first + UInt32.ofNat k := List.mem_map.mp hcame
    have hthrough : came_through calls first arrivals k = [input] := by
      rw [came_through, if_pos hcame, hcall]
      rfl
    rw [hthrough]
    refine ⟨fun message hmessage => ?_, ?_, fun hprompt => ?_⟩
    · obtain ⟨x, hx, rfl⟩ := List.mem_map.mp hmessage
      obtain ⟨⟨a, entry⟩, hentry, hmem⟩ := List.mem_flatMap.mp hx
      obtain ⟨hzip, hid⟩ := List.mem_filter.mp hentry
      obtain ⟨n, hn⟩ := List.mem_iff_getElem?.mp hzip
      obtain ⟨ha, hlog⟩ := List.getElem?_zip_eq_some.mp hn
      obtain ⟨k', e', input', err, hcall', hid', hnote⟩ := h.sound n a entry ha hlog
      have hsame := id_inj hcount k hk k'
        (List.mem_range.mpr (List.getElem?_eq_some_iff.mp hcall').1)
        ((of_decide_eq_true hid : a.id = _).symm.trans hid')
      subst hsame
      rw [hcall, Option.some.injEq, Prod.mk.injEq] at hcall'
      rcases hnote with rfl | rfl
      · rw [List.mem_singleton.mp hmem]
        exact List.mem_singleton.mpr hcall'.2.symm
      · exact absurd hmem List.not_mem_nil
    · exact List.singleton_subperm_iff.mpr
        (List.mem_map.mpr ⟨_, h.delivered k e input hcall harrival, rfl⟩)
    · rw [h.once k e input hcall harrival hprompt]
      rfl
  · have hnone : handed_of (first + UInt32.ofNat k) arrivals log = [] := by
      refine List.flatMap_eq_nil_iff.mpr fun entry hentry => ?_
      obtain ⟨hzip, hid⟩ := List.mem_filter.mp hentry
      exact absurd (List.mem_map.mpr ⟨entry.1, (List.of_mem_zip hzip).1, of_decide_eq_true hid⟩) hcame
    rw [came_through, if_neg hcame, hnone]
    exact ⟨List.Subset.refl _, List.Subperm.refl _, fun _ => rfl⟩

theorem forwards_of_messages (hcount : calls.length ≤ 2 ^ 32)
    (h : EveryMessage receivers calls first arrivals log) :
    ForwardsCopies receivers calls first arrivals
      ((log.flatMap fun entry => ((entry.map Prod.snd).getD []).map Prod.fst).filterMap forwarded) := by
  have hperm := handed_perm (List.range calls.length) (fun k => first + UInt32.ofNat k)
    List.nodup_range (id_inj hcount) (fun a ha => by
      obtain ⟨n, hn⟩ := List.mem_iff_getElem?.mp ha
      obtain ⟨entry, hentry⟩ : ∃ entry, log[n]? = some entry :=
        ⟨_, List.getElem?_eq_getElem (h.length ▸ (List.getElem?_eq_some_iff.mp hn).1)⟩
      obtain ⟨k, e, input, err, hk, hid, -⟩ := h.sound n a entry hn hentry
      exact ⟨k, List.mem_range.mpr (List.getElem?_eq_some_iff.mp hk).1, hid⟩) h.length
  refine ⟨fun x hx => ?_, grouping.filterMap_subperm _ ?_, fun hprompt => ?_⟩
  · obtain ⟨message, hmem, hx⟩ := List.mem_filterMap.mp hx
    obtain ⟨k, hk, hmessage⟩ := List.mem_flatMap.mp (hperm.mem_iff.mpr hmem)
    exact List.mem_filterMap.mpr ⟨message,
      List.mem_flatMap.mpr ⟨k, hk, (handed_through hcount h hk).1 hmessage⟩, hx⟩
  · exact (grouping.flatMap_subperm fun k hk => (handed_through hcount h hk).2.1).trans hperm.subperm
  · refine List.Perm.filterMap _ (hperm.symm.trans (List.Perm.of_eq ?_))
    exact List.flatMap_congr fun k hk =>
      (handed_through hcount h hk).2.2 (hprompt k (List.mem_range.mp hk))

end

/-! ## From end to end -/

/-- There are ids for the messages, and the clock of an end does not go back. -/
structure BoundedCopies (start : peer → tunnel_end nt_dup_fec_t) (turns : List (peer × event)) :
    Prop where
  count : ∀ s, (calls_at (start s).max_udp_buffer_size s turns).length ≤ 2 ^ 32
  clock : ∀ s, (arrivals_at (start s).max_udp_buffer_size s turns).Pairwise fun a a' =>
    a.clock ≤ a'.clock

theorem BoundedCopies.before {start : peer → tunnel_end nt_dup_fec_t} {turns : List (peer × event)}
    {turn : peer × event} (h : BoundedCopies start (turns ++ [turn])) : BoundedCopies start turns := by
  refine ⟨fun s => le_trans ?_ (h.count s), fun s => ?_⟩
  · obtain ⟨more, hmore⟩ := calls_before (start s).max_udp_buffer_size s turns turn
    rw [hmore, List.length_append]
    exact Nat.le_add_right _ _
  · obtain ⟨more, hmore⟩ := arrivals_before (start s).max_udp_buffer_size s turns turn
    have hclock := h.clock s
    rw [hmore] at hclock
    exact (List.pairwise_append.mp hclock).1

section

variable {configs : peer → List config} {start ends : peer → tunnel_end nt_dup_fec_t}

/-- What the decoders of an end make of the copies. -/
theorem copies_forwarded (hconfigs : ∀ s, ∀ c ∈ configs s, 2 ≤ c.decode_buffer_size)
    (hinit : ∀ s, fecs_init (configs s) = some (start s).fecs)
    (s : peer) (hnum : configs s ≠ [] ∧ (configs s).length < 2 ^ 31)
    {calls : List (Nat × List UInt8)} (hcalls : ∀ call ∈ calls, call.2.length ≤ 65535)
    (hcount : calls.length ≤ 2 ^ 32) {first : idgen_t} {arrivals : List arrival}
    (hok : ∀ a ∈ arrivals, a.answer = fun _ _ _ => 0)
    (hcopies : ∀ a ∈ arrivals, ∃ k e input N, calls[k]? = some (e, input) ∧
      a.packet ∈ copies N (first + UInt32.ofNat k) input)
    (hclock : arrivals.Pairwise fun a a' => a.clock ≤ a'.clock) :
    ∃ fecs handed, decode_all dup_handed (UInt32.ofNat (configs s).length) (start s).fecs arrivals =
        some (fecs, handed) ∧
      ForwardsCopies (configs s) calls first arrivals (handed.filterMap forwarded) := by
  obtain ⟨log, hlog, hmessages⟩ :=
    messages_are_delivered (hconfigs s) hnum hcalls hcount (hinit s) hcopies hclock
  obtain ⟨fecs, hfold, -⟩ := decode_all_of_receive_all dup_handed
    (receive_all (UInt32.ofNat (configs s).length))
    (fun fec header payload a => nt_dup_fec_decode fec header payload a.clock []
      fun seen input => record a.answer seen input input.length) (fun _ => rfl)
    (fun _ _ _ => rfl) (fun fec header payload a ha => by rw [ha]; rfl) hok hlog []
  exact ⟨fecs, _, hfold, forwards_of_messages hcount hmessages⟩

/-- No message is longer than a header can say. -/
theorem calls_fit (hconfigs : ∀ s, (start s).fecs.length = (configs s).length)
    {turns : List (peer × event)} (hrange : InRange configs turns) (s : peer) :
    ∀ call ∈ calls_at (start s).max_udp_buffer_size s turns,
      call.1 < (start s).fecs.length ∧ call.2.length ≤ 65535 := by
  intro call hcall
  obtain ⟨i, src, buffer, datagram, hturn, heq, hle⟩ := mem_calls_at hcall
  obtain ⟨hlt, hmax⟩ := hrange s i src buffer datagram hturn
  exact ⟨by rw [heq, hconfigs s]; exact hlt, hle.trans (hmax.trans (by decide))⟩

theorem serves_copies (hconfigs : ∀ s, ∀ c ∈ configs s, 2 ≤ c.decode_buffer_size)
    (hinit : ∀ s, fecs_init (configs s) = some (start s).fecs)
    (hnum : ∀ s, configs s ≠ [] ∧ (configs s).length < 2 ^ 31)
    (hlen : ∀ s, (start s).fecs.length = (configs s).length) :
    Serves dup_emitted dup_handed start fun turns =>
      InRange configs turns ∧ BoundedCopies start turns := by
  refine ⟨fun turns ⟨hrange, hbounded⟩ s => ?_, fun turns ⟨hrange, hbounded⟩ s e he hgenuine => ?_⟩
  · obtain ⟨sent, hencode, -⟩ := copies_sent (start s).fecs (start s).idgen
      fun call hcall => (calls_fit hlen hrange s call hcall).1
    exact ⟨_, hencode⟩
  · obtain ⟨sent, hencode, hsent⟩ := copies_sent (start s.other).fecs (start s.other).idgen
      fun call hcall => (calls_fit hlen hrange s.other call hcall).1
    rw [hencode, Option.some.injEq] at he
    subst he
    obtain ⟨fecs, handed, hdecode, -⟩ := copies_forwarded hconfigs hinit s (hnum s)
      (fun call hcall => (calls_fit hlen hrange s.other call hcall).2) (hbounded.count s.other)
      (fun a ha => arrivals_answer ha) (fun a ha => hsent _ (hgenuine a ha)) (hbounded.clock s)
    rw [hlen]
    exact ⟨_, hdecode⟩

/-- Two ends with any number of processors each, of any N, from their start on and without a key
center: messages come to both API ports and go to any of the encoders, and the network loses, repeats
and reorders the datagrams as it likes. As long as there are ids for the messages and the clocks do
not go back, no turn of a worker fails an `ensure`, and what leaves each API port are the messages of
which a copy came through, nothing else, and each of them once if the copies are prompt. -/
theorem every_copied_message_is_forwarded
    (hconfigs : ∀ s, ∀ c ∈ configs s, 2 ≤ c.decode_buffer_size)
    (hinit : ∀ s, fecs_init (configs s) = some (start s).fecs)
    (hidle : ∀ s, Idle (start s)) {turns : List (peer × event)}
    (hreaches : Reaches dup_fec_encode dup_fec_decode start turns ends) :
    (∀ s e, Possible ends s e → BoundedCopies start (turns ++ [(s, e)]) →
      ∃ t, end_turn dup_fec_encode dup_fec_decode (ends s) e = some t) ∧
    (BoundedCopies start turns → ∀ s, ForwardsCopies (configs s)
      (calls_at (start s.other).max_udp_buffer_size s.other turns) (start s.other).idgen
      (arrivals_at (start s).max_udp_buffer_size s turns) (ends s).api_udp.sent) := by
  have hlen : ∀ s, (start s).fecs.length = (configs s).length := by
    intro s
    obtain ⟨decoders, hdecoders, hcaches⟩ := caches_start (hconfigs s)
    rw [hinit s, Option.some.injEq] at hdecoders
    rw [hdecoders, hcaches.1]
  have hnum : ∀ s, configs s ≠ [] ∧ (configs s).length < 2 ^ 31 := by
    intro s
    have hprocessors := (hidle s).processors
    rw [hlen] at hprocessors
    exact ⟨List.ne_nil_of_length_pos hprocessors.1, hprocessors.2⟩
  have hserves := serves_copies hconfigs hinit hnum hlen
  have hbefore : ∀ (turns : List (peer × event)) (turn : peer × event),
      InRange configs (turns ++ [turn]) ∧ BoundedCopies start (turns ++ [turn]) →
        InRange configs turns ∧ BoundedCopies start turns :=
    fun turns turn h => ⟨h.1.before, h.2.before⟩
  obtain ⟨hrange, hends⟩ := hreaches.in_range hlen
  refine ⟨fun s e hpossible hbounded => ?_, fun hbounded s => ?_⟩
  · obtain ⟨encoded, decoded, hfollowed⟩ := followed_run dup_emits dup_hands dup_halves hidle hserves
      hbefore hreaches ⟨hrange, hbounded.before⟩
    obtain ⟨t, -, -, hturn, -⟩ := hfollowed.turn dup_emits dup_hands dup_halves hidle hserves hpossible
      ⟨hrange.turn (hends s) hpossible, hbounded⟩
    exact ⟨t, hturn⟩
  · obtain ⟨encoded, decoded, hfollowed⟩ := followed_run dup_emits dup_hands dup_halves hidle hserves
      hbefore hreaches ⟨hrange, hbounded⟩
    obtain ⟨sent, hencode, hsent⟩ := copies_sent (start s.other).fecs (start s.other).idgen
      fun call hcall => (calls_fit hlen hrange s.other call hcall).1
    have hencoded := hfollowed.encoded s.other
    rw [hencode, Option.some.injEq] at hencoded
    have hgenuine := hfollowed.genuine s
    rw [← hencoded] at hgenuine
    obtain ⟨fecs, handed, hdecode, hforwards⟩ := copies_forwarded hconfigs hinit s (hnum s)
      (fun call hcall => (calls_fit hlen hrange s.other call hcall).2) (hbounded.count s.other)
      (fun a ha => arrivals_answer ha) (fun a ha => hsent _ (hgenuine a ha)) (hbounded.clock s)
    have hdecoded := hfollowed.decoded s
    rw [hlen, hdecode, Option.some.injEq] at hdecoded
    rw [(hfollowed.follows s).api, ← hdecoded]
    exact hforwards

end

/-- Of one message from the left two copies come to the right. -/
theorem every_copied_message_is_forwarded_one : ∃ start ends wires,
    Reaches dup_fec_encode dup_fec_decode start (from_left [one_byte 0 0 42] wires) ends ∧
    wires.length = 2 ∧ (ends .right).api_udp.sent = [(.addr_in 9 7, one_byte 5 6 42)] ∧
    ForwardsCopies [⟨2, 1, 0, 2, 100, fun _ => 0⟩] (calls_at 64 .left (from_left [one_byte 0 0 42] wires)) 0
      (arrivals_at 64 .right (from_left [one_byte 0 0 42] wires)) (ends .right).api_udp.sent := by
  have hrun : ((fecs_init [⟨2, 1, 0, 2, 100, fun _ => 0⟩]).bind fun fecs =>
      (end_turn dup_fec_encode dup_fec_decode (open_end fecs 0)
        (.api 0 (.addr_in 5 6) [] (one_byte 0 0 42))).bind fun t =>
      (t.tun_udp.sent[0]?).bind fun x => (t.tun_udp.sent[1]?).bind fun x' =>
      (end_turn dup_fec_encode dup_fec_decode (open_end fecs 0) (.tun [] x.2 1)).bind fun t' =>
      (end_turn dup_fec_encode dup_fec_decode t' (.tun [] x'.2 1)).map fun t'' =>
        ([fecs.length, x.2.length, x'.2.length], t''.api_udp.sent)) =
          some ([1, 30, 30], [(.addr_in 9 7, one_byte 5 6 42)]) := by
    decide +kernel
  simp only [Option.bind_eq_some_iff, Option.map_eq_some_iff, Prod.mk.injEq, List.cons.injEq] at hrun
  obtain ⟨fecs, hinit, t, ht, x, hx, x', hx', t', ht', t'', ht'', ⟨hone, hlen, hlen', -⟩, hsent⟩ := hrun
  have hfirst : Reaches dup_fec_encode dup_fec_decode (fun _ => open_end fecs 0)
      [(.left, .api 0 (.addr_in 5 6) [] (one_byte 0 0 42))]
      (Function.update (fun _ => open_end fecs 0) .left t) :=
    Reaches.turn Reaches.start
      (And.intro (show 0 < fecs.length from hone.symm ▸ Nat.one_pos) (by decide)) ht
  have hright : Function.update (fun _ => open_end fecs 0) peer.left t peer.right = open_end fecs 0 :=
    Function.update_of_ne (by decide) _ _
  have hsecond := Reaches.turn (s := .right) (e := .tun [] x.2 1) (t := t') hfirst
    ⟨List.mem_map_of_mem (List.mem_of_getElem? hx), by rw [hlen]; decide⟩ (by rw [hright]; exact ht')
  have hleft : Function.update (Function.update (fun _ => open_end fecs 0) peer.left t) peer.right t'
      peer.left = t := by
    rw [Function.update_of_ne (by decide), Function.update_self]
  have hreaches := Reaches.turn (s := .right) (e := .tun [] x'.2 1) (t := t'') hsecond
    ⟨List.mem_map_of_mem (by rw [peer.other, hleft]; exact List.mem_of_getElem? hx'),
      by rw [hlen']; decide⟩ (by rw [Function.update_self]; exact ht'')
  refine ⟨fun _ => open_end fecs 0, _, [x.2, x'.2], hreaches, rfl, ?_, ?_⟩
  · rw [Function.update_self]
    exact hsent
  · have hbuffers : ∀ _ : peer, ∀ c ∈ [(⟨2, 1, 0, 2, 100, fun _ => 0⟩ : config)],
        2 ≤ c.decode_buffer_size := by
      intro _ c hc
      rw [List.mem_singleton.mp hc]
    refine (every_copied_message_is_forwarded hbuffers (fun _ => hinit)
      (fun _ => idle_open_end hone 0) hreaches).2 ⟨fun s => ?_, fun s => ?_⟩ .right
    · refine (List.length_filterMap_le _ _).trans ((List.length_map _).trans_le
        ((List.length_filter_le _ _).trans ?_))
      exact (by decide : 3 ≤ 2 ^ 32)
    · refine List.Pairwise.imp_of_mem (fun {a a'} ha ha' _ => ?_) (List.pairwise_of_forall fun _ _ => trivial)
      rw [(arrivals_from_left 64 s [one_byte 0 0 42] [x.2, x'.2]).2 a ha,
        (arrivals_from_left 64 s [one_byte 0 0 42] [x.2, x'.2]).2 a' ha']

end nettle.tunnel
