-- The books of the processors of one program. They share the sockets, the
-- counters and the key center, and each has its own FEC; whatever the sockets
-- and the key center answer, every message and every datagram is counted once.
import Nettle.ProcessorSteps

open nettle.nt_fec nettle.nt_proto nettle.udp
open nettle.nt_rs_fec (idgen_t)

namespace nettle.nt_processor

variable {F φ : Type}

/-! ## Runs -/

/-- What the decoders hand over while the processors take messages in any order, and the one whose
turn it is, with what they share. -/
inductive Ran (nt_fec_encode : nt_fec_encode_t (F × idgen_t)) (nt_fec_decode : nt_fec_decode_t (F × idgen_t))
    (decode : decode_t F) (start : nt_fec_processor_t (F × idgen_t)) :
    List (List UInt8) → nt_fec_processor_t (F × idgen_t) → Prop
  | start : Ran nt_fec_encode nt_fec_decode decode start [] start
  | other {handed : List (List UInt8)} {processor : nt_fec_processor_t (F × idgen_t)} (fec : F) :
    Ran nt_fec_encode nt_fec_decode decode start handed processor →
    Ran nt_fec_encode nt_fec_decode decode start handed
      { processor with fec := (fec, processor.fec.2) }
  | encoder {handed : List (List UInt8)} {processor processor' : nt_fec_processor_t (F × idgen_t)}
      {message : List UInt8} : Ran nt_fec_encode nt_fec_decode decode start handed processor →
    encoder_on_message nt_fec_encode processor message = some processor' →
    Ran nt_fec_encode nt_fec_decode decode start handed processor'
  | decoder {handed more : List (List UInt8)} {processor processor' : nt_fec_processor_t (F × idgen_t)}
      {message : List UInt8} {current : Int} {failure : Option decode_failure} {err : error_t} {fec : F} :
    Ran nt_fec_encode nt_fec_decode decode start handed processor →
    decoder_on_message nt_fec_decode processor message current = some (processor', failure) →
    decode processor.fec.1 (nt_fec_header_at message) ((message.drop 10).take
      (nt_fec_header_payload_size (nt_fec_header_at message)).toNat) current = some (err, fec, more) →
    Ran nt_fec_encode nt_fec_decode decode start (handed ++ more) processor'

/-! ## The books -/

/-- The system took a datagram. -/
def answered (udp : udp_t) (x : address_t × List UInt8) : Bool := (udp.sendmsg none x.1 x.2).isOk

def sizes (sent : List (address_t × List UInt8)) : Nat := (sent.map fun x => x.2.length).sum

/-- What the counters of the API side say of the messages that were handed over and the datagrams. -/
structure ApiBooks (perf : perf_t) (udp : udp_t) (handed : List (List UInt8)) : Prop where
  handed : perf .COUNTER_API_SENT + perf .COUNTER_API_SEND_ERROR + perf .COUNTER_CORRUPT_DECODED_DATA +
    perf .COUNTER_TTL_EXCEEDED + perf .COUNTER_DECRYPT_ERROR = handed.length
  sent : perf .COUNTER_API_SENT = (udp.sent.filter (answered udp)).length
  version : perf .COUNTER_API_SENT_V1 = perf .COUNTER_API_SENT
  bytes : perf .COUNTER_API_SENT_BYTES = sizes (udp.sent.filter (answered udp))
  error : perf .COUNTER_API_SEND_ERROR = (udp.sent.filter fun x => !answered udp x).length
  form : ∀ x ∈ udp.sent, ToApi x

/-- The same for the side of the tunnel. -/
structure TunBooks (perf : perf_t) (udp : udp_t) : Prop where
  sent : perf .COUNTER_TUN_SENT + perf .COUNTER_TUN_SEND_ERROR = udp.sent.length
  bytes : perf .COUNTER_TUN_SENT_BYTES ≤ sizes udp.sent
  form : ∀ x ∈ udp.sent, ToTunnel x

structure Books (processor : nt_fec_processor_t φ) (handed : List (List UInt8)) : Prop where
  api : ApiBooks processor.perf processor.api_udp handed
  tun : TunBooks processor.perf processor.tun_udp

/-! ## One step -/

/-- A message that is not sent on is counted. -/
theorem ApiBooks.counted {perf : perf_t} {udp : udp_t} {handed : List (List UInt8)}
    (h : ApiBooks perf udp handed) (decoded : List UInt8) {name : counter}
    (hname : name ∈ [counter.COUNTER_CORRUPT_DECODED_DATA, .COUNTER_TTL_EXCEEDED,
      .COUNTER_DECRYPT_ERROR]) : ApiBooks (perf_inc perf name 1) udp (handed ++ [decoded]) := by
  obtain ⟨hhanded, hsent, hversion, hbytes, herror, hform⟩ := h
  simp only [List.mem_cons, List.not_mem_nil, or_false] at hname
  rcases hname with rfl | rfl | rfl <;>
    refine ⟨?_, hsent, hversion, hbytes, herror, hform⟩ <;>
    simp [← hhanded] <;> omega

theorem sizes_append (sent : List (address_t × List UInt8)) (x : address_t × List UInt8) :
    sizes (sent ++ [x]) = sizes sent + x.2.length := by
  simp [sizes]

/-- A message that is sent on is counted with what the system has answered. -/
theorem ApiBooks.sent_on {perf : perf_t} {udp : udp_t} {handed : List (List UInt8)}
    (h : ApiBooks perf udp handed) (decoded : List UInt8) {x : address_t × List UInt8} (hx : ToApi x)
    (hok : ∀ n, udp.sendmsg none x.1 x.2 = .ok n → n = x.2.length) :
    ApiBooks (api_counts perf (udp.sendmsg none x.1 x.2)) { udp with sent := udp.sent ++ [x] }
      (handed ++ [decoded]) := by
  obtain ⟨hhanded, hsent, hversion, hbytes, herror, hform⟩ := h
  have hforms : ∀ y ∈ udp.sent ++ [x], ToApi y := by
    intro y hy
    rcases List.mem_append.mp hy with hy | hy
    · exact hform y hy
    · rw [List.mem_singleton.mp hy]
      exact hx
  cases hsend : udp.sendmsg none x.1 x.2 with
  | ok n =>
    have hx' : answered udp x = true := by
      rw [answered, hsend]
      rfl
    have hfilter : (udp.sent ++ [x]).filter (answered udp) = udp.sent.filter (answered udp) ++ [x] := by
      simp [hx']
    obtain rfl := hok n hsend
    refine ⟨?_, ?_, ?_, ?_, ?_, hforms⟩
    · simp [api_counts]
      omega
    · refine Eq.trans ?_ (congrArg List.length hfilter).symm
      simp [api_counts, hsent]
    · simpa [api_counts] using hversion
    · refine Eq.trans ?_ (congrArg sizes hfilter).symm
      simp [api_counts, hbytes, sizes_append]
    · have hnot : (udp.sent ++ [x]).filter (fun y => !answered udp y) =
          udp.sent.filter fun y => !answered udp y := by
        simp [hx']
      exact herror.trans (congrArg List.length hnot).symm
  | error err =>
    have hx' : answered udp x = false := by
      rw [answered, hsend]
      rfl
    have hfilter : (udp.sent ++ [x]).filter (answered udp) = udp.sent.filter (answered udp) := by
      simp [hx']
    refine ⟨?_, ?_, ?_, ?_, ?_, hforms⟩
    · simp [api_counts]
      omega
    · exact hsent.trans (congrArg List.length hfilter).symm
    · exact hversion
    · exact hbytes.trans (congrArg sizes hfilter).symm
    · have hnot : (udp.sent ++ [x]).filter (fun y => !answered udp y) =
          (udp.sent.filter fun y => !answered udp y) ++ [x] := by
        simp [hx']
      refine Eq.trans ?_ (congrArg List.length hnot).symm
      simp [api_counts, herror]

/-- The counters of the API side do not change when packets are sent, nor those of the tunnel when
messages are. -/
theorem ApiBooks.frame {perf perf' : perf_t} {udp : udp_t} {handed : List (List UInt8)}
    (h : ApiBooks perf udp handed)
    (hsame : ∀ name, name ∉ [counter.COUNTER_TUN_SENT, .COUNTER_TUN_SENT_BYTES, .COUNTER_TUN_SEND_ERROR,
      .COUNTER_ENCRYPT_ERROR] → perf' name = perf name) : ApiBooks perf' udp handed := by
  obtain ⟨hhanded, hsent, hversion, hbytes, herror, hform⟩ := h
  refine ⟨?_, ?_, ?_, ?_, ?_, hform⟩
  · simpa (disch := decide) only [hsame] using hhanded
  · simpa (disch := decide) only [hsame] using hsent
  · simpa (disch := decide) only [hsame] using hversion
  · simpa (disch := decide) only [hsame] using hbytes
  · simpa (disch := decide) only [hsame] using herror

theorem TunBooks.frame {perf perf' : perf_t} {udp : udp_t} (h : TunBooks perf udp)
    (hsame : ∀ name ∈ [counter.COUNTER_TUN_SENT, .COUNTER_TUN_SENT_BYTES, .COUNTER_TUN_SEND_ERROR],
      perf' name = perf name) : TunBooks perf' udp := by
  simp only [List.forall_mem_cons] at hsame
  obtain ⟨hsent, hbytes, herror, -⟩ := hsame
  refine ⟨?_, ?_, h.form⟩
  · rw [hsent, herror, h.sent]
  · rw [hbytes]
    exact h.bytes

/-- A decoded message is sent on, or it is counted why not. -/
theorem Books.decoded {processor processor' : nt_fec_processor_t φ} {handed : List (List UInt8)}
    (h : Books processor handed) (decoded : List UInt8) (hone : Decoded processor processor') :
    Books processor' (handed ++ [decoded]) := by
  cases hone with
  | counted name hname =>
    refine ⟨h.api.counted decoded hname, h.tun.frame fun name' hname' => ?_⟩
    refine Function.update_of_ne (fun heq => ?_) _ _
    subst heq
    simp only [List.mem_cons, List.not_mem_nil, or_false] at hname hname'
    rcases hname with rfl | rfl | rfl <;> simp at hname'
  | sent x hx hok =>
    refine ⟨h.api.sent_on decoded hx hok, h.tun.frame fun name hname => ?_⟩
    cases hsend : processor.api_udp.sendmsg none x.1 x.2 <;> simp only [api_counts, perf_inc_apply] <;>
      revert hname <;> cases name <;> simp

theorem tun_counts_other (answers : List (Except error_t Nat)) (perf : perf_t) {name : counter}
    (hname : name ∉ [counter.COUNTER_TUN_SENT, .COUNTER_TUN_SENT_BYTES, .COUNTER_TUN_SEND_ERROR,
      .COUNTER_ENCRYPT_ERROR]) : answers.foldl tun_counts perf name = perf name := by
  induction answers generalizing perf with
  | nil => rfl
  | cons answer answers ih =>
    rw [List.foldl_cons, ih]
    cases answer <;> simp only [tun_counts, perf_inc_apply] <;> revert hname <;> cases name <;> simp

/-- The datagrams of an encoder are counted with what the system has answered. -/
theorem TunBooks.sent_on {s s' : udp_t × perf_t} (h : TunBooks s.2 s.1) (hsent : TunSent s s') :
    TunBooks s'.2 s'.1 := by
  obtain ⟨sends, rfl, hsends⟩ := hsent
  obtain ⟨udp, perf⟩ := s
  induction sends generalizing udp perf with
  | nil => simpa using h
  | cons send sends ih =>
    obtain ⟨⟨hform, ⟨src, hsrc⟩, hfits⟩, hsends⟩ := List.forall_mem_cons.mp hsends
    have hnext : TunBooks (tun_counts perf send.2) { udp with sent := udp.sent ++ [send.1] } := by
      refine ⟨?_, ?_, fun x hx => ?_⟩
      · rw [List.length_append, ← h.sent]
        cases send.2 <;> simp [tun_counts] <;> omega
      · rw [sizes_append]
        have hbytes := h.bytes
        cases hanswer : send.2 with
        | ok n =>
          have hn := hfits n hanswer
          simp only [tun_counts, perf_inc_apply]
          simp at hbytes ⊢
          omega
        | error err =>
          simp only [tun_counts, perf_inc_apply]
          simp at hbytes ⊢
          omega
      · rcases List.mem_append.mp hx with hx | hx
        · exact h.form x hx
        · rw [List.mem_singleton.mp hx]
          exact hform
    have hall := ih { udp with sent := udp.sent ++ [send.1] } (tun_counts perf send.2) hnext hsends
    simpa only [List.map_cons, List.foldl_cons, List.append_assoc, List.singleton_append] using hall

variable {nt_fec_encode : nt_fec_encode_t (F × idgen_t)} {nt_fec_decode : nt_fec_decode_t (F × idgen_t)}
  {encode : encode_t F} {decode : decode_t F}

/-- An encoder changes the books of the tunnel. -/
theorem Books.encoded (hemits : Emits nt_fec_encode encode)
    {processor processor' : nt_fec_processor_t (F × idgen_t)} {handed : List (List UInt8)}
    {message : List UInt8} (h : Books processor handed)
    (hmessage : encoder_on_message nt_fec_encode processor message = some processor') :
    Books processor' handed := by
  rcases encoder_on_message_cases hemits hmessage with ⟨fec, tun_udp, perf, rfl, hsent⟩ | rfl
  · refine ⟨h.api.frame fun name hname => ?_, h.tun.sent_on (s := (_, _)) hsent⟩
    obtain ⟨sends, heq, -⟩ := hsent
    rw [(Prod.mk.inj heq).2]
    exact tun_counts_other _ _ hname
  · refine ⟨h.api.frame fun name hname => ?_, h.tun.frame fun name hname => ?_⟩
    · refine Function.update_of_ne (fun heq => ?_) _ _
      simp [heq] at hname
    · refine Function.update_of_ne (fun heq => ?_) _ _
      simp [heq] at hname

/-- A decoder changes the books of the API. -/
theorem Books.decoded_all {processor processor' : nt_fec_processor_t φ} {handed more : List (List UInt8)}
    (h : Books processor handed) (hall : DecodedAll processor more processor') :
    Books processor' (handed ++ more) := by
  induction hall with
  | start => simpa using h
  | next decoded hbefore hone ih =>
    rw [← List.append_assoc]
    exact ih.decoded decoded hone

/-! ## Any run -/

/-- The books are right after every run: each message that a decoder hands over is sent on or
counted as corrupt, too old or not decrypted; the counters of what was sent, its bytes and the errors
agree with the datagrams and what the system answered to them, on both sides; and no datagram has
another size than its header says. -/
theorem books_are_right (hemits : Emits nt_fec_encode encode) (hhands : HandsOver nt_fec_decode decode)
    {start processor : nt_fec_processor_t (F × idgen_t)} (hperf : start.perf = fun _ => 0)
    (hsent : start.api_udp.sent = [] ∧ start.tun_udp.sent = []) {handed : List (List UInt8)}
    (h : Ran nt_fec_encode nt_fec_decode decode start handed processor) : Books processor handed := by
  induction h with
  | start =>
    refine ⟨⟨?_, ?_, ?_, ?_, ?_, ?_⟩, ?_, ?_, ?_⟩ <;> simp [hperf, hsent.1, hsent.2, sizes]
  | other fec _ ih => exact ⟨ih.api, ih.tun⟩
  | encoder _ hmessage ih => exact ih.encoded hemits hmessage
  | decoder _ hmessage hone ih =>
    obtain ⟨err, fec, more, processor', hone', hall, heq⟩ := decoder_on_message_cases hhands hmessage
    rw [hone, Option.some.injEq, Prod.mk.injEq, Prod.mk.injEq] at hone'
    obtain ⟨rfl, rfl, rfl⟩ := hone'
    obtain rfl := (Prod.mk.inj heq).1
    have hbooks := ih.decoded_all hall
    exact ⟨hbooks.api, hbooks.tun⟩

/-- A processor without a FEC on one path. -/
def plain_processor : nt_fec_processor_t (Unit × idgen_t) where
  distributor := ⟨[⟨.addr_in 1 1, .addr_in 2 2⟩], [0], 1, 1⟩
  api_udp := ⟨fun _ _ datagram => .ok datagram.length, []⟩
  tun_udp := ⟨fun _ _ datagram => .ok datagram.length, []⟩
  fec := ((), 0)
  encryptor := none
  perf := fun _ => 0

theorem books_are_right_two : ∃ (processor : nt_fec_processor_t (Unit × idgen_t))
    (handed : List (List UInt8)),
    Ran dummy_fec_encode dummy_fec_decode dummy_handed plain_processor handed processor ∧
    processor.perf .COUNTER_TUN_SENT_BYTES = 30 ∧ processor.perf .COUNTER_API_SENT_BYTES = 20 ∧
    Books processor handed := by
  have hrun : ((encoder_on_message dummy_fec_encode plain_processor
      [87, 0, 0, 0, 1, 0, 0, 0, 0, 0, 0, 9, 0, 0, 0, 7, 0, 0, 1, 42]).bind fun p =>
      p.tun_udp.sent.head?.bind fun x => (decoder_on_message dummy_fec_decode p x.2 1).bind fun p' =>
      (dummy_handed p.fec.1 (nt_fec_header_at x.2) ((x.2.drop 10).take
        (nt_fec_header_payload_size (nt_fec_header_at x.2)).toNat) 1).map fun _ =>
          (p'.1.perf .COUNTER_TUN_SENT_BYTES, p'.1.perf .COUNTER_API_SENT_BYTES)) = some (30, 20) := by
    decide +kernel
  simp only [Option.bind_eq_some_iff, Option.map_eq_some_iff, Prod.mk.injEq] at hrun
  obtain ⟨p, hencoder, x, -, ⟨p', failure⟩, hdecoder, ⟨err, fec, more⟩, hone, htun, hapi⟩ := hrun
  have hran := (Ran.start.encoder hencoder).decoder hdecoder hone
  exact ⟨p', _, hran, htun, hapi, books_are_right dummy_emits dummy_hands rfl ⟨rfl, rfl⟩ hran⟩

end nettle.nt_processor
