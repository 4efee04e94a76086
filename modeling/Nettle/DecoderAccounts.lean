-- The block counters of the decoder: what each call adds to them, and the
-- packets that make them disagree with the buffers.
import Nettle.DecoderCalls

open nettle.nt_fec nettle.rs

namespace nettle.nt_rs_fec

/-! ## The accounts -/

/-- The buffers that hold an incomplete block. -/
def open_blocks (fec : nt_rs_fec_t) : Nat :=
  fec.decode_buffer_pool.countP fun b =>
    rs_is_dc_complete fec.rs b.buffer == some false && decide (b.timestamp > 0)

/-- Every block counted is complete, restored or expired, or still open. -/
def balanced (fec : nt_rs_fec_t) : Prop :=
  fec.perf .COUNTER_DECODER_BLOCK_COUNT = fec.perf .COUNTER_DECODER_BLOCK_COMPLETE +
    fec.perf .COUNTER_DECODER_BLOCK_RESTORE + fec.perf .COUNTER_DECODER_BLOCK_EXPIRE +
    open_blocks fec

/-- The packet has no degree of the block, or more payload than that degree allows. -/
def malformed (rs : rs_t) (header : nt_fec_header_t) (input : List UInt8) : Prop :=
  (rs.N : Int) - 1 - header.block_index.toNat < 0 ∨
    input.length > allowed rs ((rs.N : Int) - 1 - header.block_index.toNat).toNat

/-- The packet is the first for its block: the buffer of the block is blank or too old, or it has
none yet and can take the eldest. -/
def starts_block (fec : nt_rs_fec_t) (header : nt_fec_header_t) (current : Int) : Prop :=
  match cached_buffer fec (nt_fec_header_block_id header) with
  | some b => b.timestamp = 0 ∨ current - b.timestamp > fec.decode_timeout
  | none => ∃ b, eldest_buffer fec = some b ∧
      ¬in_progress fec.rs.K fec.decode_timeout current b

/-- The packet is counted as a block that never gets a buffer. -/
def miscounted (fec : nt_rs_fec_t) (call : nt_fec_header_t × List UInt8 × Int) : Prop :=
  ¬foreign fec.rs.N fec.rs.K call.1 ∧ starts_block fec call.1 call.2.2 ∧
    malformed fec.rs call.1 call.2.1

/-- An incomplete block in a buffer of the shelf. -/
def is_open (K : Nat) (b : decode_buffer_t) : Prop := b.buffer.count ≠ K ∧ b.timestamp > 0

instance (K : Nat) (b : decode_buffer_t) : Decidable (is_open K b) :=
  inferInstanceAs (Decidable (_ ∧ _))

/-- By how much the counted blocks are more than the others. -/
def surplus (K : Nat) (perf : perf_t) (slots : shelf) : Int :=
  perf .COUNTER_DECODER_BLOCK_COUNT - perf .COUNTER_DECODER_BLOCK_COMPLETE -
    perf .COUNTER_DECODER_BLOCK_RESTORE - perf .COUNTER_DECODER_BLOCK_EXPIRE -
    (slots.countP fun s => decide (is_open K s.2) : Nat)

section

variable {N K D B : Nat} {timeout : Int} {fec : nt_rs_fec_t} {slots : shelf}

theorem open_blocks_eq (h : Shelved N K D B timeout fec slots) :
    open_blocks fec = slots.countP fun s => decide (is_open K s.2) := by
  rw [open_blocks, ← (pool_perm h).countP_eq, List.countP_map]
  refine List.countP_congr fun s hs => ?_
  rw [Function.comp_apply, h.complete hs]
  simp [is_open]

theorem balanced_iff (h : Shelved N K D B timeout fec slots) :
    balanced fec ↔ surplus K fec.perf slots = 0 := by
  rw [balanced, surplus, open_blocks_eq h]
  omega

end

/-! ## One call -/

/-- A buffer is blank, or packets came to it at some positive time. -/
def Timed (slots : shelf) : Prop :=
  ∀ s ∈ slots, s.2.timestamp = 0 ∧ s.2.buffer.count = 0 ∨ s.2.timestamp > 0

theorem Timed.from {rs : rs_t} {block_id : UInt32} {slots slots' : shelf} (h : Timed slots)
    (hfrom : FromShelf rs block_id slots slots') : Timed slots' := by
  intro s hs
  rcases hfrom s hs with hold | hfresh
  · exact h s hold
  · rw [hfresh]
    exact Or.inl ⟨rfl, rfl⟩

section

variable {rs : rs_t} {timeout : Int} {block_id : UInt32} {current : Int} {perf perf' : perf_t}
  {slots slots' rest : shelf} {s : Nat × decode_buffer_t} {result : Except error_t Unit}

theorem surplus_perm (K : Nat) (perf : perf_t) (h : slots'.Perm slots) :
    surplus K perf slots' = surplus K perf slots := by
  rw [surplus, surplus, h.countP_eq]

theorem surplus_cons (K : Nat) (perf : perf_t) (s : Nat × decode_buffer_t) (slots : shelf) :
    surplus K perf (s :: slots) = surplus K perf slots - if is_open K s.2 then 1 else 0 := by
  rw [surplus, surplus, List.countP_cons]
  simp only [decide_eq_true_eq]
  split <;> push_cast <;> ring

/-- A block that is given up goes from the open to the expired ones. -/
theorem surplus_expired (K : Nat) (perf : perf_t) (s : Nat × decode_buffer_t) (slots : shelf) :
    surplus K (perf_expired K perf s.2) slots = surplus K perf (s :: slots) := by
  rw [surplus_cons, perf_expired]
  by_cases hopen : is_open K s.2
  · have hexpired : s.2.buffer.count ≠ K ∧ s.2.timestamp > 0 := hopen
    rw [if_pos hopen, if_pos hexpired]
    simp [surplus]
    ring
  · have hkept : ¬(s.2.buffer.count ≠ K ∧ s.2.timestamp > 0) := hopen
    rw [if_neg hopen, if_neg hkept, Int.sub_zero]

theorem surplus_fresh (K : Nat) (perf : perf_t) (rs : rs_t) (i : Nat) (block_id : UInt32)
    (slots : shelf) :
    surplus K perf ((i, fresh_buffer rs block_id) :: slots) = surplus K perf slots := by
  rw [surplus_cons, if_neg (fun hopen => absurd hopen.2 (Int.lt_irrefl 0)), Int.sub_zero]

/-- Looking for a buffer keeps the accounts. -/
theorem Looked.surplus_eq (h : Looked rs timeout block_id current perf slots slots' perf' result) :
    surplus rs.K perf' slots' = surplus rs.K perf slots := by
  cases h with
  | processed => exact surplus_perm _ _ List.perm_middle.symm
  | found => exact surplus_perm _ _ List.perm_middle.symm
  | expired =>
    rw [surplus_fresh, surplus_expired]
    exact surplus_perm _ _ List.perm_middle.symm
  | full => rfl
  | @taken newer s =>
    rw [surplus_fresh, surplus_expired]
    exact surplus_perm _ _ (List.perm_append_singleton s newer).symm

theorem surplus_counted (K : Nat) (perf : perf_t) (timestamp : Int) (slots : shelf) :
    surplus K (perf_counted perf timestamp) slots =
      surplus K perf slots + if timestamp = 0 then 1 else 0 := by
  unfold perf_counted
  split
  · simp [surplus]
    ring
  · rw [Int.add_zero]

/-- A packet that is added opens a block, goes to an open one, or makes it complete. -/
theorem surplus_accepted {K : Nat} (perf : perf_t) {s : Nat × decode_buffer_t}
    (hroom : s.2.buffer.count ≠ K) (htimed : s.2.timestamp = 0 ∨ s.2.timestamp > 0)
    {b : decode_buffer_t} (hb : b.timestamp > 0) (n : Nat) (is_raw : Bool) (i : Nat)
    (rest : shelf) :
    surplus K (perf_accepted perf s.2.timestamp (b.buffer.count == K) n is_raw) ((i, b) :: rest) =
      surplus K perf (s :: rest) := by
  have hopen : is_open K s.2 ↔ s.2.timestamp > 0 := and_iff_right hroom
  have hopen' : is_open K b ↔ b.buffer.count ≠ K := and_iff_left hb
  have hraw : ∀ perf : perf_t, surplus K (if is_raw then
      perf_inc perf .COUNTER_DECODER_RAW 1 else perf) ((i, b) :: rest) =
        surplus K perf ((i, b) :: rest) := by
    intro perf
    cases is_raw <;> simp [surplus]
  have hdone : ∀ perf : perf_t, surplus K (if ¬(b.buffer.count == K) = true then perf
      else if n = 0 then perf_inc perf .COUNTER_DECODER_BLOCK_COMPLETE 1
      else perf_inc (perf_inc perf .COUNTER_DECODER_BLOCK_RESTORE 1) .COUNTER_DECODER_RESTORE n)
        ((i, b) :: rest) = surplus K perf rest - 1 := by
    intro perf
    rw [surplus_cons]
    by_cases hfull : b.buffer.count = K
    · rw [if_neg (not_not.mpr (beq_iff_eq.mpr hfull)), if_neg (fun h => hopen'.mp h hfull)]
      split
      · simp [surplus]
        ring
      · simp [surplus]
        ring
    · rw [if_pos (beq_iff_eq.not.mpr hfull), if_pos (hopen'.mpr hfull)]
  unfold perf_accepted
  rw [hraw, hdone, ← perf_counted, surplus_counted, surplus_cons]
  rcases htimed with hzero | hpos
  · rw [if_pos hzero, if_neg (fun h => absurd (hopen.mp h) (by omega))]
    ring
  · rw [if_neg (by omega), if_pos (hopen.mpr hpos)]
    ring

end

section

variable {N K D B : Nat} {timeout : Int} {fec : nt_rs_fec_t} {slots slots' : shelf}
  {header : nt_fec_header_t} {input : List UInt8} {current : Int} {perf' : perf_t}

/-- A context refuses the malformed packets, and those that it has. -/
theorem rs_decode_error {rs : rs_t} {ds : List Nat} {dc dc' : rs_dc_t} {err : rs_error}
    (h : Marked rs ds dc)
    (hdecode : rs_decode rs dc input ((rs.N : Int) - 1 - header.block_index.toNat) =
      some (dc', .error err)) :
    malformed rs header input ∧ err ≠ .E_RS_DUPLICATE ∨ err = .E_RS_DUPLICATE ∧ ds ≠ [] := by
  unfold malformed
  by_cases hneg : (rs.N : Int) - 1 - header.block_index.toNat < 0
  · rw [rs_decode_degree (Or.inl hneg)] at hdecode
    cases hdecode
    exact Or.inl ⟨Or.inl hneg, nofun⟩
  obtain ⟨d, hd⟩ := Int.eq_ofNat_of_zero_le (not_lt.mp hneg)
  have hlt : d < rs.N := by omega
  rw [hd] at hdecode ⊢
  by_cases hsize : input.length ≤ allowed rs d
  · cases hset : bitmap256_isset dc.mask d with
    | true =>
      rw [rs_decode_duplicate hlt hsize hset] at hdecode
      cases hdecode
      refine Or.inr ⟨rfl, ?_⟩
      rintro rfl
      rw [h.isset] at hset
      simp at hset
    | false =>
      rw [rs_decode_new hlt hsize hset] at hdecode
      split at hdecode <;> cases hdecode
  · rw [rs_decode_size hlt (not_le.mp hsize)] at hdecode
    cases hdecode
    exact Or.inl ⟨Or.inr (not_le.mp hsize), nofun⟩

theorem rs_decode_ok {rs : rs_t} {dc dc' : rs_dc_t} {n : Nat} {is_raw : Bool}
    (hdecode : rs_decode rs dc input ((rs.N : Int) - 1 - header.block_index.toNat) =
      some (dc', .ok (n, is_raw))) : ¬malformed rs header input := by
  rintro (hneg | hsize)
  · rw [rs_decode_degree (Or.inl hneg)] at hdecode
    cases hdecode
  · by_cases hneg : (rs.N : Int) - 1 - header.block_index.toNat < 0
    · rw [rs_decode_degree (Or.inl hneg)] at hdecode
      cases hdecode
    obtain ⟨d, hd⟩ := Int.eq_ofNat_of_zero_le (not_lt.mp hneg)
    rw [hd] at hdecode hsize
    have hover : allowed rs d < input.length := hsize
    rw [rs_decode_size (by omega) hover] at hdecode
    cases hdecode

/-- A buffer to feed is blank just if the packet is the first of its block. -/
theorem starts_block_of_looked (h : Shelved N K D B timeout fec slots) {s : Nat × decode_buffer_t}
    {rest : shelf} (hlooked : Looked (rs_init N K D) timeout (nt_fec_header_block_id header) current
      fec.perf slots (s :: rest) perf' (.ok ())) :
    starts_block fec header current ↔ s.2.timestamp = 0 := by
  unfold starts_block
  rw [h.rs, h.timeout]
  generalize hslots : s :: rest = slots', hresult : Except.ok () = result at hlooked
  cases hlooked with
  | processed => cases hresult
  | @found newer older s₀ hid hrecent =>
    cases hslots
    rw [← hid, cached_buffer_present h (by simp)]
    exact or_iff_left (by omega)
  | @expired newer older s₀ hid hold =>
    cases hslots
    rw [← hid, cached_buffer_present h (s := s₀) (by simp)]
    exact iff_of_true (Or.inr (by omega)) rfl
  | full => cases hresult
  | @taken newer s₀ hid hidle =>
    cases hslots
    rw [cached_buffer_absent h hid]
    exact iff_of_true ⟨s₀.2, eldest_buffer_eq h, hidle⟩ rfl

theorem not_starts_block_of_settled (h : Shelved N K D B timeout fec slots) (hK : 1 ≤ K)
    (htimed : Timed slots) {err : error_t}
    (hlooked : Looked (rs_init N K D) timeout (nt_fec_header_block_id header) current
      fec.perf slots slots' perf' (.error err)) : ¬starts_block fec header current := by
  unfold starts_block
  rw [h.rs, h.timeout]
  cases hlooked with
  | @processed newer older s hid hrecent hfull =>
    have hs : s ∈ newer ++ s :: older := by simp
    rw [← hid, cached_buffer_present h hs]
    rw [rs_init_K] at hfull
    have := htimed s hs
    rintro (hzero | hold) <;> omega
  | @full newer s hid hprogress =>
    rw [cached_buffer_absent h hid]
    rintro ⟨b, heldest, hidle⟩
    rw [eldest_buffer_eq h, Option.some.injEq] at heldest
    exact hidle (heldest ▸ hprogress)

/-- A call keeps the accounts, unless its packet is miscounted. -/
theorem answered_surplus {σ : Type} {callback : σ → List UInt8 → Int → error_t × σ}
    {extra extra' : σ} {err : error_t} (h : Shelved N K D B timeout fec slots) (hK : 1 ≤ K)
    (hsane : SaneShelf N K D slots) (htimed : Timed slots) (hcurrent : 0 < current)
    (hcall : Answered (rs_init N K D) timeout callback header input current extra fec.perf slots err
      slots' perf' extra') :
    Timed slots' ∧ ((¬miscounted fec (header, input, current) ∧
        surplus K perf' slots' = surplus K fec.perf slots) ∨
      miscounted fec (header, input, current) ∧
        surplus K perf' slots' = surplus K fec.perf slots + 1) := by
  unfold miscounted
  rw [h.rs]
  cases hcall with
  | foreign hforeign => exact ⟨htimed, Or.inl ⟨fun hmis => hmis.1 hforeign, rfl⟩⟩
  | settled hown hlooked =>
    exact ⟨htimed.from hlooked.from_shelf, Or.inl ⟨fun hmis =>
      not_starts_block_of_settled h hK htimed hlooked hmis.2.1, hlooked.surplus_eq⟩⟩
  | @refused s rest perf₁ err hown hlooked hdecode =>
    have htimed' := htimed.from hlooked.from_shelf
    have hstarts := starts_block_of_looked h hlooked
    obtain ⟨ds, hds⟩ := hsane.from hlooked.from_shelf s List.mem_cons_self
    have hkept : surplus K perf₁ (s :: rest) = surplus K fec.perf slots := hlooked.surplus_eq
    refine ⟨htimed', ?_⟩
    rw [surplus_counted, hkept]
    by_cases hzero : s.2.timestamp = 0
    · rcases rs_decode_error hds.marked hdecode with ⟨hmal, -⟩ | ⟨-, hsome⟩
      · rw [if_pos hzero]
        exact Or.inr ⟨⟨hown, hstarts.mpr hzero, hmal⟩, rfl⟩
      · have hcount := hds.marked.count
        rcases htimed' s List.mem_cons_self with ⟨-, hnone⟩ | hpos
        · rw [hnone] at hcount
          exact absurd (List.length_eq_zero_iff.mp hcount.symm) hsome
        · omega
    · rw [if_neg hzero, Int.add_zero]
      exact Or.inl ⟨fun hmis => hzero (hstarts.mp hmis.2.1), rfl⟩
  | @accepted s rest perf₁ dc n is_raw _ _ hown hlooked hdecode hdeliver =>
    have htimed' := htimed.from hlooked.from_shelf
    refine ⟨fun t ht => ?_, Or.inl ⟨fun hmis => rs_decode_ok hdecode hmis.2.2, ?_⟩⟩
    · rcases List.mem_cons.mp ht with rfl | ht
      · exact Or.inr hcurrent
      · exact htimed' t (List.mem_cons_of_mem s ht)
    · have hroom := hlooked.room hK h.count
      rw [rs_init_K] at hroom ⊢
      have hs := htimed' s List.mem_cons_self
      rw [surplus_accepted (b := { s.2 with buffer := dc, timestamp := current }) perf₁ hroom.ne
        (hs.imp_left And.left) hcurrent n is_raw s.1 rest]
      exact hlooked.surplus_eq

end

/-! ## Any run -/

section

variable {N K D B : Nat} {timeout : Int} {σ : Type}
  (callback : σ → List UInt8 → Int → error_t × σ)

/-- The accounts are right in every state of a run. -/
def AlwaysBalanced (calls : List (nt_fec_header_t × List UInt8 × Int)) (fec : nt_rs_fec_t)
    (extra : σ) : Prop :=
  ∀ pre, pre <+: calls → ∃ fec' extra', decode_calls callback pre fec extra = some (fec', extra') ∧
    balanced fec'

/-- No packet of a run is miscounted. -/
def NeverMiscounted (calls : List (nt_fec_header_t × List UInt8 × Int)) (fec : nt_rs_fec_t)
    (extra : σ) : Prop :=
  ∀ pre call, pre ++ [call] <+: calls →
    ∃ fec' extra', decode_calls callback pre fec extra = some (fec', extra') ∧
      ¬miscounted fec' call

variable {callback} in
/-- The first call of a run apart from the others. -/
theorem always_balanced_cons {header : nt_fec_header_t} {input : List UInt8} {current : Int}
    {calls : List (nt_fec_header_t × List UInt8 × Int)} {fec fec' : nt_rs_fec_t} {extra extra' : σ}
    {err : error_t} (hcall : nt_rs_fec_decode fec header input current extra callback =
      some (err, fec', extra')) :
    AlwaysBalanced callback ((header, input, current) :: calls) fec extra ↔
      balanced fec ∧ AlwaysBalanced callback calls fec' extra' := by
  have hrun : ∀ pre, decode_calls callback ((header, input, current) :: pre) fec extra =
      decode_calls callback pre fec' extra' := fun pre => by
    rw [decode_calls, hcall]
  constructor
  · intro h
    refine ⟨?_, fun pre hpre => ?_⟩
    · obtain ⟨fec₀, extra₀, hnone, hbalanced⟩ := h [] List.nil_prefix
      cases hnone
      exact hbalanced
    · rw [← hrun]
      exact h _ ((List.prefix_cons_inj _).mpr hpre)
  · rintro ⟨hfirst, hrest⟩ pre hpre
    rcases List.prefix_cons_iff.mp hpre with rfl | ⟨pre', rfl, hpre'⟩
    · exact ⟨fec, extra, rfl, hfirst⟩
    · rw [hrun]
      exact hrest pre' hpre'

variable {callback} in
theorem never_miscounted_cons {header : nt_fec_header_t} {input : List UInt8} {current : Int}
    {calls : List (nt_fec_header_t × List UInt8 × Int)} {fec fec' : nt_rs_fec_t} {extra extra' : σ}
    {err : error_t} (hcall : nt_rs_fec_decode fec header input current extra callback =
      some (err, fec', extra')) :
    NeverMiscounted callback ((header, input, current) :: calls) fec extra ↔
      ¬miscounted fec (header, input, current) ∧ NeverMiscounted callback calls fec' extra' := by
  have hrun : ∀ pre, decode_calls callback ((header, input, current) :: pre) fec extra =
      decode_calls callback pre fec' extra' := fun pre => by
    rw [decode_calls, hcall]
  constructor
  · intro h
    refine ⟨?_, fun pre call hpre => ?_⟩
    · obtain ⟨fec₀, extra₀, hnone, hright⟩ := h [] _ ((List.prefix_cons_inj _).mpr List.nil_prefix)
      cases hnone
      exact hright
    · rw [← hrun]
      exact h _ call ((List.prefix_cons_inj _).mpr hpre)
  · rintro ⟨hfirst, hrest⟩ pre call hpre
    cases pre with
    | nil =>
      obtain ⟨rfl, -⟩ := List.cons_prefix_cons.mp hpre
      exact ⟨fec, extra, rfl, hfirst⟩
    | cons call' pre =>
      obtain ⟨rfl, hpre'⟩ := List.cons_prefix_cons.mp hpre
      rw [hrun]
      exact hrest pre call hpre'

/-- From balanced accounts on, a run keeps them exactly if it has no miscounted packet. -/
theorem always_balanced_iff (hp : Params N K) (hB : 1 ≤ B)
    {calls : List (nt_fec_header_t × List UInt8 × Int)} (hclock : ∀ call ∈ calls, 0 < call.2.2)
    {fec : nt_rs_fec_t} {slots : shelf} (h : Shelved N K D B timeout fec slots)
    (hsane : SaneShelf N K D slots) (htimed : Timed slots)
    (hbalanced : surplus K fec.perf slots = 0) (extra : σ) :
    AlwaysBalanced callback calls fec extra ↔ NeverMiscounted callback calls fec extra := by
  induction calls generalizing fec slots extra with
  | nil =>
    refine iff_of_true (fun pre hpre => ?_) fun pre call hpre => ?_
    · rw [List.prefix_nil.mp hpre]
      exact ⟨fec, extra, rfl, (balanced_iff h).mpr hbalanced⟩
    · exact absurd (List.prefix_nil.mp hpre) (by simp)
  | cons call calls ih =>
    obtain ⟨header, input, current⟩ := call
    obtain ⟨err, fec', extra', slots', hcall, h', hsane', hanswered⟩ :=
      decode_answered hp callback h hsane hB header input current extra
    obtain ⟨htimed', hsurplus⟩ := answered_surplus h hp.pos hsane htimed
      (hclock _ List.mem_cons_self) hanswered
    rw [always_balanced_cons hcall, never_miscounted_cons hcall,
      and_iff_right ((balanced_iff h).mpr hbalanced)]
    rcases hsurplus with ⟨hright, hkept⟩ | ⟨hwrong, hmore⟩
    · rw [and_iff_right hright]
      exact ih (fun call hc => hclock call (List.mem_cons_of_mem _ hc)) h' hsane' htimed'
        (hkept.trans hbalanced) extra'
    · refine iff_of_false (fun halways => ?_) fun hnever => hnever.1 hwrong
      obtain ⟨fec₁, extra₁, hnone, hstill⟩ := halways [] List.nil_prefix
      cases hnone
      rw [balanced_iff h'] at hstill
      omega

end

theorem perf_of_init {N K : UInt8} {D B : Nat} {timeout : Int} {idgen idgen' : idgen_t}
    {perf : perf_t} {fec : nt_rs_fec_t}
    (h : nt_rs_fec_init N K D B timeout idgen perf = some (fec, idgen')) : fec.perf = perf := by
  unfold nt_rs_fec_init at h
  simp only [Option.bind_eq_bind, Option.bind_eq_some_iff] at h
  obtain ⟨cache, -, puts, -, heq⟩ := h
  cases heq
  rfl

/-- From the start on, with any packets at positive times, the counters agree with the buffers in
every state exactly if no first packet of a block is malformed. -/
theorem the_accounts_balance_iff {N K : UInt8} (hp : Params N.toNat K.toNat) (D : Nat)
    {B : Nat} (hB : 2 ≤ B ∧ B ≤ 2 ^ 32) (timeout : Int) (idgen : idgen_t) :
    ∃ fec idgen', nt_rs_fec_init N K D B timeout idgen (fun _ => 0) = some (fec, idgen') ∧
      ∀ (σ : Type) (callback : σ → List UInt8 → Int → error_t × σ)
        (calls : List (nt_fec_header_t × List UInt8 × Int)) (extra : σ),
        (∀ call ∈ calls, 0 < call.2.2) →
        (AlwaysBalanced callback calls fec extra ↔ NeverMiscounted callback calls fec extra) := by
  obtain ⟨fec, idgen', hinit, h⟩ := nt_rs_fec_init_shelved N K D hB timeout idgen (fun _ => 0)
  refine ⟨fec, idgen', hinit, fun σ callback calls extra hclock => ?_⟩
  have hblank : ∀ s ∈ first_shelf (rs_init N.toNat K.toNat D) B, ∃ block_id,
      s.2 = fresh_buffer (rs_init N.toNat K.toNat D) block_id := by
    intro s hs
    obtain ⟨i, -, rfl⟩ := List.mem_map.mp hs
    exact ⟨_, rfl⟩
  have hzero : surplus K.toNat fec.perf (first_shelf (rs_init N.toNat K.toNat D) B) = 0 := by
    rw [perf_of_init hinit, surplus, List.countP_eq_zero.mpr]
    · rfl
    · intro s hs
      obtain ⟨block_id, hs⟩ := hblank s hs
      rw [hs, decide_eq_true_eq]
      exact fun hopen => absurd hopen.2 (Int.lt_irrefl 0)
  refine always_balanced_iff callback hp (Nat.le_of_succ_le hB.1) hclock h (fun s hs => ?_)
    (fun s hs => ?_) hzero extra
  · obtain ⟨block_id, hs⟩ := hblank s hs
    rw [hs]
    exact ⟨[], sane_fresh _ _⟩
  · obtain ⟨block_id, hs⟩ := hblank s hs
    rw [hs]
    exact Or.inl ⟨rfl, rfl⟩

/-- A block that is completed and one that is restored, with a late packet between them. -/
theorem the_accounts_balance_two : ∃ fec idgen',
    nt_rs_fec_init 2 1 4 2 100 0 (fun _ => 0) = some (fec, idgen') ∧
    (AlwaysBalanced (record fun _ _ _ => 0) [packet_of 7 0, packet_of 7 1, packet_of 8 1] fec [] ↔
      NeverMiscounted (record fun _ _ _ => 0) [packet_of 7 0, packet_of 7 1, packet_of 8 1] fec
        []) := by
  obtain ⟨fec, idgen', hinit, hrun⟩ := the_accounts_balance_iff (N := 2) (K := 1)
    ⟨by decide, by decide, by decide⟩ 4 (B := 2) ⟨by decide, by decide⟩ 100 0
  exact ⟨fec, idgen', hinit, hrun _ (record fun _ _ _ => 0) _ [] (by decide)⟩

/-- A packet with a bad index, and there is a block more than any buffer ever had. -/
theorem a_bad_packet_counts_a_block : ∃ fec idgen' fec',
    nt_rs_fec_init 2 1 4 2 100 0 (fun _ => 0) = some (fec, idgen') ∧
    decode_calls (record fun _ _ _ => 0) [packet_of 8 200] fec [] = some (fec', []) ∧
    fec'.perf .COUNTER_DECODER_BLOCK_COUNT = 1 ∧ fec'.perf .COUNTER_DECODER_BLOCK_COMPLETE = 0 ∧
    fec'.perf .COUNTER_DECODER_BLOCK_RESTORE = 0 ∧ fec'.perf .COUNTER_DECODER_BLOCK_EXPIRE = 0 ∧
    open_blocks fec' = 0 ∧ ¬balanced fec' := by
  have hrun : (do
      let init ← nt_rs_fec_init 2 1 4 2 100 0 (fun _ => 0)
      let (fec', seen) ← decode_calls (record fun _ _ _ => 0) [packet_of 8 200] init.1 []
      return (seen, fec'.perf .COUNTER_DECODER_BLOCK_COUNT,
        fec'.perf .COUNTER_DECODER_BLOCK_COMPLETE, fec'.perf .COUNTER_DECODER_BLOCK_RESTORE,
        fec'.perf .COUNTER_DECODER_BLOCK_EXPIRE, open_blocks fec')) = some ([], 1, 0, 0, 0, 0) := by
    decide +kernel
  simp only [Option.bind_eq_bind, Option.bind_eq_some_iff, Option.pure_def, Option.some.injEq,
    Prod.mk.injEq] at hrun
  obtain ⟨⟨fec, idgen'⟩, hinit, ⟨fec', seen⟩, hcalls, rfl, hcount, hcomplete, hrestore, hexpire,
    hopen⟩ := hrun
  refine ⟨fec, idgen', fec', hinit, hcalls, hcount, hcomplete, hrestore, hexpire, hopen, ?_⟩
  rw [balanced, hcount, hcomplete, hrestore, hexpire, hopen]
  decide

end nettle.nt_rs_fec
