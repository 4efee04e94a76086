-- The decoder under any packets at any times: no call aborts, and the cache
-- and the pool stay matched with a sound context in every buffer.
import Nettle.DecoderBuffers

open nettle.lrumap nettle.nt_fec nettle.rs

namespace nettle.nt_rs_fec

section

variable {N K D : Nat} (hp : Params N K) {σ : Type}
  (callback : σ → List UInt8 → Int → error_t × σ)

include hp

/-- Handing out the restored messages ends, whatever they are and whatever the callback says. -/
theorem decode_loop_some {ds : List Nat} {dc : rs_dc_t} (h : Sane (rs_init N K D) ds dc)
    (rest i : Nat) (extra : σ) :
    ∃ result, decode_loop (rs_init N K D) dc callback rest i extra = some result := by
  induction rest generalizing i extra with
  | zero => exact ⟨_, rfl⟩
  | succ rest ih =>
    obtain ⟨result, hresult⟩ := rs_decode_result_some hp h i (rs_init N K D).max_data_size
    unfold decode_loop
    rw [hresult]
    cases result with
    | error err => exact ⟨_, rfl⟩
    | ok decoded =>
      simp only
      split
      · exact ⟨_, rfl⟩
      · exact ih (i + 1) _

theorem deliver_some {ds : List Nat} {dc : rs_dc_t} (h : Sane (rs_init N K D) ds dc)
    (input : List UInt8) (n : Nat) (is_raw : Bool) (extra : σ) :
    ∃ result, deliver (rs_init N K D) dc callback input n is_raw extra = some result := by
  unfold deliver
  generalize (if is_raw then callback extra input input.length else (0, extra)) = said
  by_cases herr : said.1 ≠ 0
  · exact ⟨_, if_pos herr⟩
  · simp only [herr, if_false]
    exact decode_loop_some hp callback h n 0 _

/-! ## One call -/

/-- The ways of a call: its value, the shelf, the counters and what the callback left behind. -/
inductive Answered {σ : Type} (rs : rs_t) (timeout : Int)
    (callback : σ → List UInt8 → Int → error_t × σ) (header : nt_fec_header_t)
    (input : List UInt8) (current : Int) (extra : σ) (perf : perf_t) (slots : shelf) :
    error_t → shelf → perf_t → σ → Prop
  | foreign : foreign rs.N rs.K header →
      Answered rs timeout callback header input current extra perf slots E_FEC_INVALID_HEADER
        slots perf extra
  | settled {err : error_t} {slots' : shelf} {perf' : perf_t} : ¬nt_rs_fec.foreign rs.N rs.K header →
      Looked rs timeout (nt_fec_header_block_id header) current perf slots slots' perf'
        (.error err) →
      Answered rs timeout callback header input current extra perf slots err slots' perf' extra
  | refused {s : Nat × decode_buffer_t} {rest : shelf} {perf' : perf_t} {err : rs_error} :
      ¬nt_rs_fec.foreign rs.N rs.K header →
      Looked rs timeout (nt_fec_header_block_id header) current perf slots (s :: rest) perf'
        (.ok ()) →
      rs_decode rs s.2.buffer input ((rs.N : Int) - 1 - header.block_index.toNat) =
        some (s.2.buffer, .error err) →
      Answered rs timeout callback header input current extra perf slots
        (if err = .E_RS_DUPLICATE then 0 else EINVAL) (s :: rest)
        (perf_counted perf' s.2.timestamp) extra
  | accepted {s : Nat × decode_buffer_t} {rest : shelf} {perf' : perf_t} {dc : rs_dc_t} {n : Nat}
      {is_raw : Bool} {err : error_t} {extra' : σ} :
      ¬nt_rs_fec.foreign rs.N rs.K header →
      Looked rs timeout (nt_fec_header_block_id header) current perf slots (s :: rest) perf'
        (.ok ()) →
      rs_decode rs s.2.buffer input ((rs.N : Int) - 1 - header.block_index.toNat) =
        some (dc, .ok (n, is_raw)) →
      deliver rs dc callback input n is_raw extra = some (err, extra') →
      Answered rs timeout callback header input current extra perf slots err
        ((s.1, { s.2 with buffer := dc, timestamp := current }) :: rest)
        (perf_accepted perf' s.2.timestamp (dc.count == rs.K) n is_raw) extra'

/-- Every buffer holds a sound context. -/
def SaneShelf (N K D : Nat) (slots : shelf) : Prop :=
  ∀ s ∈ slots, ∃ ds, Sane (rs_init N K D) ds s.2.buffer

omit hp in
theorem SaneShelf.from {block_id : UInt32} {slots slots' : shelf} (h : SaneShelf N K D slots)
    (hfrom : FromShelf (rs_init N K D) block_id slots slots') : SaneShelf N K D slots' := by
  intro s hs
  rcases hfrom s hs with hold | hfresh
  · exact h s hold
  · rw [hfresh]
    exact ⟨[], sane_fresh _ _⟩

/-- A call takes one of its ways, and none of them aborts. -/
theorem decode_answered {B : Nat} {timeout : Int} {fec : nt_rs_fec_t} {slots : shelf}
    (h : Shelved N K D B timeout fec slots) (hsane : SaneShelf N K D slots) (hB : 1 ≤ B)
    (header : nt_fec_header_t) (input : List UInt8) (current : Int) (extra : σ) :
    ∃ err fec' extra' slots', nt_rs_fec_decode fec header input current extra callback =
        some (err, fec', extra') ∧
      Shelved N K D B timeout fec' slots' ∧ SaneShelf N K D slots' ∧
      Answered (rs_init N K D) timeout callback header input current extra fec.perf slots err
        slots' fec'.perf extra' := by
  unfold nt_rs_fec_decode
  rw [h.rs]
  split
  · next hforeign => exact ⟨_, fec, extra, slots, rfl, h, hsane, .foreign hforeign⟩
  next hown =>
  rcases select_looked h hB (nt_fec_header_block_id header) current with
    ⟨err, fec', slots', hselect, hshelf, hlooked⟩ | ⟨fec₁, s, rest, hselect, hshelf, hlooked⟩
  · simp only [hselect, Option.bind_eq_bind, Option.bind_some]
    exact ⟨err, fec', extra, slots', rfl, hshelf, hsane.from hlooked.from_shelf,
      .settled hown hlooked⟩
  · simp only [hselect, Option.bind_eq_bind, Option.bind_some]
    have hsane₁ := hsane.from hlooked.from_shelf
    obtain ⟨ds, hs⟩ := hsane₁ s List.mem_cons_self
    have hroom := hlooked.room hp.pos h.count
    rw [hs.marked.count] at hroom
    rcases rs_decode_cases hp hs hroom input ((N : Int) - 1 - header.block_index.toNat) with
      ⟨err, hdecode⟩ | ⟨dc, n, is_raw, hdecode, hdc, -⟩
    · obtain ⟨fec', hfeed, hshelf', hperf⟩ := feed_refused hshelf hdecode current extra callback
      exact ⟨_, fec', extra, _, hfeed, hshelf', hsane₁, hperf ▸ .refused hown hlooked hdecode⟩
    · obtain ⟨fec', hfeed, hshelf', hperf⟩ := feed_accepted hshelf hdecode
        (by rw [hdc.marked.count]; exact hdc.le) current extra callback
      obtain ⟨⟨err, extra'⟩, hdeliver⟩ := deliver_some hp callback hdc input n is_raw extra
      rw [hdeliver] at hfeed
      refine ⟨err, fec', extra', _, hfeed, hshelf', fun t ht => ?_,
        hperf ▸ .accepted hown hlooked hdecode hdeliver⟩
      rcases List.mem_cons.mp ht with rfl | ht
      · exact ⟨_, hdc⟩
      · exact hsane₁ t (List.mem_cons_of_mem s ht)

end

/-! ## Any run -/

/-- Calls of one decoder, each with its header, payload and clock value. -/
def decode_calls {σ : Type} (callback : σ → List UInt8 → Int → error_t × σ) :
    List (nt_fec_header_t × List UInt8 × Int) → nt_rs_fec_t → σ → Option (nt_rs_fec_t × σ)
  | [], fec, extra => some (fec, extra)
  | (header, input, current) :: calls, fec, extra =>
    match nt_rs_fec_decode fec header input current extra callback with
    | none => none
    | some (_, fec, extra) => decode_calls callback calls fec extra

/-- The cache holds one key for each buffer of the pool, the buffer's own id, and each buffer
holds at most K packets and at most N - K erasures, distinct degrees of its block. -/
def CacheSound (N K B : Nat) (fec : nt_rs_fec_t) : Prop :=
  ∃ bs : List (Nat × Nat), Recent fec.decode_buffer_cache bs ∧ bs.length = B ∧
    (bs.map Prod.fst).Nodup ∧ (bs.map Prod.snd).Perm (List.range B) ∧
    fec.decode_buffer_pool.length = B ∧
    ∀ b ∈ bs, ∃ decode_buffer, fec.decode_buffer_pool[b.2]? = some decode_buffer ∧
      decode_buffer.block_id.toNat = b.1 ∧ decode_buffer.buffer.count ≤ K ∧
      decode_buffer.buffer.erasure_num ≤ N - K ∧
      (decode_buffer.buffer.erasure_degrees.take decode_buffer.buffer.erasure_num).Nodup ∧
      ∀ d ∈ decode_buffer.buffer.erasure_degrees.take decode_buffer.buffer.erasure_num, d < N

section

variable {N K D B : Nat} {timeout : Int}

theorem cache_sound {fec : nt_rs_fec_t} {slots : shelf} (h : Shelved N K D B timeout fec slots)
    (hsane : SaneShelf N K D slots) : CacheSound N K B fec := by
  refine ⟨_, h.cache, by rw [List.length_map, h.length_slots], ?_, ?_, h.length, ?_⟩
  · have hnodup := h.nodup_ids.map (f := UInt32.toNat) fun _ _ => UInt32.toNat_inj.mp
    rw [shelf_ids, List.map_map] at hnodup
    rw [List.map_map]
    exact hnodup
  · rw [List.map_map]
    exact h.places
  · intro b hb
    obtain ⟨s, hs, rfl⟩ := List.mem_map.mp hb
    obtain ⟨ds, hds⟩ := hsane s hs
    exact ⟨s.2, h.pool s hs, rfl, h.count s hs, hds.num, hds.nodup, hds.lt⟩

theorem decode_calls_sane (hp : Params N K) (hB : 1 ≤ B) {σ : Type}
    (callback : σ → List UInt8 → Int → error_t × σ)
    (calls : List (nt_fec_header_t × List UInt8 × Int)) {fec : nt_rs_fec_t} {slots : shelf}
    (h : Shelved N K D B timeout fec slots) (hsane : SaneShelf N K D slots) (extra : σ) :
    ∃ fec' extra' slots', decode_calls callback calls fec extra = some (fec', extra') ∧
      Shelved N K D B timeout fec' slots' ∧ SaneShelf N K D slots' := by
  induction calls generalizing fec slots extra with
  | nil => exact ⟨fec, extra, slots, rfl, h, hsane⟩
  | cons call calls ih =>
    obtain ⟨header, input, current⟩ := call
    obtain ⟨err, fec₁, extra₁, slots₁, hcall, h₁, hsane₁, -⟩ :=
      decode_answered hp callback h hsane hB header input current extra
    unfold decode_calls
    rw [hcall]
    exact ih h₁ hsane₁ extra₁

end

/-- The start leaves blank buffers, which are sound. -/
theorem nt_rs_fec_init_sane {N K : UInt8} (D : Nat) {B : Nat} (hB : 2 ≤ B ∧ B ≤ 2 ^ 32)
    (timeout : Int) (idgen : idgen_t) (perf : perf_t) :
    ∃ fec idgen' slots, nt_rs_fec_init N K D B timeout idgen perf = some (fec, idgen') ∧
      Shelved N.toNat K.toNat D B timeout fec slots ∧ SaneShelf N.toNat K.toNat D slots := by
  obtain ⟨fec, idgen', hinit, h⟩ := nt_rs_fec_init_shelved N K D hB timeout idgen perf
  refine ⟨fec, idgen', _, hinit, h, fun s hs => ?_⟩
  obtain ⟨i, -, rfl⟩ := List.mem_map.mp hs
  exact ⟨[], sane_fresh _ _⟩

/-- From the start on, no sequence of calls with any headers, payloads, clock values and
callback makes the decoder abort, and the cache stays sound. -/
theorem the_decoder_survives {N K : UInt8} (hp : Params N.toNat K.toNat) (D : Nat) {B : Nat}
    (hB : 2 ≤ B ∧ B ≤ 2 ^ 32) (timeout : Int) (idgen : idgen_t) (perf : perf_t) :
    ∃ fec idgen', nt_rs_fec_init N K D B timeout idgen perf = some (fec, idgen') ∧
      ∀ (σ : Type) (callback : σ → List UInt8 → Int → error_t × σ)
        (calls : List (nt_fec_header_t × List UInt8 × Int)) (extra : σ),
        ∃ fec' extra', decode_calls callback calls fec extra = some (fec', extra') ∧
          CacheSound N.toNat K.toNat B fec' := by
  obtain ⟨fec, idgen', slots, hinit, h, hsane⟩ := nt_rs_fec_init_sane D hB timeout idgen perf
  refine ⟨fec, idgen', hinit, fun σ callback calls extra => ?_⟩
  obtain ⟨fec', extra', slots', hrun, h', hsane'⟩ :=
    decode_calls_sane hp (Nat.le_of_succ_le hB.1) callback calls h hsane extra
  exact ⟨fec', extra', hrun, cache_sound h' hsane'⟩

theorem the_decoder_survives_two :
    ∃ fec idgen', nt_rs_fec_init 2 1 4 2 100 0 (fun _ => 0) = some (fec, idgen') ∧
      ∀ (σ : Type) (callback : σ → List UInt8 → Int → error_t × σ)
        (calls : List (nt_fec_header_t × List UInt8 × Int)) (extra : σ),
        ∃ fec' extra', decode_calls callback calls fec extra = some (fec', extra') ∧
          CacheSound 2 1 2 fec' :=
  the_decoder_survives ⟨by decide, by decide, by decide⟩ 4 ⟨by decide, by decide⟩ 100 0 (fun _ => 0)

end nettle.nt_rs_fec
