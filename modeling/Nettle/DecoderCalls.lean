-- What a call of nt_rs_fec_decode leaves alone: the blocks in progress at any
-- call, and everything at most of the calls that report an error.
import Nettle.DecoderSafety
import Nettle.TunnelReceiver

open nettle.lrumap nettle.nt_fec nettle.rs

namespace nettle.nt_rs_fec

/-! ## The buffers as the cache has them -/

/-- The buffer that the cache has for a block. -/
def cached_buffer (fec : nt_rs_fec_t) (block_id : UInt32) : Option decode_buffer_t := do
  let (key_value, _) ← lrumap_get fec.decode_buffer_cache block_id.toNat
  let (_, index) ← key_value
  pool_get fec index

/-- The buffer that is next to be given up. -/
def eldest_buffer (fec : nt_rs_fec_t) : Option decode_buffer_t := do
  let (_, index) ← ← lrumap_peek fec.decode_buffer_cache
  pool_get fec index

section

variable {N K D B : Nat} {timeout : Int} {fec fec' : nt_rs_fec_t} {slots slots' : shelf}

theorem cached_buffer_present (h : Shelved N K D B timeout fec slots) {s : Nat × decode_buffer_t}
    (hs : s ∈ slots) : cached_buffer fec s.2.block_id = some s.2 := by
  obtain ⟨newer, older, rfl⟩ := List.append_of_mem hs
  have hcache := h.cache
  rw [List.map_append, List.map_cons] at hcache
  obtain ⟨cache, hget, -⟩ := lrumap_get_present hcache
    (by rw [h.equal_func, naive_equal_iff])
  unfold cached_buffer pool_get
  simp only [hget, Option.bind_eq_bind, Option.bind_some]
  exact h.pool s hs

theorem cached_buffer_absent (h : Shelved N K D B timeout fec slots) {block_id : UInt32}
    (hid : block_id ∉ shelf_ids slots) : cached_buffer fec block_id = none := by
  unfold cached_buffer
  rw [lrumap_get_absent h.cache (absent_of_notMem h hid)]
  rfl

theorem cached_iff (h : Shelved N K D B timeout fec slots) (block_id : UInt32) :
    (cached_buffer fec block_id).isSome ↔ block_id ∈ shelf_ids slots := by
  refine ⟨fun hsome => ?_, fun hid => ?_⟩
  · by_contra hid
    rw [cached_buffer_absent h hid] at hsome
    cases hsome
  · obtain ⟨s, hs, rfl⟩ := List.mem_map.mp hid
    rw [cached_buffer_present h hs]
    rfl

theorem eldest_buffer_eq {newer : shelf} {s : Nat × decode_buffer_t}
    (h : Shelved N K D B timeout fec (newer ++ [s])) : eldest_buffer fec = some s.2 := by
  have hpeek : lrumap_peek fec.decode_buffer_cache = some (some (s.2.block_id.toNat, s.1)) := by
    rw [lrumap_peek_spec h.cache]
    simp
  unfold eldest_buffer pool_get
  simp only [hpeek, Option.bind_eq_bind, Option.bind_some]
  exact h.pool s (by simp)

/-- The pool has just the buffers of the shelf. -/
theorem mem_shelf_iff (h : Shelved N K D B timeout fec slots) (i : Nat) (b : decode_buffer_t) :
    fec.decode_buffer_pool[i]? = some b ↔ (i, b) ∈ slots := by
  refine ⟨fun hpool => ?_, fun hs => h.pool _ hs⟩
  have hi : i ∈ slots.map Prod.fst := by
    rw [h.places.mem_iff, List.mem_range, ← h.length]
    exact (List.getElem?_eq_some_iff.mp hpool).1
  obtain ⟨s, hs, rfl⟩ := List.mem_map.mp hi
  have hb : s.2 = b := Option.some.inj ((h.pool s hs).symm.trans hpool)
  rwa [← hb]

theorem filterMap_getElem?_range {α : Type} (l : List α) :
    ((List.range l.length).filterMap fun i => l[i]?) = l := by
  induction l with
  | nil => rfl
  | cons a l ih =>
    rw [List.length_cons, List.range_succ_eq_map, List.filterMap_cons_some List.getElem?_cons_zero,
      List.filterMap_map]
    exact congrArg _ ih

theorem pool_perm (h : Shelved N K D B timeout fec slots) :
    (slots.map Prod.snd).Perm fec.decode_buffer_pool := by
  have hpool := filterMap_getElem?_range fec.decode_buffer_pool
  rw [h.length] at hpool
  have hslots : slots.map Prod.snd =
      (slots.map Prod.fst).filterMap fun i => fec.decode_buffer_pool[i]? := by
    rw [List.filterMap_map, ← List.filterMap_eq_map]
    exact List.filterMap_congr fun s hs => (h.pool s hs).symm
  rw [hslots]
  exact (h.places.filterMap _).trans (List.Perm.of_eq hpool)

/-- Where two shelves have the same buffers, so have the pools. -/
theorem pool_eq_of_mem (h : Shelved N K D B timeout fec slots)
    (h' : Shelved N K D B timeout fec' slots') {i : Nat}
    (hmem : ∀ b, (i, b) ∈ slots' ↔ (i, b) ∈ slots) :
    fec'.decode_buffer_pool[i]? = fec.decode_buffer_pool[i]? :=
  Option.ext fun b => by
    rw [mem_shelf_iff h', mem_shelf_iff h, hmem]

theorem pool_eq_of_perm (h : Shelved N K D B timeout fec slots)
    (h' : Shelved N K D B timeout fec' slots') (hperm : slots'.Perm slots) :
    fec'.decode_buffer_pool = fec.decode_buffer_pool :=
  List.ext_getElem? fun _ => pool_eq_of_mem h h' fun _ => hperm.mem_iff

end

/-! ## Blocks in progress -/

section

variable {rs : rs_t} {timeout : Int} {block_id : UInt32} {current : Int} {perf perf' : perf_t}
  {slots slots' rest : shelf} {s : Nat × decode_buffer_t} {result : Except error_t Unit}

/-- No buffer in progress is given up. -/
theorem Looked.keeps (h : Looked rs timeout block_id current perf slots slots' perf' result)
    {t : Nat × decode_buffer_t} (ht : t ∈ slots) (hprogress : in_progress rs.K timeout current t.2) :
    t ∈ slots' := by
  cases h with
  | processed => exact List.perm_middle.mem_iff.mp ht
  | found => exact List.perm_middle.mem_iff.mp ht
  | expired hid hold =>
    rcases List.mem_cons.mp (List.perm_middle.mem_iff.mp ht) with rfl | ht
    · exact absurd hprogress.2.2 hold
    · exact List.mem_cons_of_mem _ ht
  | full => exact ht
  | taken hid hidle =>
    rcases List.mem_append.mp ht with ht | ht
    · exact List.mem_cons_of_mem _ ht
    · rw [List.mem_singleton.mp ht] at hprogress
      exact absurd hprogress hidle

/-- Only the buffer that comes to the front is changed. -/
theorem Looked.others (h : Looked rs timeout block_id current perf slots (s :: rest) perf' result)
    {t : Nat × decode_buffer_t} (hplace : t.1 ≠ s.1) : t ∈ s :: rest ↔ t ∈ slots := by
  generalize hslots : s :: rest = slots' at h
  have hne : ∀ b, t ≠ (s.1, b) := by
    rintro b rfl
    exact hplace rfl
  cases h with
  | processed => exact List.perm_middle.symm.mem_iff
  | found => exact List.perm_middle.symm.mem_iff
  | @expired newer older s₀ =>
    cases hslots
    rw [List.perm_middle.mem_iff, List.mem_cons, List.mem_cons, or_iff_right (hne _),
      or_iff_right (hne s₀.2)]
  | full => rfl
  | @taken newer s₀ =>
    cases hslots
    rw [List.mem_append, List.mem_singleton, List.mem_cons, or_iff_right (hne _),
      or_iff_left (hne s₀.2)]

end

/-- A buffer in its place after a call: it has the same id, in the cache too, and is as it was, or
the packet is of this block and is added. -/
def Kept (header : nt_fec_header_t) (input : List UInt8) (current : Int) (fec fec' : nt_rs_fec_t)
    (i : Nat) (b : decode_buffer_t) : Prop :=
  ∃ b', fec'.decode_buffer_pool[i]? = some b' ∧ b'.block_id = b.block_id ∧
    cached_buffer fec' b.block_id = some b' ∧
    (b' = b ∨ b.block_id = nt_fec_header_block_id header ∧
      ∃ dc n is_raw, rs_decode fec.rs b.buffer input
          ((fec.rs.N : Int) - 1 - header.block_index.toNat) = some (dc, .ok (n, is_raw)) ∧
        b' = { b with buffer := dc, timestamp := current })

/-- A call leaves the blocks in progress alone, apart from the block of its packet, and changes at
most one buffer at all. -/
structure Spared (header : nt_fec_header_t) (input : List UInt8) (current : Int)
    (fec fec' : nt_rs_fec_t) : Prop where
  kept : ∀ (i : Nat) (b : decode_buffer_t), fec.decode_buffer_pool[i]? = some b →
    in_progress fec.rs.K fec.decode_timeout current b → Kept header input current fec fec' i b
  others : ∃ j : Nat, ∀ i ≠ j, fec'.decode_buffer_pool[i]? = fec.decode_buffer_pool[i]?

section

variable {N K D B : Nat} {timeout : Int} {fec fec' : nt_rs_fec_t} {slots slots' : shelf} {σ : Type}
  {callback : σ → List UInt8 → Int → error_t × σ} {header : nt_fec_header_t}
  {input : List UInt8} {current : Int} {extra extra' : σ} {err : error_t} {perf perf' : perf_t}

theorem kept_same (h : Shelved N K D B timeout fec' slots') {i : Nat} {b : decode_buffer_t}
    (hs : (i, b) ∈ slots') : Kept header input current fec fec' i b := by
  have hcached : cached_buffer fec' b.block_id = some b :=
    cached_buffer_present (s := (i, b)) h hs
  exact ⟨b, h.pool (i, b) hs, rfl, hcached, Or.inl rfl⟩

/-- The packet is added to the newest buffer. -/
theorem kept_added {rest : shelf} {i : Nat} {b : decode_buffer_t} {dc : rs_dc_t} {n : Nat}
    {is_raw : Bool}
    (h : Shelved N K D B timeout fec' ((i, { b with buffer := dc, timestamp := current }) :: rest))
    (hid : b.block_id = nt_fec_header_block_id header)
    (hdecode : rs_decode fec.rs b.buffer input
      ((fec.rs.N : Int) - 1 - header.block_index.toNat) = some (dc, .ok (n, is_raw))) :
    Kept header input current fec fec' i b := by
  have hcached : cached_buffer fec' b.block_id = some { b with buffer := dc, timestamp := current } :=
    cached_buffer_present (s := (i, { b with buffer := dc, timestamp := current })) h
      List.mem_cons_self
  have hpool := h.pool (i, { b with buffer := dc, timestamp := current }) List.mem_cons_self
  exact ⟨_, hpool, rfl, hcached, Or.inr ⟨hid, dc, n, is_raw, hdecode, rfl⟩⟩

theorem answered_spares (h : Shelved N K D B timeout fec slots)
    (h' : Shelved N K D B timeout fec' slots')
    (hcall : Answered (rs_init N K D) timeout callback header input current extra perf slots err
      slots' perf' extra') : Spared header input current fec fec' := by
  -- The shelf that the packet finds has the blocks in progress still.
  have hslots : ∀ {i b}, fec.decode_buffer_pool[i]? = some b →
      in_progress fec.rs.K fec.decode_timeout current b →
      (i, b) ∈ slots ∧ in_progress K timeout current b := fun {i b} hb hprogress => by
    rw [h.rs, h.timeout] at hprogress
    exact ⟨(mem_shelf_iff h i b).mp hb, hprogress⟩
  cases hcall with
  | foreign =>
    exact ⟨fun i b hb hprogress => kept_same h' (hslots hb hprogress).1, 0, fun i _ =>
      pool_eq_of_mem h h' fun b => Iff.rfl⟩
  | settled hown hlooked =>
    refine ⟨fun i b hb hprogress => ?_, 0, fun i _ =>
      pool_eq_of_mem h h' fun b => hlooked.perm.mem_iff⟩
    obtain ⟨hs, hprogress'⟩ := hslots hb hprogress
    exact kept_same h' (hlooked.keeps hs hprogress')
  | @refused s rest perf₁ err hown hlooked hdecode =>
    refine ⟨fun i b hb hprogress => ?_, s.1, fun i hi =>
      pool_eq_of_mem h h' fun b => hlooked.others hi⟩
    obtain ⟨hs, hprogress'⟩ := hslots hb hprogress
    exact kept_same h' (hlooked.keeps hs hprogress')
  | @accepted s rest perf₁ dc n is_raw _ _ hown hlooked hdecode hdeliver =>
    refine ⟨fun i b hb hprogress => ?_, s.1, fun i hi => pool_eq_of_mem h h' fun b => ?_⟩
    · obtain ⟨hs, hprogress'⟩ := hslots hb hprogress
      rcases List.mem_cons.mp (hlooked.keeps hs hprogress') with rfl | hrest
      · rw [← h.rs] at hdecode
        exact kept_added h' hlooked.same_block hdecode
      · exact kept_same h' (List.mem_cons_of_mem _ hrest)
    · have hne : ∀ b' : decode_buffer_t, (i, b) ≠ (s.1, b') := fun b' heq =>
        hi (congrArg Prod.fst heq)
      rw [← hlooked.others (t := (i, b)) hi, List.mem_cons, List.mem_cons, or_iff_right (hne _),
        or_iff_right (hne s.2)]

end

/-- In every state that a decoder reaches, a call with any packet at any time spares the blocks
in progress. -/
theorem blocks_in_progress_are_spared {N K : UInt8} (hp : Params N.toNat K.toNat) (D : Nat)
    {B : Nat} (hB : 2 ≤ B ∧ B ≤ 2 ^ 32) (timeout : Int) (idgen : idgen_t) (perf : perf_t) :
    ∃ fec₀ idgen', nt_rs_fec_init N K D B timeout idgen perf = some (fec₀, idgen') ∧
      ∀ (σ : Type) (callback : σ → List UInt8 → Int → error_t × σ)
        (calls : List (nt_fec_header_t × List UInt8 × Int)) (extra₀ : σ),
        ∃ fec extra, decode_calls callback calls fec₀ extra₀ = some (fec, extra) ∧
          ∀ (header : nt_fec_header_t) (input : List UInt8) (current : Int),
            ∃ err fec' extra', nt_rs_fec_decode fec header input current extra callback =
                some (err, fec', extra') ∧
              Spared header input current fec fec' := by
  obtain ⟨fec₀, idgen', slots₀, hinit, h₀, hsane₀⟩ := nt_rs_fec_init_sane D hB timeout idgen perf
  have hpos := Nat.le_of_succ_le hB.1
  refine ⟨fec₀, idgen', hinit, fun σ callback calls extra₀ => ?_⟩
  obtain ⟨fec, extra, slots, hrun, h, hsane⟩ :=
    decode_calls_sane hp hpos callback calls h₀ hsane₀ extra₀
  refine ⟨fec, extra, hrun, fun header input current => ?_⟩
  obtain ⟨err, fec', extra', slots', hcall, h', -, hanswered⟩ :=
    decode_answered hp callback h hsane hpos header input current extra
  exact ⟨err, fec', extra', hcall, answered_spares h h' hanswered⟩

theorem blocks_in_progress_are_spared_two :
    ∃ fec₀ idgen', nt_rs_fec_init 2 1 4 2 100 0 (fun _ => 0) = some (fec₀, idgen') ∧
      ∀ (σ : Type) (callback : σ → List UInt8 → Int → error_t × σ)
        (calls : List (nt_fec_header_t × List UInt8 × Int)) (extra₀ : σ),
        ∃ fec extra, decode_calls callback calls fec₀ extra₀ = some (fec, extra) ∧
          ∀ (header : nt_fec_header_t) (input : List UInt8) (current : Int),
            ∃ err fec' extra', nt_rs_fec_decode fec header input current extra callback =
                some (err, fec', extra') ∧
              Spared header input current fec fec' :=
  blocks_in_progress_are_spared ⟨by decide, by decide, by decide⟩ 4 ⟨by decide, by decide⟩ 100 0
    (fun _ => 0)

/-! ## Calls that report an error -/

/-- The cache has the same blocks, and every buffer its contents. -/
structure Unchanged (fec fec' : nt_rs_fec_t) : Prop where
  cached : ∀ block_id, (cached_buffer fec' block_id).isSome = (cached_buffer fec block_id).isSome
  pool : fec'.decode_buffer_pool = fec.decode_buffer_pool

/-- The packet is not of this code, or its block has a buffer that is not too old or is blank, or
its block has none and the buffer to take is in progress. -/
def harmless (fec : nt_rs_fec_t) (header : nt_fec_header_t) (current : Int) : Prop :=
  foreign fec.rs.N fec.rs.K header ∨
    match cached_buffer fec (nt_fec_header_block_id header) with
    | some b => current - b.timestamp ≤ fec.decode_timeout ∨
        b = fresh_buffer fec.rs (nt_fec_header_block_id header)
    | none => ∃ b, eldest_buffer fec = some b ∧
        in_progress fec.rs.K fec.decode_timeout current b

/-- The errors of a call that does not get to the callback. -/
def refusals : List error_t := [E_FEC_INVALID_HEADER, E_FEC_DECODER_BUFFER_FULL, EINVAL]

section

variable {answer : List (List UInt8 × Int) → List UInt8 → Int → error_t}

/-- The callback notes every payload; without one the loop has only an error of its own. -/
theorem decode_loop_silent (rs : rs_t) (dc : rs_dc_t) {rest i : Nat}
    {seen seen' : List (List UInt8 × Int)} {err : error_t}
    (h : decode_loop rs dc (record answer) rest i seen = some (err, seen')) :
    seen.length < seen'.length ∨ seen' = seen ∧ (err = 0 ∨ err = E_FEC_INTERNAL_ERROR) := by
  induction rest generalizing i seen with
  | zero =>
    cases h
    exact Or.inr ⟨rfl, Or.inl rfl⟩
  | succ rest ih =>
    unfold decode_loop at h
    split at h
    · cases h
    · cases h
      exact Or.inr ⟨rfl, Or.inr rfl⟩
    · next decoded decoded_size degree hresult =>
      have hnoted : (seen ++ [(decoded, decoded_size)]).length = seen.length + 1 := by simp
      by_cases herr : answer seen decoded decoded_size = 0
      · simp only [record, herr, ne_eq, not_true_eq_false, if_false] at h
        rcases ih h with hmore | ⟨rfl, -⟩
        · exact Or.inl (by omega)
        · exact Or.inl (by omega)
      · simp only [record, ne_eq, herr, not_false_eq_true, if_true] at h
        cases h
        exact Or.inl (by omega)

theorem deliver_silent {rs : rs_t} {dc : rs_dc_t} {input : List UInt8} {n : Nat} {is_raw : Bool}
    {seen : List (List UInt8 × Int)} {err : error_t}
    (h : deliver rs dc (record answer) input n is_raw seen = some (err, seen)) :
    err ∉ refusals := by
  have hown : ∀ err : error_t, err = 0 ∨ err = E_FEC_INTERNAL_ERROR → err ∉ refusals := by
    rintro err (rfl | rfl) <;> decide
  unfold deliver at h
  cases is_raw with
  | true =>
    have hnoted : (seen ++ [(input, (input.length : Int))]).length = seen.length + 1 := by simp
    simp only [if_true, record] at h
    by_cases herr : answer seen input input.length = 0
    · simp only [herr, ne_eq, not_true_eq_false, if_false] at h
      rcases decode_loop_silent rs dc h with hmore | ⟨hseen, -⟩
      · omega
      · rw [← hseen] at hnoted
        omega
    · simp only [ne_eq, herr, not_false_eq_true, if_true, Option.some.injEq, Prod.mk.injEq] at h
      rw [h.2] at hnoted
      omega
  | false =>
    simp only [Bool.false_eq_true, if_false, ne_eq, not_true_eq_false] at h
    rcases decode_loop_silent rs dc h with hmore | ⟨-, herr⟩
    · exact absurd hmore (Nat.lt_irrefl _)
    · exact hown err herr

end

section

variable {N K D B : Nat} {timeout : Int} {fec fec' : nt_rs_fec_t} {slots slots' : shelf}

theorem unchanged_of_perm (h : Shelved N K D B timeout fec slots)
    (h' : Shelved N K D B timeout fec' slots') (hperm : slots'.Perm slots) :
    Unchanged fec fec' := by
  refine ⟨fun block_id => ?_, pool_eq_of_perm h h' hperm⟩
  rw [Bool.eq_iff_iff, cached_iff h, cached_iff h']
  exact (hperm.map _).mem_iff

/-- Of the calls that come back with an error before the callback, just the harmless ones leave
everything as it was. -/
theorem refusal_unchanged_iff (h : Shelved N K D B timeout fec slots)
    (h' : Shelved N K D B timeout fec' slots')
    {answer : List (List UInt8 × Int) → List UInt8 → Int → error_t} {header : nt_fec_header_t}
    {input : List UInt8} {current : Int} {seen : List (List UInt8 × Int)} {err : error_t}
    {perf perf' : perf_t} (herr : err ∈ refusals)
    (hcall : Answered (rs_init N K D) timeout (record answer) header input current seen perf slots
      err slots' perf' seen) : Unchanged fec fec' ↔ harmless fec header current := by
  unfold harmless
  rw [h.rs, h.timeout]
  cases hcall with
  | foreign hforeign =>
    exact iff_of_true (unchanged_of_perm h h' (List.Perm.refl _)) (Or.inl hforeign)
  | settled hown hlooked =>
    refine iff_of_true (unchanged_of_perm h h' hlooked.perm) (Or.inr ?_)
    cases hlooked with
    | processed => exact absurd herr (by decide)
    | @full newer s hid hprogress =>
      rw [cached_buffer_absent h hid]
      exact ⟨s.2, eldest_buffer_eq h, hprogress⟩
  | @refused s rest perf₁ err hown hlooked hdecode =>
    rw [or_iff_right hown]
    generalize hslots : s :: rest = slots', hresult : Except.ok () = result at h' hlooked
    cases hlooked with
    | processed => cases hresult
    | @found newer older s hid hrecent =>
      have hcached := cached_buffer_present h (s := s) (by simp)
      rw [hid] at hcached
      rw [hcached]
      exact iff_of_true (unchanged_of_perm h h' List.perm_middle.symm) (Or.inl hrecent)
    | @expired newer older s hid hold =>
      have hs : s ∈ newer ++ s :: older := by simp
      have hcached := cached_buffer_present h hs
      rw [hid] at hcached
      rw [hcached]
      simp only [hold, false_or]
      constructor
      · intro hunchanged
        have hpool := h'.pool _ List.mem_cons_self
        rw [hunchanged.pool, h.pool s hs] at hpool
        exact Option.some.inj hpool
      · intro hblank
        rw [← hblank] at h'
        exact unchanged_of_perm h h' List.perm_middle.symm
    | full => cases hresult
    | @taken newer s hid hidle =>
      rw [cached_buffer_absent h hid]
      refine iff_of_false (fun hunchanged => ?_) ?_
      · have hsome := (cached_iff h' (nt_fec_header_block_id header)).mpr List.mem_cons_self
        rw [hunchanged.cached, cached_iff h] at hsome
        exact hid hsome
      · rintro ⟨b, heldest, hprogress⟩
        rw [eldest_buffer_eq h, Option.some.injEq] at heldest
        exact hidle (heldest ▸ hprogress)
  | accepted hown hlooked hdecode hdeliver => exact absurd herr (deliver_silent hdeliver)

end

/-- In every state that a decoder reaches, a call that comes back with an error before the callback
leaves the cached blocks and all buffers as they were exactly if it is harmless. -/
theorem an_error_leaves_all_iff {N K : UInt8} (hp : Params N.toNat K.toNat) (D : Nat)
    {B : Nat} (hB : 2 ≤ B ∧ B ≤ 2 ^ 32) (timeout : Int) (idgen : idgen_t) (perf : perf_t) :
    ∃ fec₀ idgen', nt_rs_fec_init N K D B timeout idgen perf = some (fec₀, idgen') ∧
      ∀ (σ : Type) (callback : σ → List UInt8 → Int → error_t × σ)
        (calls : List (nt_fec_header_t × List UInt8 × Int)) (extra₀ : σ),
        ∃ fec extra, decode_calls callback calls fec₀ extra₀ = some (fec, extra) ∧
          ∀ answer (header : nt_fec_header_t) (input : List UInt8) (current : Int) seen,
            ∃ err fec' seen', nt_rs_fec_decode fec header input current seen (record answer) =
                some (err, fec', seen') ∧
              (err ∈ refusals → seen' = seen →
                (Unchanged fec fec' ↔ harmless fec header current)) := by
  obtain ⟨fec₀, idgen', slots₀, hinit, h₀, hsane₀⟩ := nt_rs_fec_init_sane D hB timeout idgen perf
  have hpos := Nat.le_of_succ_le hB.1
  refine ⟨fec₀, idgen', hinit, fun σ callback calls extra₀ => ?_⟩
  obtain ⟨fec, extra, slots, hrun, h, hsane⟩ :=
    decode_calls_sane hp hpos callback calls h₀ hsane₀ extra₀
  refine ⟨fec, extra, hrun, fun answer header input current seen => ?_⟩
  obtain ⟨err, fec', seen', slots', hcall, h', -, hanswered⟩ :=
    decode_answered hp (record answer) h hsane hpos header input current seen
  refine ⟨err, fec', seen', hcall, fun herr hseen => ?_⟩
  subst hseen
  exact refusal_unchanged_iff h h' herr hanswered

theorem an_error_leaves_all_two :
    ∃ fec₀ idgen', nt_rs_fec_init 2 1 4 2 100 0 (fun _ => 0) = some (fec₀, idgen') ∧
      ∀ (σ : Type) (callback : σ → List UInt8 → Int → error_t × σ)
        (calls : List (nt_fec_header_t × List UInt8 × Int)) (extra₀ : σ),
        ∃ fec extra, decode_calls callback calls fec₀ extra₀ = some (fec, extra) ∧
          ∀ answer (header : nt_fec_header_t) (input : List UInt8) (current : Int) seen,
            ∃ err fec' seen', nt_rs_fec_decode fec header input current seen (record answer) =
                some (err, fec', seen') ∧
              (err ∈ refusals → seen' = seen →
                (Unchanged fec fec' ↔ harmless fec header current)) :=
  an_error_leaves_all_iff ⟨by decide, by decide, by decide⟩ 4 ⟨by decide, by decide⟩ 100 0
    (fun _ => 0)

/-- A message of one byte of a block with one redundant packet, or a packet with a bad index. -/
def packet_of (block_id : UInt32) (block_index : UInt8) : nt_fec_header_t × List UInt8 × Int :=
  (nt_fec_header_init NT_RS_FEC_TAG 2 1 block_id block_index 1, [5], 1000)

/-- With two buffers, block 7 is complete. The second of two packets with a bad index takes its
buffer, so that nothing stops a late duplicate any more. -/
theorem a_bad_packet_evicts_a_block : ∃ fec₀ idgen' fec seen fec',
    nt_rs_fec_init 2 1 4 2 100 0 (fun _ => 0) = some (fec₀, idgen') ∧
    decode_calls (record fun _ _ _ => 0) [packet_of 7 0, packet_of 8 200] fec₀ [] =
      some (fec, seen) ∧
    nt_rs_fec_decode fec (packet_of 9 200).1 [5] 1000 seen (record fun _ _ _ => 0) =
      some (EINVAL, fec', seen) ∧
    (cached_buffer fec 7).isSome = true ∧ (cached_buffer fec' 7).isSome = false ∧
    ¬Unchanged fec fec' := by
  have hrun : (do
      let init ← nt_rs_fec_init 2 1 4 2 100 0 (fun _ => 0)
      let (fec, seen) ← decode_calls (record fun _ _ _ => 0) [packet_of 7 0, packet_of 8 200] init.1 []
      let (err, fec', seen') ← nt_rs_fec_decode fec (packet_of 9 200).1 [5] 1000 seen
        (record fun _ _ _ => 0)
      return (err, decide (seen' = seen), (cached_buffer fec 7).isSome,
        (cached_buffer fec' 7).isSome)) = some (EINVAL, true, true, false) := by
    decide +kernel
  simp only [Option.bind_eq_bind, Option.bind_eq_some_iff, Option.pure_def, Option.some.injEq,
    Prod.mk.injEq, decide_eq_true_eq] at hrun
  obtain ⟨⟨fec₀, idgen'⟩, hinit, ⟨fec, seen⟩, hcalls, ⟨err, fec', seen'⟩, hcall, rfl, rfl, hbefore,
    hafter⟩ := hrun
  refine ⟨fec₀, idgen', fec, seen', fec', hinit, hcalls, hcall, hbefore, hafter, fun h => ?_⟩
  have hsame := h.cached 7
  rw [hbefore, hafter] at hsame
  cases hsame

/-! ## A full decoder -/

/-- The packet is of this code, its block has no buffer, and the buffer that was looked up the
longest ago is in progress. -/
def refuses (fec : nt_rs_fec_t) (header : nt_fec_header_t) (current : Int) : Prop :=
  ¬foreign fec.rs.N fec.rs.K header ∧ cached_buffer fec (nt_fec_header_block_id header) = none ∧
    ∃ b, eldest_buffer fec = some b ∧ in_progress fec.rs.K fec.decode_timeout current b

theorem full_iff_refuses {N K D B : Nat} {timeout : Int} {fec : nt_rs_fec_t} {slots slots' : shelf}
    (h : Shelved N K D B timeout fec slots)
    {answer : List (List UInt8 × Int) → List UInt8 → Int → error_t} {header : nt_fec_header_t}
    {input : List UInt8} {current : Int} {seen seen' : List (List UInt8 × Int)} {err : error_t}
    {perf' : perf_t}
    (hcall : Answered (rs_init N K D) timeout (record answer) header input current seen fec.perf
      slots err slots' perf' seen') :
    err = E_FEC_DECODER_BUFFER_FULL ∧ seen' = seen ↔ refuses fec header current := by
  -- A buffer was found, so the packet is not refused.
  have hfound : ∀ {slots₁ perf₁}, Looked (rs_init N K D) timeout (nt_fec_header_block_id header)
      current fec.perf slots slots₁ perf₁ (.ok ()) → ¬refuses fec header current := by
    rintro slots₁ perf₁ hlooked ⟨-, hnone, b, heldest, hprogress⟩
    rw [h.rs, h.timeout] at hprogress
    have hmiss : nt_fec_header_block_id header ∉ shelf_ids slots := by
      rw [← cached_iff h, hnone]
      simp
    generalize hresult : Except.ok () = result at hlooked
    cases hlooked with
    | processed hid => cases hresult
    | @found newer older s hid => exact hmiss (List.mem_map.mpr ⟨s, by simp, hid⟩)
    | @expired newer older s hid => exact hmiss (List.mem_map.mpr ⟨s, by simp, hid⟩)
    | full => cases hresult
    | taken hid hidle =>
      rw [eldest_buffer_eq h, Option.some.injEq] at heldest
      exact hidle (heldest ▸ hprogress)
  cases hcall with
  | foreign hforeign =>
    apply iff_of_false
    · rintro ⟨herr, -⟩
      exact absurd herr (by decide)
    · rintro ⟨hown, -⟩
      rw [h.rs] at hown
      exact hown hforeign
  | settled hown hlooked =>
    cases hlooked with
    | @processed newer older s hid =>
      apply iff_of_false
      · rintro ⟨herr, -⟩
        exact absurd herr (by decide)
      · rintro ⟨-, hnone, -⟩
        have hcached := cached_buffer_present h (s := s) (by simp)
        rw [hid, hnone] at hcached
        simp at hcached
    | full hid hprogress =>
      refine iff_of_true ⟨rfl, rfl⟩ ⟨?_, cached_buffer_absent h hid, _, eldest_buffer_eq h, ?_⟩
      · rwa [h.rs]
      · rwa [h.rs, h.timeout]
  | @refused s rest perf₁ err hown hlooked hdecode =>
    apply iff_of_false
    · rintro ⟨herr, -⟩
      split at herr
      · exact absurd herr (by decide)
      · exact absurd herr (by decide)
    · exact hfound hlooked
  | accepted hown hlooked hdecode hdeliver =>
    apply iff_of_false
    · rintro ⟨rfl, rfl⟩
      exact deliver_silent hdeliver (by decide)
    · exact hfound hlooked

/-- In every state that a decoder reaches, it refuses a packet as full, without a call of its
callback, exactly if the block of the packet has no buffer and the eldest buffer is in progress. -/
theorem the_decoder_is_full_iff {N K : UInt8} (hp : Params N.toNat K.toNat) (D : Nat)
    {B : Nat} (hB : 2 ≤ B ∧ B ≤ 2 ^ 32) (timeout : Int) (idgen : idgen_t) (perf : perf_t) :
    ∃ fec₀ idgen', nt_rs_fec_init N K D B timeout idgen perf = some (fec₀, idgen') ∧
      ∀ (σ : Type) (callback : σ → List UInt8 → Int → error_t × σ)
        (calls : List (nt_fec_header_t × List UInt8 × Int)) (extra₀ : σ),
        ∃ fec extra, decode_calls callback calls fec₀ extra₀ = some (fec, extra) ∧
          ∀ answer (header : nt_fec_header_t) (input : List UInt8) (current : Int) seen,
            ∃ err fec' seen', nt_rs_fec_decode fec header input current seen (record answer) =
                some (err, fec', seen') ∧
              (err = E_FEC_DECODER_BUFFER_FULL ∧ seen' = seen ↔ refuses fec header current) := by
  obtain ⟨fec₀, idgen', slots₀, hinit, h₀, hsane₀⟩ := nt_rs_fec_init_sane D hB timeout idgen perf
  have hpos := Nat.le_of_succ_le hB.1
  refine ⟨fec₀, idgen', hinit, ?_⟩
  intro σ callback calls extra₀
  obtain ⟨fec, extra, slots, hrun, h, hsane⟩ :=
    decode_calls_sane hp hpos callback calls h₀ hsane₀ extra₀
  refine ⟨fec, extra, hrun, ?_⟩
  intro answer header input current seen
  obtain ⟨err, fec', seen', slots', hcall, -, -, hanswered⟩ :=
    decode_answered hp (record answer) h hsane hpos header input current seen
  exact ⟨err, fec', seen', hcall, full_iff_refuses h hanswered⟩

theorem the_decoder_is_full_two :
    ∃ fec₀ idgen', nt_rs_fec_init 2 1 4 2 100 0 (fun _ => 0) = some (fec₀, idgen') ∧
      ∀ (σ : Type) (callback : σ → List UInt8 → Int → error_t × σ)
        (calls : List (nt_fec_header_t × List UInt8 × Int)) (extra₀ : σ),
        ∃ fec extra, decode_calls callback calls fec₀ extra₀ = some (fec, extra) ∧
          ∀ answer (header : nt_fec_header_t) (input : List UInt8) (current : Int) seen,
            ∃ err fec' seen', nt_rs_fec_decode fec header input current seen (record answer) =
                some (err, fec', seen') ∧
              (err = E_FEC_DECODER_BUFFER_FULL ∧ seen' = seen ↔ refuses fec header current) :=
  the_decoder_is_full_iff ⟨by decide, by decide, by decide⟩ 4 ⟨by decide, by decide⟩ 100 0
    (fun _ => 0)

/-- A packet of a block of two messages and one redundant packet. -/
def packet_of_two (block_id : UInt32) (block_index : UInt8) :
    nt_fec_header_t × List UInt8 × Int :=
  (nt_fec_header_init NT_RS_FEC_TAG 3 2 block_id block_index 1, [5], 1000)

/-- With two buffers, block 7 has one packet and block 8 is complete. The first packet of block 9
is refused, though the buffer of block 8 could be taken. -/
theorem a_complete_buffer_is_not_taken : ∃ fec₀ idgen' fec seen fec' b,
    nt_rs_fec_init 3 2 4 2 100 0 (fun _ => 0) = some (fec₀, idgen') ∧
    decode_calls (record fun _ _ _ => 0)
      [packet_of_two 7 0, packet_of_two 8 0, packet_of_two 8 1] fec₀ [] = some (fec, seen) ∧
    nt_rs_fec_decode fec (packet_of_two 9 0).1 [5] 1000 seen (record fun _ _ _ => 0) =
      some (E_FEC_DECODER_BUFFER_FULL, fec', seen) ∧
    cached_buffer fec 8 = some b ∧ rs_is_dc_complete fec.rs b.buffer = some true := by
  have hrun : (do
      let init ← nt_rs_fec_init 3 2 4 2 100 0 (fun _ => 0)
      let (fec, seen) ← decode_calls (record fun _ _ _ => 0)
        [packet_of_two 7 0, packet_of_two 8 0, packet_of_two 8 1] init.1 []
      let (err, _, seen') ← nt_rs_fec_decode fec (packet_of_two 9 0).1 [5] 1000 seen
        (record fun _ _ _ => 0)
      let b ← cached_buffer fec 8
      return (err, decide (seen' = seen), rs_is_dc_complete fec.rs b.buffer)) =
        some (E_FEC_DECODER_BUFFER_FULL, true, some true) := by
    decide +kernel
  simp only [Option.bind_eq_bind, Option.bind_eq_some_iff, Option.pure_def, Option.some.injEq,
    Prod.mk.injEq, decide_eq_true_eq] at hrun
  obtain ⟨⟨fec₀, idgen'⟩, hinit, ⟨fec, seen⟩, hcalls, ⟨err, fec', seen'⟩, hcall, b, hcached, rfl,
    rfl, hcomplete⟩ := hrun
  exact ⟨fec₀, idgen', fec, seen', fec', b, hinit, hcalls, hcall, hcached, hcomplete⟩

end nettle.nt_rs_fec
