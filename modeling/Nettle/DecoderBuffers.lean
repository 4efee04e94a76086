-- The decoder of nt_rs_fec.c as a shelf of buffers, the newest first: every
-- call moves, resets or feeds one of them. The LRU map and the pool carry
-- this list between them.
import Nettle.LrumapLaws
import Nettle.NtRsFec
import Nettle.RsSane

open nettle.hashmap nettle.lrumap nettle.nt_fec nettle.rs

namespace nettle.nt_rs_fec

/-! ## The shelf -/

/-- The buffers with their numbers in the pool, the newest first. -/
abbrev shelf := List (Nat × decode_buffer_t)

def shelf_ids (slots : shelf) : List UInt32 := slots.map fun s => s.2.block_id

/-- A buffer just reset, which keeps nothing of what it held. -/
def fresh_buffer (rs : rs_t) (block_id : UInt32) : decode_buffer_t :=
  reset_decode_buffer rs ⟨0, ⟨0, bitmap256_reset, [], [], 0, 0⟩, 0⟩ block_id

theorem sane_fresh (rs : rs_t) (block_id : UInt32) : Sane rs [] (fresh_buffer rs block_id).buffer :=
  sane_reset rs ⟨0, bitmap256_reset, [], [], 0, 0⟩

/-- The cache maps the id of each buffer to its place in the pool, and has them all. -/
structure Shelved (N K D B : Nat) (timeout : Int) (fec : nt_rs_fec_t) (slots : shelf) : Prop where
  rs : fec.rs = rs_init N K D
  timeout : fec.decode_timeout = timeout
  cache : Recent fec.decode_buffer_cache (slots.map fun s => (s.2.block_id.toNat, s.1))
  equal_func : fec.decode_buffer_cache.map.equal_func = naive_equal_func
  capacity : fec.decode_buffer_cache.capacity = B
  pool : ∀ s ∈ slots, fec.decode_buffer_pool[s.1]? = some s.2
  places : (slots.map Prod.fst).Perm (List.range B)
  length : fec.decode_buffer_pool.length = B
  count : ∀ s ∈ slots, s.2.buffer.count ≤ K

section

variable {N K D B : Nat} {timeout : Int} {fec : nt_rs_fec_t} {slots : shelf}

theorem Shelved.length_slots (h : Shelved N K D B timeout fec slots) : slots.length = B := by
  have := h.places.length_eq
  rwa [List.length_map, List.length_range] at this

theorem naive_equal_iff (key key' : Nat) : naive_equal_func key key' = true ↔ key = key' := by
  rw [naive_equal_func, beq_iff_eq]

theorem Shelved.nodup_ids (h : Shelved N K D B timeout fec slots) : (shelf_ids slots).Nodup := by
  have hpairwise := h.cache.pairwise
  rw [h.equal_func, List.pairwise_map] at hpairwise
  rw [shelf_ids, List.Nodup, List.pairwise_map]
  refine hpairwise.imp fun hne heq => hne ?_
  rw [heq, naive_equal_iff]

/-- A buffer of another block has another key. -/
theorem absent_of_notMem (h : Shelved N K D B timeout fec slots) {block_id : UInt32}
    (hid : block_id ∉ shelf_ids slots) :
    Absent fec.decode_buffer_cache.map.equal_func block_id.toNat
      (slots.map fun s => (s.2.block_id.toNat, s.1)) := by
  rintro b hb hequal
  obtain ⟨s, hs, rfl⟩ := List.mem_map.mp hb
  rw [h.equal_func, naive_equal_iff] at hequal
  exact hid (List.mem_map.mpr ⟨s, hs, (UInt32.toNat_inj.mp hequal).symm⟩)

theorem Shelved.complete (h : Shelved N K D B timeout fec slots) {s : Nat × decode_buffer_t}
    (hs : s ∈ slots) : rs_is_dc_complete fec.rs s.2.buffer = some (s.2.buffer.count == K) := by
  rw [h.rs, rs_is_dc_complete, rs_init_K, if_pos (h.count s hs)]

/-- The newest buffer is changed; its id stays. -/
theorem Shelved.set {s : Nat × decode_buffer_t} {rest : shelf}
    (h : Shelved N K D B timeout fec (s :: rest)) (decode_buffer : decode_buffer_t)
    (hid : decode_buffer.block_id = s.2.block_id) (hcount : decode_buffer.buffer.count ≤ K)
    (perf : perf_t) :
    Shelved N K D B timeout (pool_set { fec with perf } s.1 decode_buffer)
      ((s.1, decode_buffer) :: rest) := by
  have hlt : s.1 < fec.decode_buffer_pool.length :=
    (List.getElem?_eq_some_iff.mp (h.pool s List.mem_cons_self)).1
  have hnodup := h.places.nodup_iff.mpr List.nodup_range
  have hcache := h.cache
  rw [List.map_cons] at hcache
  refine ⟨h.rs, h.timeout, ?_, h.equal_func, h.capacity, fun t ht => ?_, h.places, ?_, fun t ht => ?_⟩
  · rw [List.map_cons, hid]
    exact hcache
  · rcases List.mem_cons.mp ht with rfl | ht
    · exact List.getElem?_set_self hlt
    · have hne : s.1 ≠ t.1 := fun heq =>
        (List.nodup_cons.mp hnodup).1 (heq ▸ List.mem_map_of_mem ht)
      exact (List.getElem?_set_ne hne).trans (h.pool t (List.mem_cons_of_mem _ ht))
  · exact List.length_set.trans h.length
  · rcases List.mem_cons.mp ht with rfl | ht
    · exact hcount
    · exact h.count t (List.mem_cons_of_mem _ ht)

theorem Shelved.perf (h : Shelved N K D B timeout fec slots) (perf : perf_t) :
    Shelved N K D B timeout { fec with perf } slots :=
  ⟨h.rs, h.timeout, h.cache, h.equal_func, h.capacity, h.pool, h.places, h.length, h.count⟩

/-- A buffer comes to the front of the cache. -/
theorem Shelved.front {newer older : shelf} {s : Nat × decode_buffer_t}
    (h : Shelved N K D B timeout fec (newer ++ s :: older)) {cache : lrumap_t Nat Nat}
    (hcache : Recent cache ((s :: (newer ++ older)).map fun s => (s.2.block_id.toNat, s.1)))
    (hcapacity : cache.capacity = fec.decode_buffer_cache.capacity)
    (hequal : cache.map.equal_func = fec.decode_buffer_cache.map.equal_func) :
    Shelved N K D B timeout { fec with decode_buffer_cache := cache } (s :: (newer ++ older)) := by
  have hperm : (s :: (newer ++ older)).Perm (newer ++ s :: older) := List.perm_middle.symm
  exact ⟨h.rs, h.timeout, hcache, hequal.trans h.equal_func, hcapacity.trans h.capacity,
    fun t ht => h.pool t (hperm.mem_iff.mp ht), (hperm.map Prod.fst).trans h.places, h.length,
    fun t ht => h.count t (hperm.mem_iff.mp ht)⟩

/-! ## Looking for the buffer of a block -/

/-- Packets came to a buffer, more are to come, and the last one is not too old. -/
def in_progress (K : Nat) (timeout current : Int) (decode_buffer : decode_buffer_t) : Prop :=
  decode_buffer.buffer.count ≠ K ∧ decode_buffer.timestamp > 0 ∧
    current - decode_buffer.timestamp ≤ timeout

/-- The counters when a buffer is given to a block anew. -/
def perf_expired (K : Nat) (perf : perf_t) (decode_buffer : decode_buffer_t) : perf_t :=
  if decode_buffer.buffer.count ≠ K ∧ decode_buffer.timestamp > 0 then
    perf_inc perf .COUNTER_DECODER_BLOCK_EXPIRE 1 else perf

/-- The counters when a packet comes to a buffer. -/
def perf_counted (perf : perf_t) (timestamp : Int) : perf_t :=
  if timestamp = 0 then perf_inc perf .COUNTER_DECODER_BLOCK_COUNT 1 else perf

/-- A block that has a buffer: the buffer comes to the front, blank if it was too old. -/
theorem select_hit {newer older : shelf} {s : Nat × decode_buffer_t}
    (h : Shelved N K D B timeout fec (newer ++ s :: older)) {block_id : UInt32}
    (hid : s.2.block_id = block_id) (current : Int) :
    ∃ fec', select_decode_buffer fec block_id current = some (fec',
        if current - s.2.timestamp ≤ timeout ∧ s.2.buffer.count = K then .error 0 else .ok s.1) ∧
      Shelved N K D B timeout fec' ((s.1, if current - s.2.timestamp ≤ timeout then s.2
        else fresh_buffer (rs_init N K D) block_id) :: (newer ++ older)) ∧
      fec'.perf = if current - s.2.timestamp ≤ timeout then fec.perf
        else perf_expired K fec.perf s.2 := by
  subst hid
  obtain rfl := h.timeout
  have hcache := h.cache
  rw [List.map_append, List.map_cons] at hcache
  obtain ⟨cache, hget, hcache', hcapacity, -, hequal⟩ := lrumap_get_present hcache
    (by rw [h.equal_func, naive_equal_iff])
  rw [← List.map_append] at hcache'
  have hfront := h.front hcache' hcapacity hequal
  have hpool := hfront.pool s List.mem_cons_self
  have hcomplete := hfront.complete List.mem_cons_self
  unfold select_decode_buffer pool_get
  simp only [hget, hpool, hcomplete, Option.bind_eq_bind, Option.bind_some]
  by_cases hrecent : current - s.2.timestamp ≤ fec.decode_timeout
  · simp only [hrecent, if_true, true_and]
    refine ⟨_, ?_, hfront, rfl⟩
    by_cases hK : s.2.buffer.count = K
    · simp only [hK, beq_self_eq_true, if_true]
      rfl
    · simp only [hK, beq_false_of_ne hK, if_false]
      rfl
  · simp only [hrecent, if_false, false_and]
    refine ⟨_, rfl, ?_, ?_⟩
    · rw [← h.rs]
      exact hfront.set (fresh_buffer fec.rs s.2.block_id) rfl
        (Nat.zero_le K) _
    · simp only [pool_set, perf_expired, beq_iff_eq, ne_eq]

/-- A block without a buffer takes the eldest one, unless that is in progress. -/
theorem select_miss {newer : shelf} {s : Nat × decode_buffer_t}
    (h : Shelved N K D B timeout fec (newer ++ [s])) {block_id : UInt32}
    (hid : block_id ∉ shelf_ids (newer ++ [s])) (current : Int) :
    (in_progress K timeout current s.2 ∧ select_decode_buffer fec block_id current =
        some (fec, .error E_FEC_DECODER_BUFFER_FULL)) ∨
      ¬in_progress K timeout current s.2 ∧ ∃ fec',
        select_decode_buffer fec block_id current = some (fec', .ok s.1) ∧
        Shelved N K D B timeout fec'
          ((s.1, fresh_buffer (rs_init N K D) block_id) :: newer) ∧
        fec'.perf = perf_expired K fec.perf s.2 := by
  obtain rfl := h.timeout
  have hs : s ∈ newer ++ [s] := by simp
  have hget := lrumap_get_absent h.cache (absent_of_notMem h hid)
  have hpeek : lrumap_peek fec.decode_buffer_cache = some (some (s.2.block_id.toNat, s.1)) := by
    rw [lrumap_peek_spec h.cache]
    simp
  have hcomplete := h.complete hs
  unfold select_decode_buffer pool_get
  simp only [hget, hpeek, h.pool s hs, hcomplete, Option.bind_eq_bind, Option.bind_some,
    beq_iff_eq]
  by_cases hprogress : ¬s.2.buffer.count = K ∧ s.2.timestamp > 0 ∧
      current - s.2.timestamp ≤ fec.decode_timeout
  · exact Or.inl ⟨hprogress, if_pos hprogress⟩
  refine Or.inr ⟨hprogress, ?_⟩
  have hcache := h.cache
  rw [List.map_append, List.map_singleton] at hcache
  obtain ⟨removed, hremove, hcache', hcapacity, -, hequal⟩ := lrumap_remove_present hcache
    (by rw [h.equal_func, naive_equal_iff])
  rw [List.append_nil] at hcache'
  have habsent : Absent removed.map.equal_func block_id.toNat
      (newer.map fun s => (s.2.block_id.toNat, s.1)) := by
    rw [hequal]
    exact fun b hb => absent_of_notMem h hid b (by
      rw [List.map_append]
      exact List.mem_append_left _ hb)
  have hlen : newer.length + 1 = B := by simpa using h.length_slots
  obtain ⟨cache, hput, hrecent, hcapacity', -, hequal'⟩ := lrumap_put_spec hcache' _
    (by rw [List.length_map, hcapacity, h.capacity]; omega) habsent s.1
  have hshelf : Shelved N K D B fec.decode_timeout { fec with
      decode_buffer_cache := cache
      decode_buffer_pool := fec.decode_buffer_pool.set s.1
        (fresh_buffer fec.rs block_id) }
      ((s.1, fresh_buffer fec.rs block_id) :: newer) := by
    have hperm : (s :: newer).Perm (newer ++ [s]) := (List.perm_append_singleton s newer).symm
    have hplaces := (hperm.map Prod.fst).trans h.places
    have hnodup := hplaces.nodup_iff.mpr List.nodup_range
    refine ⟨h.rs, h.timeout, hrecent, (hequal'.trans hequal).trans h.equal_func,
      (hcapacity'.trans hcapacity).trans h.capacity, fun t ht => ?_, hplaces,
      List.length_set.trans h.length, fun t ht => ?_⟩
    · rcases List.mem_cons.mp ht with rfl | ht
      · exact List.getElem?_set_self (List.getElem?_eq_some_iff.mp (h.pool s hs)).1
      · have hne : s.1 ≠ t.1 := fun heq =>
          (List.nodup_cons.mp hnodup).1 (heq ▸ List.mem_map_of_mem ht)
        exact (List.getElem?_set_ne hne).trans (h.pool t (List.mem_append_left _ ht))
    · rcases List.mem_cons.mp ht with rfl | ht
      · exact Nat.zero_le K
      · exact h.count t (List.mem_append_left _ ht)
  rw [if_neg hprogress]
  simp only [hremove, hput, Option.bind_some, not_true_eq_false, if_false]
  refine ⟨_, rfl, ?_, rfl⟩
  rw [← h.rs]
  exact hshelf.perf _

end

/-! ## The ways to a buffer -/

/-- The shelf as a call finds it: buffers as they were, or blank ones for the block of the
packet. -/
def FromShelf (rs : rs_t) (block_id : UInt32) (slots slots' : shelf) : Prop :=
  ∀ s ∈ slots', s ∈ slots ∨ s.2 = fresh_buffer rs block_id

/-- The ways to look for the buffer of a block: the shelf before and after, the counters after,
and the value to return at once, if there is one. -/
inductive Looked (rs : rs_t) (timeout : Int) (block_id : UInt32) (current : Int) (perf : perf_t) :
    shelf → shelf → perf_t → Except error_t Unit → Prop
  | processed {newer older : shelf} {s : Nat × decode_buffer_t} : s.2.block_id = block_id →
      current - s.2.timestamp ≤ timeout → s.2.buffer.count = rs.K →
      Looked rs timeout block_id current perf (newer ++ s :: older) (s :: (newer ++ older)) perf
        (.error 0)
  | found {newer older : shelf} {s : Nat × decode_buffer_t} : s.2.block_id = block_id →
      current - s.2.timestamp ≤ timeout → s.2.buffer.count ≠ rs.K →
      Looked rs timeout block_id current perf (newer ++ s :: older) (s :: (newer ++ older)) perf
        (.ok ())
  | expired {newer older : shelf} {s : Nat × decode_buffer_t} : s.2.block_id = block_id →
      ¬current - s.2.timestamp ≤ timeout →
      Looked rs timeout block_id current perf (newer ++ s :: older)
        ((s.1, fresh_buffer rs block_id) :: (newer ++ older)) (perf_expired rs.K perf s.2) (.ok ())
  | full {newer : shelf} {s : Nat × decode_buffer_t} : block_id ∉ shelf_ids (newer ++ [s]) →
      in_progress rs.K timeout current s.2 →
      Looked rs timeout block_id current perf (newer ++ [s]) (newer ++ [s]) perf
        (.error E_FEC_DECODER_BUFFER_FULL)
  | taken {newer : shelf} {s : Nat × decode_buffer_t} : block_id ∉ shelf_ids (newer ++ [s]) →
      ¬in_progress rs.K timeout current s.2 →
      Looked rs timeout block_id current perf (newer ++ [s])
        ((s.1, fresh_buffer rs block_id) :: newer) (perf_expired rs.K perf s.2) (.ok ())

section

variable {rs : rs_t} {timeout : Int} {block_id : UInt32} {current : Int} {perf perf' : perf_t}
  {slots slots' rest : shelf} {s : Nat × decode_buffer_t} {err : error_t}

theorem Looked.perm (h : Looked rs timeout block_id current perf slots slots' perf' (.error err)) :
    slots'.Perm slots := by
  cases h with
  | processed => exact List.perm_middle.symm
  | full => exact List.Perm.refl _

theorem Looked.error (h : Looked rs timeout block_id current perf slots slots' perf' (.error err)) :
    err = 0 ∨ err = E_FEC_DECODER_BUFFER_FULL := by
  cases h with
  | processed => exact Or.inl rfl
  | full => exact Or.inr rfl

theorem Looked.same_block
    (h : Looked rs timeout block_id current perf slots (s :: rest) perf' (.ok ())) :
    s.2.block_id = block_id := by
  generalize hslots : s :: rest = slots', hresult : Except.ok () = result at h
  cases h with
  | processed => cases hresult
  | found hid => cases hslots; exact hid
  | expired => cases hslots; rfl
  | full => cases hresult
  | taken => cases hslots; rfl

/-- The buffer found is not complete. -/
theorem Looked.room (h : Looked rs timeout block_id current perf slots (s :: rest) perf' (.ok ()))
    (hK : 1 ≤ rs.K) (hcount : ∀ s ∈ slots, s.2.buffer.count ≤ rs.K) :
    s.2.buffer.count < rs.K := by
  generalize hslots : s :: rest = slots', hresult : Except.ok () = result at h
  cases h with
  | processed => cases hresult
  | found hid hrecent hopen =>
    cases hslots
    exact lt_of_le_of_ne (hcount s (by simp)) hopen
  | expired => cases hslots; exact hK
  | full => cases hresult
  | taken => cases hslots; exact hK

theorem Looked.from_shelf {result : Except error_t Unit}
    (h : Looked rs timeout block_id current perf slots slots' perf' result) :
    FromShelf rs block_id slots slots' := by
  intro t ht
  cases h with
  | processed => exact Or.inl (List.perm_middle.mem_iff.mpr ht)
  | found => exact Or.inl (List.perm_middle.mem_iff.mpr ht)
  | expired =>
    rcases List.mem_cons.mp ht with rfl | ht
    · exact Or.inr rfl
    · exact Or.inl (List.perm_middle.mem_iff.mpr (List.mem_cons_of_mem _ ht))
  | full => exact Or.inl ht
  | taken =>
    rcases List.mem_cons.mp ht with rfl | ht
    · exact Or.inr rfl
    · exact Or.inl (List.mem_append_left _ ht)

end

section

variable {N K D B : Nat} {timeout : Int} {fec : nt_rs_fec_t} {slots : shelf}

theorem select_looked (h : Shelved N K D B timeout fec slots) (hB : 1 ≤ B) (block_id : UInt32)
    (current : Int) :
    (∃ err fec' slots', select_decode_buffer fec block_id current = some (fec', .error err) ∧
        Shelved N K D B timeout fec' slots' ∧
        Looked (rs_init N K D) timeout block_id current fec.perf slots slots' fec'.perf
          (.error err)) ∨
      ∃ fec' s rest, select_decode_buffer fec block_id current = some (fec', .ok s.1) ∧
        Shelved N K D B timeout fec' (s :: rest) ∧
        Looked (rs_init N K D) timeout block_id current fec.perf slots (s :: rest) fec'.perf
          (.ok ()) := by
  by_cases hid : block_id ∈ shelf_ids slots
  · obtain ⟨s, hs, hid'⟩ := List.mem_map.mp hid
    obtain ⟨newer, older, rfl⟩ := List.append_of_mem hs
    obtain ⟨fec', hselect, hshelf, hperf⟩ := select_hit h hid' current
    by_cases hrecent : current - s.2.timestamp ≤ timeout
    · simp only [hrecent, true_and, if_true] at hselect hshelf hperf
      by_cases hcount : s.2.buffer.count = K
      · rw [if_pos hcount] at hselect
        exact Or.inl ⟨0, fec', _, hselect, hshelf, hperf ▸ .processed hid' hrecent hcount⟩
      · rw [if_neg hcount] at hselect
        exact Or.inr ⟨fec', s, _, hselect, hshelf, hperf ▸ .found hid' hrecent hcount⟩
    · simp only [hrecent, false_and, if_false] at hselect hshelf hperf
      exact Or.inr ⟨fec', (s.1, fresh_buffer (rs_init N K D) block_id), _, hselect, hshelf,
        hperf ▸ .expired hid' hrecent⟩
  · rcases List.eq_nil_or_concat slots with rfl | ⟨newer, s, rfl⟩
    · exact absurd h.length_slots (by simp; omega)
    rw [List.concat_eq_append] at h hid ⊢
    rcases select_miss h hid current with ⟨hprogress, hselect⟩ |
      ⟨hprogress, fec', hselect, hshelf, hperf⟩
    · exact Or.inl ⟨_, fec, _, hselect, h, .full hid hprogress⟩
    · exact Or.inr ⟨fec', (s.1, fresh_buffer (rs_init N K D) block_id), _, hselect, hshelf,
        hperf ▸ .taken hid hprogress⟩

end

/-! ## One call -/

/-- The header names a code other than the decoder's. -/
def foreign (N K : Nat) (header : nt_fec_header_t) : Prop :=
  header.tag ≠ NT_RS_FEC_TAG ∨ header.N.toNat ≠ N ∨ header.K.toNat ≠ K

/-- What the callback gets to see of an accepted packet: the packet itself if it is a message,
then every message that it restores. -/
def deliver {σ : Type} (rs : rs_t) (dc : rs_dc_t) (callback : σ → List UInt8 → Int → error_t × σ)
    (input : List UInt8) (n : Nat) (is_raw : Bool) (extra : σ) : Option (error_t × σ) :=
  let (err, extra) := if is_raw then callback extra input input.length else (0, extra)
  if err ≠ 0 then some (err, extra) else decode_loop rs dc callback n 0 extra

/-- The counters after an accepted packet. -/
def perf_accepted (perf : perf_t) (timestamp : Int) (complete : Bool) (n : Nat) (is_raw : Bool) :
    perf_t :=
  let perf := if timestamp = 0 then perf_inc perf .COUNTER_DECODER_BLOCK_COUNT 1 else perf
  let perf := if ¬complete then perf
    else if n = 0 then perf_inc perf .COUNTER_DECODER_BLOCK_COMPLETE 1
    else perf_inc (perf_inc perf .COUNTER_DECODER_BLOCK_RESTORE 1) .COUNTER_DECODER_RESTORE n
  if is_raw then perf_inc perf .COUNTER_DECODER_RAW 1 else perf

section

variable {N K D B : Nat} {timeout : Int} {fec : nt_rs_fec_t} {slots : shelf}

/-- The value of a call that finds no buffer to feed. -/
theorem select_cases (h : Shelved N K D B timeout fec slots) (hK : 1 ≤ K) (hB : 1 ≤ B)
    (block_id : UInt32) (current : Int) :
    (∃ err fec' slots', select_decode_buffer fec block_id current = some (fec', .error err) ∧
        Shelved N K D B timeout fec' slots' ∧ slots'.Perm slots ∧
        (err = 0 ∨ err = E_FEC_DECODER_BUFFER_FULL)) ∨
      ∃ fec' s rest, select_decode_buffer fec block_id current = some (fec', .ok s.1) ∧
        Shelved N K D B timeout fec' (s :: rest) ∧ s.2.block_id = block_id ∧
        s.2.buffer.count < K ∧ FromShelf (rs_init N K D) block_id slots (s :: rest) := by
  rcases select_looked h hB block_id current with ⟨err, fec', slots', hselect, hshelf, hlooked⟩ |
    ⟨fec', s, rest, hselect, hshelf, hlooked⟩
  · exact Or.inl ⟨err, fec', slots', hselect, hshelf, hlooked.perm, hlooked.error⟩
  · exact Or.inr ⟨fec', s, rest, hselect, hshelf, hlooked.same_block, hlooked.room hK h.count,
      hlooked.from_shelf⟩

/-- A packet that `rs_decode` refuses. -/
theorem feed_refused {σ : Type} {s : Nat × decode_buffer_t} {rest : shelf}
    (h : Shelved N K D B timeout fec (s :: rest)) {header : nt_fec_header_t}
    {input : List UInt8} {err : rs_error}
    (hdecode : rs_decode (rs_init N K D) s.2.buffer input
      ((N : Int) - 1 - header.block_index.toNat) = some (s.2.buffer, .error err))
    (current : Int) (extra : σ) (callback : σ → List UInt8 → Int → error_t × σ) :
    ∃ fec', feed_decode_buffer fec s.1 header input current extra callback =
        some (if err = .E_RS_DUPLICATE then 0 else EINVAL, fec', extra) ∧
      Shelved N K D B timeout fec' (s :: rest) ∧
      fec'.perf = perf_counted fec.perf s.2.timestamp := by
  have hdecode' : rs_decode fec.rs s.2.buffer input
      ((fec.rs.N : Int) - 1 - header.block_index.toNat) = some (s.2.buffer, .error err) := by
    rw [h.rs]
    exact hdecode
  unfold feed_decode_buffer pool_get
  simp only [h.pool s List.mem_cons_self, hdecode', Option.bind_eq_bind, Option.bind_some]
  cases err <;> exact ⟨_, rfl, h.perf _, rfl⟩

/-- A packet that `rs_decode` adds. -/
theorem feed_accepted {σ : Type} {s : Nat × decode_buffer_t} {rest : shelf}
    (h : Shelved N K D B timeout fec (s :: rest)) {header : nt_fec_header_t}
    {input : List UInt8} {dc : rs_dc_t} {n : Nat} {is_raw : Bool}
    (hdecode : rs_decode (rs_init N K D) s.2.buffer input
      ((N : Int) - 1 - header.block_index.toNat) = some (dc, .ok (n, is_raw)))
    (hcount : dc.count ≤ K) (current : Int) (extra : σ)
    (callback : σ → List UInt8 → Int → error_t × σ) :
    ∃ fec', feed_decode_buffer fec s.1 header input current extra callback =
        (deliver (rs_init N K D) dc callback input n is_raw extra).map
          (fun result => (result.1, fec', result.2)) ∧
      Shelved N K D B timeout fec'
        ((s.1, { s.2 with buffer := dc, timestamp := current }) :: rest) ∧
      fec'.perf = perf_accepted fec.perf s.2.timestamp (dc.count == K) n is_raw := by
  have hdecode' : rs_decode fec.rs s.2.buffer input
      ((fec.rs.N : Int) - 1 - header.block_index.toNat) = some (dc, .ok (n, is_raw)) := by
    rw [h.rs]
    exact hdecode
  have hcomplete : rs_is_dc_complete fec.rs dc = some (dc.count == K) := by
    rw [h.rs, rs_is_dc_complete, rs_init_K, if_pos hcount]
  refine ⟨pool_set { fec with
    perf := perf_accepted fec.perf s.2.timestamp (dc.count == K) n is_raw } s.1
      { s.2 with buffer := dc, timestamp := current }, ?_,
    h.set { s.2 with buffer := dc, timestamp := current } rfl hcount _, rfl⟩
  rw [← h.rs]
  unfold feed_decode_buffer pool_get deliver perf_accepted
  simp only [h.pool s List.mem_cons_self, hdecode', hcomplete, Option.bind_eq_bind,
    Option.bind_some]
  cases is_raw with
  | true =>
    simp only [if_true]
    split
    · rfl
    · exact Option.map_eq_bind.symm
  | false =>
    simp only [Bool.false_eq_true, if_false, ne_eq, not_true_eq_false]
    exact Option.map_eq_bind.symm

end

/-! ## The first shelf -/

/-- The blank buffers that `nt_rs_fec_init` makes, under the ids of their places. -/
def first_shelf (rs : rs_t) (B : Nat) : shelf :=
  (List.range B).reverse.map fun i => (i, fresh_buffer rs (UInt32.ofNat i))

theorem toNat_place {B i : Nat} (hB : B ≤ 2 ^ 32) (hi : i < B) : (UInt32.ofNat i).toNat = i :=
  UInt32.toNat_ofNat_of_lt' (hi.trans_le hB)

theorem puts_recent {cache : lrumap_t Nat Nat} (h : Recent cache [])
    (hequal : cache.map.equal_func = naive_equal_func) (hB : cache.capacity ≤ 2 ^ 32) (n : Nat)
    (hn : n ≤ cache.capacity) :
    ∃ cache', (List.range n).foldlM (fun cache i =>
        (lrumap_put cache (UInt32.ofNat i).toNat i).map Prod.snd) cache = some cache' ∧
      Recent cache' ((List.range n).reverse.map fun i => (i, i)) ∧
      cache'.capacity = cache.capacity ∧ cache'.map.equal_func = naive_equal_func := by
  induction n with
  | zero => exact ⟨cache, rfl, h, rfl, hequal⟩
  | succ n ih =>
    obtain ⟨cache₁, hrun, hrecent, hcapacity, hequal₁⟩ := ih (Nat.le_of_succ_le hn)
    obtain ⟨cache₂, hput, hrecent₂, hcapacity₂, -, hequal₂⟩ := lrumap_put_spec hrecent n
      (by simpa [hcapacity] using hn) (by
        rw [hequal₁]
        intro b hb heq
        obtain ⟨i, hi, rfl⟩ := List.mem_map.mp hb
        rw [naive_equal_iff] at heq
        rw [List.mem_reverse, List.mem_range] at hi
        omega) n
    refine ⟨cache₂, ?_, ?_, hcapacity₂.trans hcapacity, hequal₂.trans hequal₁⟩
    · rw [List.range_succ, List.foldlM_append, hrun]
      simp only [Option.bind_eq_bind, Option.bind_some, List.foldlM_cons, List.foldlM_nil,
        toNat_place hB hn, hput, Option.map_some]
      rfl
    · simpa [List.range_succ] using hrecent₂

/-- The start never fails, and leaves the first shelf. -/
theorem nt_rs_fec_init_shelved (N K : UInt8) (D : Nat) {B : Nat} (hB : 2 ≤ B ∧ B ≤ 2 ^ 32)
    (timeout : Int) (idgen : idgen_t) (perf : perf_t) :
    ∃ fec idgen', nt_rs_fec_init N K D B timeout idgen perf = some (fec, idgen') ∧
      Shelved N.toNat K.toNat D B timeout fec
        (first_shelf (rs_init N.toNat K.toNat D) B) := by
  obtain ⟨cache₀, hinit, hempty, hcapacity, -, hequal⟩ :=
    lrumap_init1_spec (β := Nat) lawful_naive hB.1
  obtain ⟨cache, hrun, hrecent, hcapacity', hequal'⟩ :=
    puts_recent hempty hequal (by rw [hcapacity]; exact hB.2) B hcapacity.ge
  unfold nt_rs_fec_init
  simp only [hinit, hrun, Option.bind_eq_bind, Option.bind_some]
  refine ⟨_, _, rfl, rfl, rfl, ?_, hequal', hcapacity'.trans hcapacity, fun s hs => ?_, ?_, ?_,
    fun s hs => ?_⟩
  · have hkeys : (first_shelf (rs_init N.toNat K.toNat D) B).map
        (fun s => (s.2.block_id.toNat, s.1)) = (List.range B).reverse.map fun i => (i, i) := by
      rw [first_shelf, List.map_map]
      refine List.map_congr_left fun i hi => ?_
      rw [List.mem_reverse, List.mem_range] at hi
      exact Prod.ext (toNat_place hB.2 hi) rfl
    rw [hkeys]
    exact hrecent
  · obtain ⟨i, hi, rfl⟩ := List.mem_map.mp hs
    rw [List.mem_reverse, List.mem_range] at hi
    change ((List.range B).map _)[i]? = _
    rw [List.getElem?_map, List.getElem?_range hi]
    rfl
  · rw [first_shelf, List.map_map]
    exact (List.Perm.of_eq (List.map_id _)).trans (List.reverse_perm _)
  · exact (List.length_map _).trans List.length_range
  · obtain ⟨i, -, rfl⟩ := List.mem_map.mp hs
    exact Nat.zero_le _

end nettle.nt_rs_fec
