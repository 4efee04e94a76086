-- The cache of the echo service and its pool stay in step: the keys are just
-- the buffers that are taken, and each holds the header of the last request
-- of its kind that was echoed. So a buffer is at hand whenever one is needed.
import Nettle.LrumapLaws
import Nettle.NtEchoListener

open nettle.hashmap nettle.lrumap nettle.nt_fec nettle.nt_proto nettle.queue nettle.udp

namespace nettle.nt_echo_listener

/-! ## Requests of one kind -/

/-- What the comparison of headers looks at. -/
def Same (header header' : nt_api_header_t) : Prop :=
  header.tag = header'.tag ∧ header.id_n = header'.id_n ∧ header.src_ip = header'.src_ip ∧
    header.src_port = header'.src_port

instance (header header' : nt_api_header_t) : Decidable (Same header header') :=
  inferInstanceAs (Decidable (_ ∧ _))

theorem Same.refl (header : nt_api_header_t) : Same header header := ⟨rfl, rfl, rfl, rfl⟩

theorem Same.symm {header header' : nt_api_header_t} (h : Same header header') :
    Same header' header :=
  ⟨h.1.symm, h.2.1.symm, h.2.2.1.symm, h.2.2.2.symm⟩

theorem Same.trans {header header' header'' : nt_api_header_t} (h : Same header header')
    (h' : Same header' header'') : Same header header'' :=
  ⟨h.1.trans h'.1, h.2.1.trans h'.2.1, h.2.2.1.trans h'.2.2.1, h.2.2.2.trans h'.2.2.2⟩

theorem header_equal_iff (memory : memory_t) (key key' : nt_api_header_ptr) :
    header_equal_func memory key key' = true ↔
      Same (memory_at memory key) (memory_at memory key') := by
  simp only [header_equal_func, Same, Bool.and_eq_true, beq_iff_eq, and_assoc]

theorem lawful_headers (memory : memory_t) :
    Lawful (header_hash_func memory) (header_equal_func memory) where
  refl key := (header_equal_iff memory key key).mpr (Same.refl _)
  symm h := by
    rw [header_equal_iff] at h ⊢
    exact h.symm
  trans h h' := by
    rw [header_equal_iff] at h h' ⊢
    exact h.trans h'
  hash h := by
    obtain ⟨htag, hid, hip, hport⟩ := (header_equal_iff _ _ _).mp h
    unfold header_hash_func
    simp only [htag, hid, hip, hport]

/-! ## The cache and the pool -/

/-- The keys that the table of the cache holds. -/
def dedup_keys (cache : lrumap_t nt_api_header_ptr Int) : List nt_api_header_ptr :=
  (bindings cache.map).map Prod.fst

/-- The buffers that are taken out of the pool. -/
def outstanding (size : Nat) (pool : pool_t) : List Nat :=
  (List.range size).filter (· ∉ queue_values pool)

/-- A key with its time. -/
def entry (item : Nat × Int) : nt_api_header_ptr × Int := (.cached item.1, item.2)

/-- The cache has these keys with their times, the newest first, and the pool has the other
buffers. -/
structure Paired (size : Nat) (memory : memory_t) (cache : lrumap_t nt_api_header_ptr Int)
    (pool : pool_t) (items : List (Nat × Int)) (free : List Nat) : Prop where
  recent : Recent cache (items.map entry)
  hash_func : cache.map.hash_func = header_hash_func memory
  equal_func : cache.map.equal_func = header_equal_func memory
  capacity : cache.capacity = size
  queued : Queued pool free
  room : pool.capacity = size
  split : (free ++ items.map Prod.fst).Perm (List.range size)

section

variable {size : Nat} {memory : memory_t} {cache : lrumap_t nt_api_header_ptr Int} {pool : pool_t}
  {items newer older : List (Nat × Int)} {item : Nat × Int} {free : List Nat}

theorem Paired.nodup (h : Paired size memory cache pool items free) :
    (free ++ items.map Prod.fst).Nodup :=
  h.split.nodup_iff.mpr List.nodup_range

theorem Paired.length (h : Paired size memory cache pool items free) :
    free.length + items.length = size := by
  have := h.split.length_eq
  rwa [List.length_append, List.length_map, List.length_range] at this

theorem Paired.keys (h : Paired size memory cache pool items free) :
    (dedup_keys cache).Perm (items.map fun item => .cached item.1) := by
  obtain ⟨used, hold, heq⟩ := h.recent
  have hkeys := hold.index.map Prod.fst
  have hused : (used.map fun u => (u.2.1, u.1)).map Prod.fst = (items.map entry).map Prod.fst := by
    rw [← heq, List.map_map, List.map_map]
    rfl
  rw [hused, List.map_map] at hkeys
  exact hkeys

theorem Paired.outstanding (h : Paired size memory cache pool items free) :
    (outstanding size pool).Perm (items.map Prod.fst) := by
  unfold nt_echo_listener.outstanding
  rw [h.queued.values_eq]
  refine (List.perm_ext_iff_of_nodup (List.nodup_range.filter _)
    (List.nodup_append.mp h.nodup).2.1).mpr fun i => ?_
  rw [List.mem_filter, ← h.split.mem_iff, List.mem_append, decide_eq_true_iff]
  constructor
  · rintro ⟨hi, hfree⟩
    exact hi.resolve_left hfree
  · intro hi
    exact ⟨Or.inr hi, fun hfree => (List.nodup_append.mp h.nodup).2.2 i hfree i hi rfl⟩

/-- Another datagram is read, or a buffer that is no key is written. -/
theorem Paired.reading (h : Paired size memory cache pool items free) (memory' : memory_t)
    (hsame : ∀ item ∈ items, memory'.cached item.1 = memory.cached item.1) :
    Paired size memory' (reading memory' cache) pool items free := by
  have hat : ∀ b ∈ items.map entry, memory_at memory' b.1 = memory_at memory b.1 := by
    intro b hb
    obtain ⟨item, hitem, rfl⟩ := List.mem_map.mp hb
    exact hsame item hitem
  refine ⟨h.recent.functions (lawful_headers memory') (fun b hb => ?_) fun b hb b' hb' => ?_, rfl, rfl,
    h.capacity, h.queued, h.room, h.split⟩
  · rw [h.hash_func, header_hash_func, header_hash_func, hat b hb]
  · rw [h.equal_func, header_equal_func, header_equal_func, hat b hb, hat b' hb']

theorem Paired.get_absent (h : Paired size memory cache pool items free)
    (habsent : ∀ item ∈ items, ¬Same memory.buffer (memory.cached item.1)) :
    lrumap_get cache .buffer = some (none, cache) := by
  apply lrumap_get_absent h.recent
  intro b hb
  obtain ⟨item, hitem, rfl⟩ := List.mem_map.mp hb
  rw [h.equal_func, header_equal_iff]
  exact habsent item hitem

theorem Paired.get_present (h : Paired size memory cache pool (newer ++ item :: older) free)
    (hsame : Same memory.buffer (memory.cached item.1)) :
    ∃ cache', lrumap_get cache .buffer = some (some (entry item), cache') ∧
      Paired size memory cache' pool (item :: (newer ++ older)) free := by
  have hrecent := h.recent
  rw [List.map_append, List.map_cons] at hrecent
  obtain ⟨cache', hget, hrecent', hcapacity, hhash, hequal⟩ := lrumap_get_present hrecent
    (by rw [h.equal_func, header_equal_iff]; exact hsame : cache.map.equal_func .buffer (entry item).1)
  refine ⟨cache', hget, ?_, hhash.trans h.hash_func, hequal.trans h.equal_func,
    hcapacity.trans h.capacity, h.queued, h.room, ?_⟩
  · rw [List.map_cons, List.map_append]
    exact hrecent'
  · exact ((List.perm_middle.map _).symm.append_left free).trans h.split

/-- The buffer that is given back is no key any more, and not free already. -/
def Proper (release : release_t) : Prop :=
  .cached release.buffer ∉ dedup_keys release.dedup_cache ∧
    release.buffer ∉ queue_values release.cache_pool

theorem Paired.release {listener : nt_echo_listener_t}
    (h : Paired size memory listener.dedup_cache listener.cache_pool (newer ++ item :: older) free) :
    ∃ cache pool release, release_key listener (.cached item.1) =
        some ({ listener with dedup_cache := cache, cache_pool := pool }, release) ∧
      Proper release ∧ Paired size memory cache pool (newer ++ older) (free ++ [item.1]) := by
  have hrecent := h.recent
  rw [List.map_append, List.map_cons] at hrecent
  obtain ⟨cache, hremove, hrecent', hcapacity, hhash, hequal⟩ := lrumap_remove_present hrecent
    (by rw [h.equal_func, header_equal_iff]; exact Same.refl _ :
      listener.dedup_cache.map.equal_func (.cached item.1) (entry item).1)
  rw [← List.map_append] at hrecent'
  have hlength := h.length
  rw [List.length_append, List.length_cons] at hlength
  obtain ⟨pool, hfree, hqueued, hroom⟩ := pool_free_spec h.queued
    (by rw [h.room]; omega) item.1
  have hsplit : ((free ++ [item.1]) ++ (newer ++ older).map Prod.fst).Perm (List.range size) := by
    refine List.Perm.trans ?_ h.split
    rw [List.append_assoc]
    exact (List.perm_middle.map Prod.fst).symm.append_left free
  have hpaired : Paired size memory cache pool (newer ++ older) (free ++ [item.1]) :=
    ⟨hrecent', hhash.trans h.hash_func, hequal.trans h.equal_func, hcapacity.trans h.capacity, hqueued,
      hroom.trans h.room, hsplit⟩
  have hnodup := hpaired.nodup
  refine ⟨cache, pool, ⟨item.1, cache, listener.cache_pool⟩, ?_, ⟨?_, ?_⟩, hpaired⟩
  · unfold release_key
    simp only [hremove, Option.bind_eq_bind, Option.bind_some, if_true, hfree]
    rfl
  · intro hkey
    obtain ⟨item', hitem', heq⟩ := List.mem_map.mp (hpaired.keys.mem_iff.mp hkey)
    refine (List.nodup_append.mp hnodup).2.2 item.1 (by simp) item'.1 (List.mem_map_of_mem hitem') ?_
    simpa using heq.symm
  · change item.1 ∉ queue_values listener.cache_pool
    rw [h.queued.values_eq]
    intro hmem
    exact (List.nodup_append.mp (List.nodup_append.mp hnodup).1).2.2 item.1 hmem item.1 (by simp) rfl

/-- A free buffer is found, and takes the header of the request. -/
theorem Paired.insert {listener : nt_echo_listener_t} {header : nt_api_header_t}
    (h : Paired size ⟨header, listener.cached⟩ listener.dedup_cache listener.cache_pool items free)
    (hroom : items.length < size)
    (habsent : ∀ item ∈ items, ¬Same header (listener.cached item.1)) (current : Int) :
    ∃ i free' listener', insert_key listener header current = some listener' ∧
      listener'.cached = Function.update listener.cached i header ∧ i ∉ items.map Prod.fst ∧
      Paired size ⟨header, listener'.cached⟩ listener'.dedup_cache listener'.cache_pool
        ((i, current) :: items) free' := by
  have hlength := h.length
  obtain ⟨i, free', rfl⟩ : ∃ i free', free = i :: free' :=
    List.exists_cons_of_length_pos (by omega)
  obtain ⟨pool, hpop, hqueued, hcapacity⟩ := pop_first h.queued
  have hnodup := h.nodup
  rw [List.cons_append, List.nodup_cons, List.mem_append, not_or] at hnodup
  have hcached : ∀ item ∈ items,
      Function.update listener.cached i header item.1 = listener.cached item.1 := by
    intro item hitem
    apply Function.update_of_ne
    rintro rfl
    exact hnodup.1.2 (List.mem_map_of_mem hitem)
  have hreading := h.reading ⟨header, Function.update listener.cached i header⟩ hcached
  obtain ⟨cache, hput, hrecent, hcap, hhash, hequal⟩ := lrumap_put_spec hreading.recent (.cached i)
    (by rw [List.length_map, hreading.capacity]; exact hroom) (fun b hb => by
      obtain ⟨item, hitem, rfl⟩ := List.mem_map.mp hb
      rw [hreading.equal_func, header_equal_iff]
      change ¬Same (Function.update listener.cached i header i)
        (Function.update listener.cached i header item.1)
      rw [Function.update_self, hcached item hitem]
      exact habsent item hitem) current
  refine ⟨i, free', { listener with
    cache_pool := pool
    cached := Function.update listener.cached i header
    dedup_cache := cache }, ?_, rfl, hnodup.1.2, hrecent, hhash.trans hreading.hash_func,
    hequal.trans hreading.equal_func, hcap.trans hreading.capacity, hqueued,
    hcapacity.trans h.room, List.perm_middle.trans h.split⟩
  unfold insert_key pool_new
  simp only [hpop, hput, Option.bind_eq_bind, Option.bind_some, if_true]
  rfl

theorem Paired.apart (h : Paired size memory cache pool (item :: items) free) :
    ∀ item' ∈ items, ¬Same (memory.cached item.1) (memory.cached item'.1) := by
  intro item' hitem'
  have hpairwise := h.recent.pairwise
  rw [List.map_cons, List.pairwise_cons] at hpairwise
  have hne := hpairwise.1 (entry item') (List.mem_map_of_mem hitem')
  rwa [h.equal_func, header_equal_iff] at hne

/-! ## One datagram -/

/-- The last request of the kind that was echoed, with its time; the list has the newest first. -/
def latest (echoed : List (Int × nt_api_header_t)) (header : nt_api_header_t) :
    Option (Int × nt_api_header_t) :=
  echoed.find? fun request => Same header request.2

/-- The keys hold the last requests of their kinds that were echoed. -/
def Kept (size : Nat) (listener : nt_echo_listener_t) (echoed : List (Int × nt_api_header_t)) :
    Prop :=
  ∃ header items free,
    Paired size ⟨header, listener.cached⟩ listener.dedup_cache listener.cache_pool items free ∧
    ∀ item ∈ items, latest echoed (listener.cached item.1) = some (item.2, listener.cached item.1)

variable {listener : nt_echo_listener_t} {header : nt_api_header_t}
  {echoed : List (Int × nt_api_header_t)}

theorem kept_insert (listener : nt_echo_listener_t)
    (h : Paired size ⟨header, listener.cached⟩ listener.dedup_cache listener.cache_pool items free)
    (hlatest : ∀ item ∈ items,
      latest echoed (listener.cached item.1) = some (item.2, listener.cached item.1))
    (hroom : items.length < size)
    (habsent : ∀ item ∈ items, ¬Same header (listener.cached item.1)) (current : Int) :
    ∃ listener', insert_key listener header current = some listener' ∧
      Kept size listener' ((current, header) :: echoed) := by
  obtain ⟨i, free', listener', hinsert, hcached, hnew, hpaired⟩ := h.insert hroom habsent current
  refine ⟨listener', hinsert, header, _, free', hpaired, fun item hitem => ?_⟩
  rw [hcached, latest]
  rcases List.mem_cons.mp hitem with rfl | hitem
  · simp only [Function.update_self]
    exact List.find?_cons_of_pos (decide_eq_true (Same.refl header))
  · have hne : item.1 ≠ i := fun heq => hnew (heq ▸ List.mem_map_of_mem hitem)
    rw [Function.update_of_ne hne, List.find?_cons_of_neg]
    · exact hlatest item hitem
    · rw [decide_eq_true_iff]
      exact fun hsame => habsent item hitem hsame.symm

/-- A key makes room for the next one. -/
theorem kept_replace (listener : nt_echo_listener_t) (newer older : List (Nat × Int))
    (h : Paired size ⟨header, listener.cached⟩ listener.dedup_cache listener.cache_pool
      (newer ++ item :: older) free)
    (hlatest : ∀ item ∈ newer ++ older,
      latest echoed (listener.cached item.1) = some (item.2, listener.cached item.1))
    (habsent : ∀ item ∈ newer ++ older, ¬Same header (listener.cached item.1)) (current : Int) :
    ∃ listener₁ release listener', release_key listener (.cached item.1) = some (listener₁, release) ∧
      insert_key listener₁ header current = some listener' ∧ Proper release ∧
      Kept size listener' ((current, header) :: echoed) := by
  have hlength := h.length
  rw [List.length_append, List.length_cons] at hlength
  obtain ⟨cache, pool, release, hrelease, hproper, hpaired⟩ := h.release
  obtain ⟨listener', hinsert, hkept⟩ := kept_insert
    { listener with dedup_cache := cache, cache_pool := pool } hpaired hlatest
    (by rw [List.length_append]; omega) habsent current
  exact ⟨_, release, listener', hrelease, hinsert, hproper, hkept⟩

/-- The request is judged, and the cache and the pool stay in step. -/
def Judged (size : Nat) (listener : nt_echo_listener_t) (echoed : List (Int × nt_api_header_t))
    (header : nt_api_header_t) (current : Int) : Prop :=
  ∃ echo listener' release, deduplicate listener header current = some (echo, listener', release) ∧
    Kept size listener' (if echo then (current, header) :: echoed else echoed) ∧
    ∀ r ∈ release, Proper r

/-- A request of a kind that is a key. -/
theorem judged_known (hsize : 0 < size)
    (h : Paired size ⟨header, listener.cached⟩
      (reading ⟨header, listener.cached⟩ listener.dedup_cache) listener.cache_pool
      (newer ++ item :: older) free)
    (hlatest : ∀ item' ∈ newer ++ item :: older,
      latest echoed (listener.cached item'.1) = some (item'.2, listener.cached item'.1))
    (hsame : Same header (listener.cached item.1)) (current : Int) :
    Judged size listener echoed header current := by
  have hrest : ∀ item' ∈ newer ++ older, item' ∈ newer ++ item :: older := fun item' h' =>
    List.perm_middle.mem_iff.mpr (List.mem_cons_of_mem _ h')
  obtain ⟨cache, hget, hfront⟩ := h.get_present hsame
  unfold Judged deduplicate
  simp only [h.capacity, gt_iff_lt, hsize, if_true, hget, entry, Option.bind_eq_bind,
    Option.bind_some]
  by_cases hexpired : current - item.2 > listener.dedup_timeout
  · -- the last request of this kind is too old to count
    obtain ⟨listener₁, release, listener', hrelease, hinsert, hproper, hkept⟩ :=
      kept_replace { listener with dedup_cache := cache } [] (newer ++ older) hfront
        (fun item' h' => hlatest item' (hrest item' h'))
        (fun item' h' hsame' => hfront.apart item' h' (hsame.symm.trans hsame')) current
    rw [if_pos hexpired]
    simp only [hrelease, hinsert, Option.bind_some]
    exact ⟨_, _, _, rfl, hkept, fun r hr => Option.some.inj hr ▸ hproper⟩
  · rw [if_neg hexpired]
    refine ⟨_, _, _, rfl, ⟨header, _, free, hfront, fun item' h' => ?_⟩, nofun⟩
    exact hlatest item' (List.perm_middle.mem_iff.mpr h')

/-- A request of a kind that is no key. -/
theorem judged_new (hsize : 0 < size)
    (h : Paired size ⟨header, listener.cached⟩
      (reading ⟨header, listener.cached⟩ listener.dedup_cache) listener.cache_pool items free)
    (hlatest : ∀ item ∈ items,
      latest echoed (listener.cached item.1) = some (item.2, listener.cached item.1))
    (habsent : ∀ item ∈ items, ¬Same header (listener.cached item.1)) (current : Int) :
    Judged size listener echoed header current := by
  unfold Judged deduplicate
  simp only [h.capacity, gt_iff_lt, hsize, if_true, h.get_absent habsent, Option.bind_eq_bind,
    Option.bind_some, h.recent.lrumap_size, List.length_map]
  by_cases hfull : items.length = size
  · -- the eldest key makes room
    obtain ⟨newer, item, rfl⟩ : ∃ newer item, items = newer ++ [item] := by
      rcases List.eq_nil_or_concat items with rfl | hconcat
      · exact absurd hfull hsize.ne
      · simpa only [List.concat_eq_append] using hconcat
    have hpeek : lrumap_peek (reading ⟨header, listener.cached⟩ listener.dedup_cache) =
        some (some (entry item)) := by
      rw [lrumap_peek_spec h.recent, List.map_append, List.map_singleton, List.getLast?_concat]
    have hrest : ∀ item' ∈ newer ++ [], item' ∈ newer ++ [item] := fun item' h' =>
      List.mem_append_left _ (by simpa using h')
    obtain ⟨listener₁, release, listener', hrelease, hinsert, hproper, hkept⟩ :=
      kept_replace { listener with
          dedup_cache := reading ⟨header, listener.cached⟩ listener.dedup_cache } newer [] h
        (fun item' h' => hlatest item' (hrest item' h'))
        (fun item' h' => habsent item' (hrest item' h')) current
    rw [if_pos hfull]
    simp only [hpeek, entry, hrelease, hinsert, Option.bind_some]
    exact ⟨_, _, _, rfl, hkept, fun r hr => Option.some.inj hr ▸ hproper⟩
  · have hlength := h.length
    obtain ⟨listener', hinsert, hkept⟩ := kept_insert { listener with
        dedup_cache := reading ⟨header, listener.cached⟩ listener.dedup_cache } h hlatest
      (by omega) habsent current
    rw [if_neg hfull]
    simp only [hinsert, Option.bind_some]
    exact ⟨_, _, _, rfl, hkept, nofun⟩

theorem deduplicate_kept (h : Kept size listener echoed) (hsize : 0 < size)
    (header : nt_api_header_t) (current : Int) : Judged size listener echoed header current := by
  obtain ⟨_, items, free, hpaired, hlatest⟩ := h
  have hread := hpaired.reading ⟨header, listener.cached⟩ fun _ _ => rfl
  by_cases hfound : ∃ item ∈ items, Same header (listener.cached item.1)
  · obtain ⟨item, hitem, hsame⟩ := hfound
    obtain ⟨newer, older, rfl⟩ := List.append_of_mem hitem
    exact judged_known hsize hread hlatest hsame current
  · apply judged_new hsize hread hlatest
    intro item hitem hsame
    exact hfound ⟨item, hitem, hsame⟩

end

/-! ## Any datagrams -/

/-- The request in a datagram, if there is a well-formed one. -/
def received_request (event : event_t) : Option nt_api_header_t :=
  match event.incoming with
  | .error _ => none
  | .ok (_, _, datagram) =>
    let (buffer, received) := udp_recvfrom event.stack UDP_BUFFER_SIZE datagram
    api_request buffer received

/-- The request that is echoed, with its time, if something is sent. -/
def echoed_by (event : event_t) (sent : Option (address_t × address_t × List UInt8)) :
    List (Int × nt_api_header_t) :=
  match sent, received_request event with
  | some _, some header => [(event.current, header)]
  | _, _ => []

/-- Datagram after datagram; the requests that are echoed and the buffers that are given back are
kept on record, the newest first. -/
def handle_all (listener : nt_echo_listener_t) (echoed : List (Int × nt_api_header_t))
    (released : List release_t) : List event_t →
      Option (nt_echo_listener_t × List (Int × nt_api_header_t) × List release_t)
  | [] => some (listener, echoed, released)
  | event :: events => do
    let (listener, sent, release) ← handle_read listener event
    handle_all listener (echoed_by event sent ++ echoed) (release.toList ++ released) events

/-- The keys are just the buffers that are taken, and no two are one. Each has its entry in the
cache, and the header it holds is that of the last request of its kind that was echoed, at the time
in the entry. -/
structure InStep (size : Nat) (listener : nt_echo_listener_t)
    (echoed : List (Int × nt_api_header_t)) : Prop where
  keys : (dedup_keys listener.dedup_cache).Perm
    ((outstanding size listener.cache_pool).map .cached)
  apart : (dedup_keys listener.dedup_cache).Nodup
  headers : ∀ i n, (.cached i, n) ∈ bindings listener.dedup_cache.map →
    ∃ time, listener.dedup_cache.entries.getD n none = some (.cached i, time) ∧
      latest echoed (listener.cached i) = some (time, listener.cached i)

section

variable {size : Nat} {listener : nt_echo_listener_t} {echoed : List (Int × nt_api_header_t)}

theorem Kept.in_step (h : Kept size listener echoed) : InStep size listener echoed := by
  obtain ⟨header, items, free, hpaired, hlatest⟩ := h
  have hkeys : (dedup_keys listener.dedup_cache).Perm
      ((outstanding size listener.cache_pool).map .cached) := by
    refine hpaired.keys.trans ?_
    have hout := hpaired.outstanding.symm.map nt_api_header_ptr.cached
    rwa [List.map_map] at hout
  refine ⟨hkeys, ?_, fun i n hn => ?_⟩
  · refine hkeys.nodup_iff.mpr (List.Nodup.map ?_ (List.nodup_range.filter _))
    intro i j heq
    exact nt_api_header_ptr.cached.inj heq
  · obtain ⟨used, hold, heq⟩ := hpaired.recent
    obtain ⟨u, hu, hkey⟩ := List.mem_map.mp (hold.index.mem_iff.mp hn)
    obtain ⟨hfst, hsnd⟩ := Prod.mk.inj hkey
    obtain ⟨item, hitem, hentry⟩ := List.mem_map.mp (heq ▸ List.mem_map_of_mem hu :
      u.2 ∈ items.map entry)
    have hbound := hold.bound u hu
    rw [hsnd, ← hentry] at hbound
    obtain rfl : item.1 = i := by
      rw [← hentry] at hfst
      exact nt_api_header_ptr.cached.inj hfst
    exact ⟨item.2, hbound, hlatest item hitem⟩

theorem handle_read_kept (h : Kept size listener echoed) (hsize : 0 < size) (event : event_t) :
    ∃ listener' sent release, handle_read listener event = some (listener', sent, release) ∧
      Kept size listener' (echoed_by event sent ++ echoed) ∧ ∀ r ∈ release, Proper r := by
  unfold handle_read echoed_by received_request
  cases event.incoming with
  | error e => exact ⟨_, _, _, rfl, h, nofun⟩
  | ok incoming =>
    obtain ⟨src, dst, datagram⟩ := incoming
    dsimp only
    cases api_request (udp_recvfrom event.stack UDP_BUFFER_SIZE datagram).1
      (udp_recvfrom event.stack UDP_BUFFER_SIZE datagram).2 with
    | none => exact ⟨_, _, _, rfl, h, nofun⟩
    | some header =>
      obtain ⟨echo, listener', release, hdedup, hkept, hproper⟩ :=
        deduplicate_kept h hsize header event.current
      simp only [hdedup, Option.bind_eq_bind, Option.bind_some]
      cases echo with
      | true => exact ⟨_, _, _, rfl, hkept, hproper⟩
      | false => exact ⟨_, _, _, rfl, hkept, hproper⟩

theorem handle_all_kept (h : Kept size listener echoed) (hsize : 0 < size)
    {released : List release_t} (hproper : ∀ r ∈ released, Proper r) (events : List event_t) :
    ∃ listener' echoed' released', handle_all listener echoed released events =
        some (listener', echoed', released') ∧
      Kept size listener' echoed' ∧ ∀ r ∈ released', Proper r := by
  induction events generalizing listener echoed released with
  | nil => exact ⟨listener, echoed, released, rfl, h, hproper⟩
  | cons event events ih =>
    obtain ⟨listener₁, sent, release, hread, hkept, hrelease⟩ := handle_read_kept h hsize event
    have hall : ∀ r ∈ release.toList ++ released, Proper r := by
      intro r hr
      rcases List.mem_append.mp hr with hr | hr
      · exact hrelease r (Option.mem_toList.mp hr)
      · exact hproper r hr
    obtain ⟨listener', echoed', released', hrest, hkept', hproper'⟩ := ih hkept hall
    refine ⟨listener', echoed', released', ?_, hkept', hproper'⟩
    unfold handle_all
    simp only [hread, Option.bind_eq_bind, Option.bind_some]
    exact hrest

end

/-- Whatever comes in, no `ensure` fails, a buffer is at hand for every new key, and none is given
back while it is a key or free. -/
theorem the_echo_cache_keeps_in_step (memory : memory_t) {dedup_cache_size : Nat}
    (hsize : 2 ≤ dedup_cache_size) (dedup_timeout : Int) (events : List event_t) :
    ∃ listener listener' echoed released,
      nt_echo_listener_init memory dedup_cache_size dedup_timeout = some listener ∧
      handle_all listener [] [] events = some (listener', echoed, released) ∧
      InStep dedup_cache_size listener' echoed ∧ ∀ r ∈ released, Proper r := by
  obtain ⟨cache, hinit, hrecent, hcapacity, hhash, hequal⟩ :=
    lrumap_init1_spec (β := Int) (lawful_headers memory) hsize
  obtain ⟨hqueued, hroom⟩ := pool_init_spec dedup_cache_size
  have hkept : Kept dedup_cache_size ⟨pool_init dedup_cache_size, memory.cached, cache, dedup_timeout⟩
      [] := by
    refine ⟨memory.buffer, [], _, ⟨hrecent, hhash, hequal, hcapacity, hqueued, hroom, ?_⟩, nofun⟩
    rw [List.map_nil, List.append_nil]
  obtain ⟨listener', echoed, released, hall, hkept', hproper⟩ :=
    handle_all_kept hkept (by omega) (List.forall_mem_nil _) events
  refine ⟨_, listener', echoed, released, ?_, hall, hkept'.in_step, hproper⟩
  unfold nt_echo_listener_init
  rw [hinit]
  rfl

/-- Two keys at most, and three requests: the third takes the place of the first. -/
theorem the_echo_cache_keeps_in_step_two : ∃ listener listener' echoed released,
    nt_echo_listener_init ⟨⟨0, 0, 0, 0, 0, 0, 0⟩, fun _ => ⟨0, 0, 0, 0, 0, 0, 0⟩⟩ 2 10 =
      some listener ∧
    handle_all listener [] [] ([1, 2, 1, 3].map fun id => ⟨[], .ok (address_init4 9 9,
      address_init4 7 7, nt_api_header_bytes ⟨NT_API_TAG, id, 9, 9, 8, 8, 0⟩), 0⟩) =
      some (listener', echoed, released) ∧
    InStep 2 listener' echoed ∧ ∀ r ∈ released, Proper r :=
  the_echo_cache_keeps_in_step _ (le_refl 2) 10 _

end nettle.nt_echo_listener
