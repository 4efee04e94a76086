-- The laws of the LRU map: it is a list of bindings, the newest first, with
-- keys that are apart.
import Nettle.HashmapLaws
import Nettle.Lrumap

open in_place slots nettle.hashmap

namespace nettle.lrumap

variable {κ β : Type}

/-! ## The invariant -/

/-- The used entries with their bindings, the newest first: the queue lists them, the table
leads from each key to its entry, and the pool has the other entries. -/
structure Holds (map : lrumap_t κ β) (used : List (Nat × κ × β)) : Prop where
  table : Sound map.map
  index : (bindings map.map).Perm (used.map fun u => (u.2.1, u.1))
  queue : map.queue = used.map Prod.fst
  split : (map.pool ++ map.queue).Perm (List.range map.capacity)
  entries : map.entries.length = map.capacity
  bound : ∀ u ∈ used, map.entries.getD u.1 none = some u.2

/-- The bindings of the map, the newest first. -/
def Recent (map : lrumap_t κ β) (bs : List (κ × β)) : Prop :=
  ∃ used, Holds map used ∧ used.map Prod.snd = bs

section

variable {map : lrumap_t κ β} {used : List (Nat × κ × β)}

theorem Holds.nodup (h : Holds map used) : (map.pool ++ map.queue).Nodup :=
  h.split.nodup_iff.mpr List.nodup_range

theorem Holds.size (h : Holds map used) : map.map.size = used.length := by
  rw [h.table.size, h.index.length_eq, List.length_map]

theorem Holds.length (h : Holds map used) : map.pool.length + used.length = map.capacity := by
  have := h.split.length_eq
  rwa [List.length_append, List.length_range, h.queue, List.length_map] at this

theorem Holds.lrumap_size (h : Holds map used) : lrumap_size map = some used.length := by
  have := h.length
  rw [nettle.lrumap.lrumap_size, h.size, if_pos (by omega)]

/-- The table has a key exactly if a binding has it. -/
theorem Holds.absent_iff (h : Holds map used) (key : κ) :
    Absent map.map.equal_func key (bindings map.map) ↔
      Absent map.map.equal_func key (used.map Prod.snd) := by
  constructor
  · rintro hall b hb
    obtain ⟨u, hu, rfl⟩ := List.mem_map.mp hb
    exact hall (u.2.1, u.1) (h.index.mem_iff.mpr (List.mem_map_of_mem hu))
  · rintro hall b hb
    obtain ⟨u, hu, rfl⟩ := List.mem_map.mp (h.index.mem_iff.mp hb)
    exact hall u.2 (List.mem_map_of_mem hu)

end

/-! ## The operations -/

theorem lrumap_init1_spec {hash_func : κ → Nat} {equal_func : κ → κ → Bool}
    (hlawful : Lawful hash_func equal_func) {capacity : Nat} (hcap : 2 ≤ capacity) :
    ∃ map : lrumap_t κ β, lrumap_init1 capacity hash_func equal_func = some map ∧
      Recent map [] ∧ map.capacity = capacity ∧ map.map.hash_func = hash_func ∧
      map.map.equal_func = equal_func := by
  have hpos : 0 < ((double_factor (3 / 4)).times capacity).floor.toNat := by
    have := three_quarters.mpr hcap
    omega
  obtain ⟨table, hinit, hsound, hempty, hhash, hequal⟩ := hashmap_init_spec (β := Nat) hlawful
    (by change 0 < (3 / 4 : ℚ) ∧ (3 / 4 : ℚ) ≤ 1; norm_num) (three_quarters_fit capacity) hpos
  refine ⟨{
    map := table
    pool := (List.range capacity).foldl (fun pool i => i :: pool) []
    queue := []
    capacity
    entries := List.replicate capacity none }, ?_,
    ⟨[], ⟨hsound, ?_, rfl, ?_, List.length_replicate, nofun⟩, rfl⟩, rfl, hhash, hequal⟩
  · unfold lrumap_init1 lrumap_init
    rw [hinit]
    rfl
  · rw [hempty]
    exact List.Perm.refl _
  · simp only [List.foldl_flip_cons_eq_append', List.append_nil]
    exact List.reverse_perm _

section

variable {map : lrumap_t κ β} {bs : List (κ × β)}

/-- Other functions will do, if they say the same of the keys in the map. -/
theorem Recent.functions (h : Recent map bs) {hash_func : κ → Nat} {equal_func : κ → κ → Bool}
    (hlawful : Lawful hash_func equal_func)
    (hhash : ∀ b ∈ bs, hash_func b.1 = map.map.hash_func b.1)
    (hequal : ∀ b ∈ bs, ∀ b' ∈ bs, equal_func b.1 b'.1 = map.map.equal_func b.1 b'.1) :
    Recent { map with map := { map.map with hash_func, equal_func } } bs := by
  obtain ⟨used, hold, rfl⟩ := h
  have hkey : ∀ b ∈ bindings map.map, ∃ c ∈ used.map Prod.snd, c.1 = b.1 := by
    intro b hb
    obtain ⟨u, hu, rfl⟩ := List.mem_map.mp (hold.index.mem_iff.mp hb)
    exact ⟨u.2, List.mem_map_of_mem hu, rfl⟩
  refine ⟨used, ⟨hold.table.functions hlawful (fun b hb => ?_) fun b hb b' hb' hsame => ?_,
    hold.index, hold.queue, hold.split, hold.entries, hold.bound⟩, rfl⟩
  · obtain ⟨c, hc, heq⟩ := hkey b hb
    rw [← heq]
    exact hhash c hc
  · obtain ⟨c, hc, heq⟩ := hkey b hb
    obtain ⟨c', hc', heq'⟩ := hkey b' hb'
    rw [← heq, ← heq'] at hsame ⊢
    rw [← hequal c hc c' hc']
    exact hsame

theorem Recent.length_le (h : Recent map bs) : bs.length ≤ map.capacity := by
  obtain ⟨used, hold, rfl⟩ := h
  have := hold.length
  rw [List.length_map]
  omega

theorem Recent.lrumap_size (h : Recent map bs) : lrumap_size map = some bs.length := by
  obtain ⟨used, hold, rfl⟩ := h
  rw [hold.lrumap_size, List.length_map]

/-- The keys are apart. -/
theorem Recent.pairwise (h : Recent map bs) :
    bs.Pairwise fun b b' => ¬map.map.equal_func b.1 b'.1 := by
  obtain ⟨used, hold, rfl⟩ := h
  have hpairwise := (hold.index.pairwise_iff fun {b b'} hne hequal =>
    hne (hold.table.lawful.symm hequal)).mp (pairwise_bindings hold.table)
  rw [List.pairwise_map] at hpairwise ⊢
  exact hpairwise

theorem lrumap_put_full (h : Recent map bs) (hfull : bs.length = map.capacity) (key : κ)
    (value : β) : lrumap_put map key value = some (false, map) := by
  unfold lrumap_put
  simp only [h.lrumap_size, Option.bind_eq_bind, Option.bind_some, hfull, if_true]
  rfl

/-- A new key becomes the newest. -/
theorem lrumap_put_spec (h : Recent map bs) (key : κ) (hroom : bs.length < map.capacity)
    (habsent : Absent map.map.equal_func key bs) (value : β) :
    ∃ map', lrumap_put map key value = some (true, map') ∧ Recent map' ((key, value) :: bs) ∧
      map'.capacity = map.capacity ∧ map'.map.hash_func = map.map.hash_func ∧
      map'.map.equal_func = map.map.equal_func := by
  have hsize := h.lrumap_size
  obtain ⟨used, hold, rfl⟩ := h
  have hlen := hold.length
  rw [List.length_map] at hroom
  obtain ⟨pool, entry, hpool⟩ : ∃ pool entry, map.pool = pool ++ [entry] := by
    rcases List.eq_nil_or_concat map.pool with hnil | hconcat
    · rw [hnil, List.length_nil] at hlen
      omega
    · simpa only [List.concat_eq_append] using hconcat
  obtain ⟨table, hput, hadded⟩ := hashmap_put_if_absent_spec hold.table
    ((hold.absent_iff key).mpr habsent) entry 0
  have hnodup := hold.nodup
  have hsplit := hold.split
  rw [hpool] at hnodup hsplit
  have hentry : entry < map.entries.length := by
    rw [hold.entries, ← List.mem_range, ← hsplit.mem_iff]
    simp
  refine ⟨{ map with
    map := table
    pool
    queue := entry :: map.queue
    entries := map.entries.set entry (some (key, value)) }, ?_,
    ⟨(entry, key, value) :: used, ⟨hadded.sound, ?_, ?_, ?_, ?_, fun u hu => ?_⟩, rfl⟩, rfl,
    hadded.hash_func, hadded.equal_func⟩
  · unfold lrumap_put
    simp only [hsize, List.length_map, Option.bind_eq_bind, Option.bind_some, hroom.ne, if_false,
      hpool, List.getLast?_concat, hput, if_true, List.dropLast_concat]
    rfl
  · exact hadded.bindings.trans (hold.index.cons _)
  · rw [List.map_cons, hold.queue]
  · rwa [List.append_assoc] at hsplit
  · rw [List.length_set, hold.entries]
  · rcases List.mem_cons.mp hu with rfl | hu
    · exact getD_set_self hentry
    · have hmem : u.1 ∈ map.queue := by
        rw [hold.queue]
        exact List.mem_map_of_mem hu
      have hne : entry ≠ u.1 := fun heq =>
        (List.nodup_append.mp hnodup).2.2 entry (by simp) u.1 hmem heq
      rw [getD_set_ne hne, hold.bound u hu]

/-- The eldest binding. -/
theorem lrumap_peek_spec (h : Recent map bs) : lrumap_peek map = some bs.getLast? := by
  have hsize := h.lrumap_size
  obtain ⟨used, hold, rfl⟩ := h
  unfold lrumap_peek
  rcases List.eq_nil_or_concat used with rfl | ⟨newer, u, rfl⟩
  · simp only [hsize, Option.bind_eq_bind, Option.bind_some, List.map_nil, List.length_nil, if_true]
    rfl
  · have hlast : map.queue.getLast? = some u.1 := by rw [hold.queue]; simp
    simp only [hsize, Option.bind_eq_bind, Option.bind_some, hlast, hold.bound u (by simp)]
    simp

theorem lrumap_get_absent (h : Recent map bs) {key : κ}
    (habsent : Absent map.map.equal_func key bs) : lrumap_get map key = some (none, map) := by
  obtain ⟨used, hold, rfl⟩ := h
  unfold lrumap_get
  rw [hashmap_get_absent hold.table ((hold.absent_iff key).mpr habsent)]
  rfl

theorem Recent.split_at {b : κ × β} {newer older : List (κ × β)}
    (h : Recent map (newer ++ b :: older)) : ∃ u newer' older',
    Holds map (newer' ++ u :: older') ∧ u.2 = b ∧ newer'.map Prod.snd = newer ∧
      older'.map Prod.snd = older := by
  obtain ⟨used, hold, heq⟩ := h
  obtain ⟨newer', rest, rfl, hnewer, hrest⟩ := List.map_eq_append_iff.mp heq
  obtain ⟨u, older', rfl, hu, holder⟩ := List.map_eq_cons_iff.mp hrest
  exact ⟨u, newer', older', hold, hu, hnewer, holder⟩

theorem Holds.erase {u : Nat × κ × β} {newer older : List (Nat × κ × β)}
    (h : Holds map (newer ++ u :: older)) :
    u.1 ∈ map.queue ∧ map.queue.erase u.1 = (newer ++ older).map Prod.fst := by
  have hnodup := (List.nodup_append.mp h.nodup).2.1
  rw [h.queue, List.map_append, List.map_cons] at hnodup ⊢
  have hnot : u.1 ∉ newer.map Prod.fst := fun hmem =>
    (List.nodup_append.mp hnodup).2.2 u.1 hmem u.1 List.mem_cons_self rfl
  exact ⟨by simp, by rw [List.erase_append_right _ hnot, List.erase_cons_head, List.map_append]⟩

/-- A key that is found becomes the newest. -/
theorem lrumap_get_present {b : κ × β} {newer older : List (κ × β)}
    (h : Recent map (newer ++ b :: older)) {key : κ} (hequal : map.map.equal_func key b.1) :
    ∃ map', lrumap_get map key = some (some b, map') ∧ Recent map' (b :: (newer ++ older)) ∧
      map'.capacity = map.capacity ∧ map'.map.hash_func = map.map.hash_func ∧
      map'.map.equal_func = map.map.equal_func := by
  obtain ⟨u, newer, older, hold, rfl, rfl, rfl⟩ := h.split_at
  obtain ⟨hmem, herase⟩ := hold.erase
  have hget := hashmap_get_present hold.table (b := (u.2.1, u.1))
    (hold.index.mem_iff.mpr (List.mem_map_of_mem (by simp))) hequal
  have hbound := hold.bound u (by simp)
  refine ⟨{ map with queue := u.1 :: (newer ++ older).map Prod.fst }, ?_,
    ⟨u :: (newer ++ older), ⟨hold.table, ?_, rfl, ?_, hold.entries, fun u' hu' => ?_⟩, by simp⟩, rfl,
    rfl, rfl⟩
  · unfold lrumap_get list_remove
    simp only [hget, Option.bind_eq_bind, Option.bind_some, hmem, if_true, herase, hbound]
    rfl
  · exact hold.index.trans (List.perm_middle.map _)
  · refine List.Perm.trans (List.Perm.append_left map.pool ?_) hold.split
    rw [hold.queue]
    exact (List.perm_middle.map Prod.fst).symm
  · exact hold.bound u' (List.perm_middle.mem_iff.mpr hu')

/-- A key that is made the eldest goes behind the others. -/
theorem lrumap_make_eldest_absent (h : Recent map bs) {key : κ}
    (habsent : Absent map.map.equal_func key bs) : lrumap_make_eldest map key = some (false, map) := by
  obtain ⟨used, hold, rfl⟩ := h
  unfold lrumap_make_eldest
  rw [hashmap_get_absent hold.table ((hold.absent_iff key).mpr habsent)]
  rfl

theorem lrumap_make_eldest_present {b : κ × β} {newer older : List (κ × β)}
    (h : Recent map (newer ++ b :: older)) {key : κ} (hequal : map.map.equal_func key b.1) :
    ∃ map', lrumap_make_eldest map key = some (true, map') ∧ Recent map' (newer ++ older ++ [b]) ∧
      map'.capacity = map.capacity ∧ map'.map.hash_func = map.map.hash_func ∧
      map'.map.equal_func = map.map.equal_func := by
  obtain ⟨u, newer, older, hold, rfl, rfl, rfl⟩ := h.split_at
  obtain ⟨hmem, herase⟩ := hold.erase
  have hget := hashmap_get_present hold.table (b := (u.2.1, u.1))
    (hold.index.mem_iff.mpr (List.mem_map_of_mem (by simp))) hequal
  have hmiddle : (newer ++ u :: older).Perm (newer ++ older ++ [u]) :=
    List.perm_middle.trans (List.perm_append_singleton u _).symm
  refine ⟨{ map with queue := (newer ++ older).map Prod.fst ++ [u.1] }, ?_,
    ⟨newer ++ older ++ [u], ⟨hold.table, ?_, by simp, ?_, hold.entries, fun u' hu' => ?_⟩, by simp⟩, rfl,
    rfl, rfl⟩
  · unfold lrumap_make_eldest list_remove
    simp only [hget, Option.bind_eq_bind, Option.bind_some, hmem, if_true, herase]
    rfl
  · exact hold.index.trans (hmiddle.map _)
  · refine List.Perm.trans (List.Perm.append_left map.pool ?_) hold.split
    rw [hold.queue]
    have happend : (newer ++ older ++ [u]).map Prod.fst = (newer ++ older).map Prod.fst ++ [u.1] :=
      List.map_append
    rw [← happend]
    exact (hmiddle.map Prod.fst).symm
  · exact hold.bound u' (hmiddle.mem_iff.mpr hu')

theorem lrumap_remove_absent (h : Recent map bs) {key : κ}
    (habsent : Absent map.map.equal_func key bs) : lrumap_remove map key = some (false, map) := by
  obtain ⟨used, hold, rfl⟩ := h
  unfold lrumap_remove
  rw [hashmap_remove_absent hold.table ((hold.absent_iff key).mpr habsent)]
  rfl

theorem lrumap_remove_present {b : κ × β} {newer older : List (κ × β)}
    (h : Recent map (newer ++ b :: older)) {key : κ} (hequal : map.map.equal_func key b.1) :
    ∃ map', lrumap_remove map key = some (true, map') ∧ Recent map' (newer ++ older) ∧
      map'.capacity = map.capacity ∧ map'.map.hash_func = map.map.hash_func ∧
      map'.map.equal_func = map.map.equal_func := by
  obtain ⟨u, newer, older, hold, rfl, rfl, rfl⟩ := h.split_at
  obtain ⟨hmem, herase⟩ := hold.erase
  obtain ⟨table, hremove, hsound, hperm, hhash, hequal'⟩ := hashmap_remove_present hold.table
    (b := (u.2.1, u.1)) (hold.index.mem_iff.mpr (List.mem_map_of_mem (by simp))) hequal
  refine ⟨{ map with
    map := table
    pool := u.1 :: map.pool
    queue := (newer ++ older).map Prod.fst }, ?_,
    ⟨newer ++ older, ⟨hsound, ?_, rfl, ?_, hold.entries, fun u' hu' => ?_⟩, by simp⟩, rfl, hhash,
    hequal'⟩
  · unfold lrumap_remove list_remove
    simp only [hremove, Option.bind_eq_bind, Option.bind_some, hmem, if_true, herase]
    rfl
  · exact ((hperm.symm.trans hold.index).trans (List.perm_middle.map _)).cons_inv
  · refine List.Perm.trans ?_ hold.split
    rw [hold.queue]
    exact (List.perm_middle.symm.trans
      (List.Perm.append_left map.pool (List.perm_middle.map Prod.fst).symm))
  · exact hold.bound u' (List.mem_append.mpr ((List.mem_append.mp hu').imp_right
      (List.mem_cons_of_mem u)))

end

end nettle.lrumap
