-- The laws of the hash table, for a comparison that is an equivalence and a
-- hash function that agrees with it: what its operations do to its bindings.
import Nettle.HashmapTidy

open in_place slots

namespace nettle.hashmap

variable {κ β : Type}

/-! ## The invariant -/

/-- `equal_func` is an equivalence, and the hash agrees with it. -/
structure Lawful (hash_func : κ → Nat) (equal_func : κ → κ → Bool) : Prop where
  refl : ∀ k, equal_func k k
  symm : ∀ {k k'}, equal_func k k' → equal_func k' k
  trans : ∀ {k k' k''}, equal_func k k' → equal_func k' k'' → equal_func k k''
  hash : ∀ {k k'}, equal_func k k' → hash_func k = hash_func k'

/-- No binding has a key equal to this one. -/
def Absent (equal_func : κ → κ → Bool) (key : κ) (bs : List (κ × β)) : Prop :=
  ∀ b ∈ bs, ¬equal_func key b.1

structure Sound (map : hashmap_t κ β) : Prop where
  lawful : Lawful map.hash_func map.equal_func
  fits : map.factor.times map.capacity ≤ map.capacity
  bucket_num : map.bucket_num = (map.factor.times map.capacity).floor.toNat
  buckets : map.buckets.length = map.bucket_num
  entries : map.entries.length = map.capacity
  chain_nodup : ∀ b, (map.buckets.getD b []).Nodup
  mem_chain : ∀ b < map.bucket_num, ∀ i, i ∈ map.buckets.getD b [] ↔
    ∃ k v, map.entries.getD i none = some (k, v) ∧ map.hash_func k % map.bucket_num = b
  apart : ∀ {i j k v k' v'}, map.entries.getD i none = some (k, v) →
    map.entries.getD j none = some (k', v') → map.equal_func k k' → i = j
  size : map.size = (bindings map).length
  room : map.size ≤ map.bucket_num
  pos : 0 < map.bucket_num

theorem lawful_naive : Lawful naive_hash_func naive_equal_func where
  refl k := by simp [naive_equal_func]
  symm h := by
    rw [naive_equal_func, beq_iff_eq] at h ⊢
    exact h.symm
  trans h h' := by
    rw [naive_equal_func, beq_iff_eq] at h h' ⊢
    exact h.trans h'
  hash h := by
    rw [naive_equal_func, beq_iff_eq] at h
    exact congrArg naive_hash_func h

theorem Sound.tidy {map : hashmap_t κ β} (h : Sound map) : Tidy map :=
  ⟨h.fits, h.bucket_num, h.buckets, h.entries, h.chain_nodup, h.mem_chain, h.size, h.room, h.pos⟩

theorem Tidy.sound {map : hashmap_t κ β} (h : Tidy map)
    (hlawful : Lawful map.hash_func map.equal_func)
    (hapart : ∀ {i j k v k' v'}, map.entries.getD i none = some (k, v) →
      map.entries.getD j none = some (k', v') → map.equal_func k k' → i = j) : Sound map :=
  ⟨hlawful, h.fits, h.bucket_num, h.buckets, h.entries, h.chain_nodup, h.mem_chain, hapart, h.size,
    h.room, h.pos⟩

/-- Other functions will do, if they say the same of the keys in the table. -/
theorem Sound.functions {map : hashmap_t κ β} (h : Sound map) {hash_func : κ → Nat}
    {equal_func : κ → κ → Bool} (hlawful : Lawful hash_func equal_func)
    (hhash : ∀ b ∈ bindings map, hash_func b.1 = map.hash_func b.1)
    (hequal : ∀ b ∈ bindings map, ∀ b' ∈ bindings map,
      equal_func b.1 b'.1 → map.equal_func b.1 b'.1) :
    Sound { map with hash_func, equal_func } := by
  refine ⟨hlawful, h.fits, h.bucket_num, h.buckets, h.entries, h.chain_nodup, fun b hb i => ?_,
    fun hi hj hsame => ?_, h.size, h.room, h.pos⟩
  · rw [h.mem_chain b hb i]
    refine exists_congr fun k => exists_congr fun v => and_congr_right fun hi => ?_
    change map.hash_func k % map.bucket_num = b ↔ hash_func k % map.bucket_num = b
    rw [hhash (k, v) (mem_bindings.mpr ⟨i, hi⟩)]
  · exact h.apart hi hj (hequal _ (mem_bindings.mpr ⟨_, hi⟩) _ (mem_bindings.mpr ⟨_, hj⟩) hsame)

/-! ## Finding -/

section

variable {map : hashmap_t κ β}

/-- The bucket of a key holds the one entry with an equal key, if there is one at all. -/
theorem find_cases (h : Sound map) (key : κ) : ∃ chain, hashmap_bucket map key = some chain ∧
    chain = map.buckets.getD (map.hash_func key % map.bucket_num) [] ∧
    ((∃ i k v, hashmap_find map key chain = some i ∧ map.entries.getD i none = some (k, v) ∧
        map.equal_func key k) ∨
      hashmap_find map key chain = none ∧ Absent map.equal_func key (bindings map)) := by
  refine ⟨_, if_neg h.pos.ne', rfl, ?_⟩
  have hmod := Nat.mod_lt (map.hash_func key) h.pos
  cases hfind : hashmap_find map key
      (map.buckets.getD (map.hash_func key % map.bucket_num) []) with
  | some i =>
    have hmem := List.mem_of_find?_eq_some hfind
    have hequal := List.find?_some hfind
    obtain ⟨k, v, hentry, -⟩ := (h.mem_chain _ hmod i).mp hmem
    rw [hentry] at hequal
    exact Or.inl ⟨i, k, v, rfl, hentry, hequal⟩
  | none =>
    refine Or.inr ⟨rfl, ?_⟩
    rintro ⟨k, v⟩ hb hequal
    obtain ⟨i, hentry⟩ := mem_bindings.mp hb
    have hmem := (h.mem_chain _ hmod i).mpr ⟨k, v, hentry, by rw [h.lawful.hash hequal]⟩
    have := List.find?_eq_none.mp hfind i hmem
    rw [hentry] at this
    exact this hequal

theorem hashmap_get_absent (h : Sound map) {key : κ}
    (habsent : Absent map.equal_func key (bindings map)) : hashmap_get map key = some none := by
  obtain ⟨chain, hbucket, -, ⟨i, k, v, -, hentry, hequal⟩ | ⟨hfind, -⟩⟩ := find_cases h key
  · exact absurd hequal (habsent (k, v) (mem_bindings.mpr ⟨i, hentry⟩))
  · simp only [hashmap_get, hbucket, hfind, Option.bind_eq_bind, Option.bind_some]
    rfl

/-- Two bindings with keys equal to one key are the same. -/
theorem entry_unique (h : Sound map) {key : κ} {i j : Nat} {b b' : κ × β}
    (hi : map.entries.getD i none = some b) (hj : map.entries.getD j none = some b')
    (hb : map.equal_func key b.1) (hb' : map.equal_func key b'.1) : i = j ∧ b = b' := by
  obtain rfl := h.apart hi hj (h.lawful.trans (h.lawful.symm hb) hb')
  rw [hi] at hj
  exact ⟨rfl, Option.some.inj hj⟩

theorem hashmap_get_present (h : Sound map) {key : κ} {b : κ × β} (hb : b ∈ bindings map)
    (hequal : map.equal_func key b.1) : hashmap_get map key = some (some b) := by
  obtain ⟨j, hj⟩ := mem_bindings.mp hb
  obtain ⟨chain, hbucket, -, ⟨i, k, v, hfind, hentry, hequal'⟩ | ⟨-, habsent⟩⟩ := find_cases h key
  · obtain ⟨-, rfl⟩ := entry_unique h hj hentry hequal hequal'
    simp only [hashmap_get, hbucket, hfind, Option.bind_eq_bind, Option.bind_some, hentry]
    rfl
  · exact absurd hequal (habsent b hb)

/-! ## Adding a binding -/

/-- What adding a binding leaves of a table. -/
structure Added (map map' : hashmap_t κ β) (key : κ) (value : β) : Prop where
  sound : Sound map'
  bindings : (bindings map').Perm ((key, value) :: bindings map)
  hash_func : map'.hash_func = map.hash_func
  equal_func : map'.equal_func = map.equal_func

theorem hashmap_link_spec (h : Sound map) (hroom : map.size < map.bucket_num) {key : κ}
    (habsent : Absent map.equal_func key (bindings map)) (value : β) :
    ∃ map', hashmap_link map key value = some map' ∧ Added map map' key value ∧
      map'.size = map.size + 1 ∧ map'.bucket_num = map.bucket_num := by
  obtain ⟨i, hlink, hi, hfree⟩ := hashmap_link_eq h.tidy hroom key value
  have hnew : (map.entries.set i (some (key, value))).getD i none = some (key, value) :=
    getD_set_self hi
  have hentry : ∀ j, j ≠ i →
      (map.entries.set i (some (key, value))).getD j none = map.entries.getD j none :=
    fun j hj => getD_set_ne (Ne.symm hj)
  refine ⟨linked map key value i, hlink, ⟨(tidy_linked h.tidy hroom key value hi hfree).sound
    h.lawful ?_, contents_set_some hi hfree, rfl, rfl⟩, rfl, rfl⟩
  intro j j' k v k' v' hk hk' hequal
  by_cases hj : j = i <;> by_cases hj' : j' = i
  · rw [hj, hj']
  · rw [hj, linked, hnew, Option.some.injEq, Prod.mk.injEq] at hk
    rw [linked, hentry j' hj'] at hk'
    obtain ⟨rfl, -⟩ := hk
    exact absurd hequal (habsent (k', v') (mem_bindings.mpr ⟨j', hk'⟩))
  · rw [hj', linked, hnew, Option.some.injEq, Prod.mk.injEq] at hk'
    rw [linked, hentry j hj] at hk
    obtain ⟨rfl, -⟩ := hk'
    exact absurd (h.lawful.symm hequal) (habsent (k, v) (mem_bindings.mpr ⟨j, hk⟩))
  · rw [linked, hentry j hj] at hk
    rw [linked, hentry j' hj'] at hk'
    exact h.apart hk hk' hequal

/-- A table with room takes a new key without growing, whatever the fuel. -/
theorem hashmap_put_room (h : Sound map) (hroom : map.size < map.bucket_num) {key : κ}
    (habsent : Absent map.equal_func key (bindings map)) (value : β) (fuel : Nat) :
    ∃ map', hashmap_put (fuel + 1) map key value = some (none, map') ∧
      Added map map' key value ∧ map'.size = map.size + 1 ∧ map'.bucket_num = map.bucket_num := by
  obtain ⟨map', hlink, hadded, hsize, hbuckets⟩ := hashmap_link_spec h hroom habsent value
  have hensure : hashmap_ensure (hashmap_put fuel) fuel map = some map := by
    cases fuel <;> exact if_neg (Nat.not_le.mpr hroom)
  obtain ⟨chain, hbucket, -, ⟨i, k, v, -, hentry, hequal⟩ | ⟨hfind, -⟩⟩ := find_cases h key
  · exact absurd hequal (habsent (k, v) (mem_bindings.mpr ⟨i, hentry⟩))
  · refine ⟨map', ?_, hadded, hsize, hbuckets⟩
    unfold hashmap_put hashmap_put_new
    simp only [hbucket, hfind, hensure, hlink, Option.bind_eq_bind, Option.bind_some]
    rfl

theorem sound_empty (map : hashmap_t κ β) {capacity : Nat}
    (hlawful : Lawful map.hash_func map.equal_func) (hfits : map.factor.times capacity ≤ capacity)
    (hpos : 0 < (map.factor.times capacity).floor.toNat) :
    Sound (hashmap_reset (hashmap_alloc map capacity)) ∧
      bindings (hashmap_reset (hashmap_alloc map capacity)) = [] := by
  obtain ⟨htidy, hempty⟩ := tidy_empty map hfits hpos
  refine ⟨htidy.sound hlawful fun {i _ k v _ _} hi => ?_, hempty⟩
  have hmem := mem_bindings.mpr ⟨i, hi⟩
  rw [hempty] at hmem
  cases hmem

theorem hashmap_init_spec {hash_func : κ → Nat} {equal_func : κ → κ → Bool}
    (hlawful : Lawful hash_func equal_func) {capacity : Nat} {factor : factor_t}
    (hfactor : 0 < factor.value ∧ factor.value ≤ 1) (hfits : factor.times capacity ≤ capacity)
    (hpos : 0 < (factor.times capacity).floor.toNat) :
    ∃ map : hashmap_t κ β, hashmap_init capacity factor hash_func equal_func = some map ∧
      Sound map ∧ bindings map = [] ∧ map.hash_func = hash_func ∧ map.equal_func = equal_func := by
  obtain ⟨hsound, hempty⟩ := sound_empty (β := β)
    ⟨0, factor, hash_func, equal_func, 0, 0, [], []⟩ hlawful hfits hpos
  exact ⟨_, if_pos hfactor, hsound, hempty, rfl, rfl⟩

/-- Putting keys that are apart, one after the other, into a table with room for all. -/
theorem put_all (h : Sound map) (entries : List (Option (κ × β)))
    (hapart : ∀ b ∈ contents entries, Absent map.equal_func b.1 (bindings map))
    (hpairwise : (contents entries).Pairwise fun b b' => ¬map.equal_func b.1 b'.1)
    (hroom : map.size + (contents entries).length ≤ map.bucket_num) (fuel : Nat) :
    ∃ map', entries.foldlM (fun map' entry => match entry with
        | some (key, value) => (hashmap_put (fuel + 1) map' key value).map Prod.snd
        | none => some map') map = some map' ∧
      Sound map' ∧ (bindings map').Perm (contents entries ++ bindings map) ∧
      map'.hash_func = map.hash_func ∧ map'.equal_func = map.equal_func ∧
      map'.bucket_num = map.bucket_num := by
  induction entries generalizing map with
  | nil => exact ⟨map, rfl, h, List.Perm.refl _, rfl, rfl, rfl⟩
  | cons entry entries ih =>
    rcases entry with _ | ⟨key, value⟩
    · exact ih h hapart hpairwise hroom
    · have hcontents : contents (some (key, value) :: entries) = (key, value) :: contents entries :=
        rfl
      rw [hcontents] at hapart hpairwise hroom ⊢
      rw [List.length_cons] at hroom
      obtain ⟨hhead, htail⟩ := List.pairwise_cons.mp hpairwise
      obtain ⟨map₁, hput, hadded, hsize, hbuckets⟩ := hashmap_put_room h (by omega)
        (hapart _ List.mem_cons_self) value fuel
      obtain ⟨map', hrun, hsound, hperm, hhash, hequal, hbuckets'⟩ := ih hadded.sound
        (fun b hb c hc => by
          rw [hadded.equal_func]
          rcases List.mem_cons.mp (hadded.bindings.mem_iff.mp hc) with rfl | hc
          · exact fun heq => hhead b hb (h.lawful.symm heq)
          · exact hapart b (List.mem_cons_of_mem _ hb) c hc)
        (by rwa [hadded.equal_func]) (by omega)
      refine ⟨map', ?_, hsound, ?_, hhash.trans hadded.hash_func, hequal.trans hadded.equal_func,
        hbuckets'.trans hbuckets⟩
      · rw [List.foldlM_cons]
        simp only [hput, Option.map_some, Option.bind_eq_bind, Option.bind_some]
        exact hrun
      · refine (hperm.trans (hadded.bindings.append_left _)).trans ?_
        exact List.perm_middle

theorem pairwise_bindings (h : Sound map) :
    (bindings map).Pairwise fun b b' => ¬map.equal_func b.1 b'.1 :=
  contents_pairwise fun _ _ _ _ hlt hi hj hequal => hlt.ne (h.apart hi hj hequal)

theorem hashmap_grow_spec (h : Sound map) (fuel : Nat) :
    ∃ map', hashmap_grow (hashmap_put (fuel + 1)) map = some map' ∧ Sound map' ∧
      (bindings map').Perm (bindings map) ∧ map'.hash_func = map.hash_func ∧
      map'.equal_func = map.equal_func ∧ map.size < map'.bucket_num := by
  have hdouble := bucket_num_double map.factor map.capacity
  rw [← h.bucket_num] at hdouble
  have hpos := h.pos
  have hroom := h.room
  obtain ⟨hsound, hempty⟩ := sound_empty map h.lawful (fits_double h.fits) (by omega)
  have hsize : (hashmap_reset (hashmap_alloc map (2 * map.capacity))).size = 0 := rfl
  have hbuckets : (hashmap_reset (hashmap_alloc map (2 * map.capacity))).bucket_num =
    (map.factor.times (2 * map.capacity)).floor.toNat := rfl
  obtain ⟨map', hrun, hsound', hperm, hhash, hequal, hbuckets'⟩ := put_all hsound map.entries
    (by rw [hempty]; exact fun b _ => nofun) (pairwise_bindings h)
    (by rw [hsize, hbuckets, ← bindings, ← h.size]; omega) fuel
  rw [hempty, List.append_nil] at hperm
  exact ⟨map', hrun, hsound', hperm, hhash, hequal, by omega⟩

/-- Whatever the table holds, one growth makes room. -/
theorem hashmap_put_new_spec (h : Sound map) {key : κ}
    (habsent : Absent map.equal_func key (bindings map)) (value : β) (fuel : Nat) :
    ∃ map', hashmap_put_new (hashmap_put (fuel + 1)) (fuel + 1) map key value = some map' ∧
      Added map map' key value := by
  have hensure : ∃ map₁, hashmap_ensure (hashmap_put (fuel + 1)) (fuel + 1) map = some map₁ ∧
      Sound map₁ ∧ (bindings map₁).Perm (bindings map) ∧ map₁.hash_func = map.hash_func ∧
      map₁.equal_func = map.equal_func ∧ map₁.size < map₁.bucket_num := by
    by_cases hroom : map.size < map.bucket_num
    · exact ⟨map, if_neg (Nat.not_le.mpr hroom), h, List.Perm.refl _, rfl, rfl, hroom⟩
    · obtain ⟨map₁, hgrow, hsound, hperm, hhash, hequal, hroom₁⟩ := hashmap_grow_spec h fuel
      have hsize : map₁.size = map.size := by rw [hsound.size, hperm.length_eq, h.size]
      refine ⟨map₁, ?_, hsound, hperm, hhash, hequal, by rwa [hsize]⟩
      unfold hashmap_ensure
      rw [if_pos (Nat.not_lt.mp hroom), hgrow]
      cases fuel <;> exact if_neg (Nat.not_le.mpr (by rwa [hsize]))
  obtain ⟨map₁, hensure, hsound, hperm, hhash, hequal, hroom⟩ := hensure
  obtain ⟨map', hlink, hadded, -⟩ := hashmap_link_spec hsound hroom
    (by rw [hequal]; exact fun b hb => habsent b (hperm.mem_iff.mp hb)) value
  refine ⟨map', ?_, hadded.sound, hadded.bindings.trans (hperm.cons _),
    hadded.hash_func.trans hhash, hadded.equal_func.trans hequal⟩
  unfold hashmap_put_new
  simp only [hensure, Option.bind_eq_bind, Option.bind_some]
  exact hlink

theorem hashmap_put_if_absent_spec (h : Sound map) {key : κ}
    (habsent : Absent map.equal_func key (bindings map)) (value : β) (fuel : Nat) :
    ∃ map', hashmap_put_if_absent (fuel + 1) map key value = some (true, map') ∧
      Added map map' key value := by
  obtain ⟨chain, hbucket, -, ⟨i, k, v, -, hentry, hequal⟩ | ⟨hfind, -⟩⟩ := find_cases h key
  · exact absurd hequal (habsent (k, v) (mem_bindings.mpr ⟨i, hentry⟩))
  obtain ⟨map', hnew, hadded⟩ := hashmap_put_new_spec h habsent value fuel
  refine ⟨map', ?_, hadded⟩
  unfold hashmap_put_if_absent
  simp only [hbucket, hfind, hnew, Option.bind_eq_bind, Option.bind_some]
  rfl

theorem hashmap_put_absent (h : Sound map) {key : κ}
    (habsent : Absent map.equal_func key (bindings map)) (value : β) (fuel : Nat) :
    ∃ map', hashmap_put (fuel + 2) map key value = some (none, map') ∧
      Added map map' key value := by
  obtain ⟨chain, hbucket, -, ⟨i, k, v, -, hentry, hequal⟩ | ⟨hfind, -⟩⟩ := find_cases h key
  · exact absurd hequal (habsent (k, v) (mem_bindings.mpr ⟨i, hentry⟩))
  obtain ⟨map', hnew, hadded⟩ := hashmap_put_new_spec h habsent value fuel
  refine ⟨map', ?_, hadded⟩
  unfold hashmap_put
  simp only [hbucket, hfind, hnew, Option.bind_eq_bind, Option.bind_some]
  rfl

/-! ## A binding that is there already -/

theorem hashmap_put_if_absent_present (h : Sound map) {key : κ} {b : κ × β}
    (hb : b ∈ bindings map) (hequal : map.equal_func key b.1) (value : β) (fuel : Nat) :
    hashmap_put_if_absent fuel map key value = some (false, map) := by
  obtain ⟨chain, hbucket, -, ⟨i, k, v, hfind, -, -⟩ | ⟨-, habsent⟩⟩ := find_cases h key
  case inr => exact absurd hequal (habsent b hb)
  unfold hashmap_put_if_absent
  simp only [hbucket, hfind, Option.bind_eq_bind, Option.bind_some]
  rfl

/-- The key stays the one of the table, the value is the new one. -/
theorem hashmap_put_present (h : Sound map) {key : κ} {b : κ × β} (hb : b ∈ bindings map)
    (hequal : map.equal_func key b.1) (value : β) (fuel : Nat) :
    ∃ map' rest, hashmap_put (fuel + 1) map key value = some (some b.2, map') ∧ Sound map' ∧
      (bindings map).Perm (b :: rest) ∧ (bindings map').Perm ((b.1, value) :: rest) ∧
      map'.hash_func = map.hash_func ∧ map'.equal_func = map.equal_func := by
  obtain ⟨i, hi⟩ := mem_bindings.mp hb
  obtain ⟨chain, hbucket, -, ⟨j, k, v, hfind, hentry, hequal'⟩ | ⟨-, habsent⟩⟩ := find_cases h key
  case inr => exact absurd hequal (habsent b hb)
  obtain ⟨rfl, rfl⟩ := entry_unique h hi hentry hequal hequal'
  obtain ⟨rest, hold, hnew⟩ := bindings_revalued hi value
  have hkeys : ∀ {j k' v'}, (revalued map i k value).entries.getD j none = some (k', v') →
      ∃ v'', map.entries.getD j none = some (k', v'') := fun {j k' v'} hj => by
    by_cases hji : j = i
    · rw [hji, revalued, getD_set_self (lt_of_getD hi), Option.some.injEq, Prod.mk.injEq] at hj
      obtain ⟨rfl, -⟩ := hj
      exact ⟨v, hji ▸ hi⟩
    · rw [revalued, getD_set_ne (Ne.symm hji)] at hj
      exact ⟨v', hj⟩
  refine ⟨revalued map i k value, rest, ?_, (tidy_revalued h.tidy hi value).sound h.lawful
    fun hk hk' hsame => ?_, hold, hnew, rfl, rfl⟩
  · unfold hashmap_put
    simp only [hbucket, hfind, hi, Option.bind_eq_bind, Option.bind_some]
    rfl
  · obtain ⟨_, hk⟩ := hkeys hk
    obtain ⟨_, hk'⟩ := hkeys hk'
    exact h.apart hk hk' hsame

/-! ## Removing a binding -/

theorem hashmap_remove_absent (h : Sound map) {key : κ}
    (habsent : Absent map.equal_func key (bindings map)) :
    hashmap_remove map key = some (none, map) := by
  obtain ⟨chain, hbucket, -, ⟨i, k, v, -, hentry, hequal⟩ | ⟨hfind, -⟩⟩ := find_cases h key
  · exact absurd hequal (habsent (k, v) (mem_bindings.mpr ⟨i, hentry⟩))
  · simp only [hashmap_remove, hbucket, hfind, Option.bind_eq_bind, Option.bind_some]
    rfl

theorem hashmap_remove_present (h : Sound map) {key : κ} {b : κ × β} (hb : b ∈ bindings map)
    (hequal : map.equal_func key b.1) :
    ∃ map', hashmap_remove map key = some (some b, map') ∧ Sound map' ∧
      (bindings map).Perm (b :: bindings map') ∧ map'.hash_func = map.hash_func ∧
      map'.equal_func = map.equal_func := by
  obtain ⟨i, hi⟩ := mem_bindings.mp hb
  obtain ⟨chain, hbucket, rfl, ⟨j, k, v, hfind, hentry, hequal'⟩ | ⟨-, habsent⟩⟩ :=
    find_cases h key
  case inr => exact absurd hequal (habsent b hb)
  obtain ⟨rfl, rfl⟩ := entry_unique h hi hentry hequal hequal'
  have hbucket' : map.hash_func k % map.bucket_num = map.hash_func key % map.bucket_num := by
    rw [h.lawful.hash hequal]
  have hfree : (map.entries.set i none).getD i none = none := getD_set_self (lt_of_getD hi)
  have hused : ∀ {j b}, (map.entries.set i none).getD j none = some b →
      map.entries.getD j none = some b := fun {j b} hj => by
    by_cases hji : j = i
    · rw [hji, hfree] at hj
      cases hj
    · rwa [getD_set_ne (Ne.symm hji)] at hj
  have htidy := tidy_unlinked h.tidy hi
  rw [hbucket'] at htidy
  refine ⟨unlinked map (map.hash_func key % map.bucket_num) i, ?_,
    htidy.sound h.lawful fun hk hk' => h.apart (hused hk) (hused hk'), contents_set_none hi, rfl, rfl⟩
  unfold hashmap_remove
  simp only [hbucket, hfind, hi, Option.bind_eq_bind, Option.bind_some]
  rfl

end

end nettle.hashmap
