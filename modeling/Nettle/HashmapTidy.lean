-- What keeps the hash table in order under any hash function and any
-- comparison: the chains hold just the used entries, each in its bucket, and
-- there are never more of them than buckets. So no operation divides by zero
-- or runs on for ever.
import Nettle.Slots
import Nettle.Hashmap

open in_place slots

namespace nettle.hashmap

variable {κ β : Type}

def bindings (map : hashmap_t κ β) : List (κ × β) := contents map.entries

structure Tidy (map : hashmap_t κ β) : Prop where
  fits : map.factor.times map.capacity ≤ map.capacity
  bucket_num : map.bucket_num = (map.factor.times map.capacity).floor.toNat
  buckets : map.buckets.length = map.bucket_num
  entries : map.entries.length = map.capacity
  chain_nodup : ∀ b, (map.buckets.getD b []).Nodup
  mem_chain : ∀ b < map.bucket_num, ∀ i, i ∈ map.buckets.getD b [] ↔
    ∃ k v, map.entries.getD i none = some (k, v) ∧ map.hash_func k % map.bucket_num = b
  size : map.size = (bindings map).length
  room : map.size ≤ map.bucket_num
  pos : 0 < map.bucket_num

/-- A product that fits makes no more buckets than entries. -/
theorem bucket_num_le {factor : factor_t} {capacity : Nat} (h : factor.times capacity ≤ capacity) :
    (factor.times capacity).floor.toNat ≤ capacity := by
  have hfloor : ((factor.times capacity).floor : ℚ) ≤ capacity := (Rat.floor_le _).trans h
  have : (factor.times capacity).floor ≤ (capacity : Int) := by exact_mod_cast hfloor
  omega

/-- Twice the entries make at least twice the buckets, and still fit. -/
theorem bucket_num_double (factor : factor_t) (capacity : Nat) :
    2 * (factor.times capacity).floor.toNat ≤ (factor.times (2 * capacity)).floor.toNat := by
  have hle : ((factor.times capacity).floor : ℚ) ≤ factor.times capacity := Rat.floor_le _
  have htwo : 2 * (factor.times capacity).floor ≤ (factor.times (2 * capacity)).floor := by
    rw [Rat.le_floor_iff, factor.times_two_mul]
    push_cast
    linarith
  omega

theorem fits_double {factor : factor_t} {capacity : Nat} (h : factor.times capacity ≤ capacity) :
    factor.times (2 * capacity) ≤ (2 * capacity : Nat) := by
  rw [factor.times_two_mul]
  push_cast
  linarith

/-- What is computed with a factor is no more than the capacity: always if it is exact, and with a
double for all capacities that a double holds. -/
theorem fits_of_factor {factor : factor_t} {value : ℚ} (hvalue : 0 < value ∧ value ≤ 1)
    {capacity : Nat}
    (h : factor = exact_factor value ∨ factor = double_factor value ∧ capacity ≤ 2 ^ 53) :
    0 < factor.value ∧ factor.value ≤ 1 ∧ factor.times capacity ≤ capacity := by
  rcases h with rfl | ⟨rfl, hcap⟩
  · exact ⟨hvalue.1, hvalue.2, mul_le_of_le_one_right (Nat.cast_nonneg capacity) hvalue.2⟩
  · exact ⟨hvalue.1, hvalue.2,
      rounding.product_le (by norm_num) hcap ⟨hvalue.1.le, hvalue.2⟩⟩

/-- With the factor of `lrumap_init1` two entries make a bucket, and one does not. -/
theorem three_quarters {capacity : Nat} :
    1 ≤ ((double_factor (3 / 4)).times capacity).floor ↔ 2 ≤ capacity := by
  rw [Rat.le_floor_iff]
  change ((1 : ℤ) : ℚ) ≤ rounding.product 53 capacity (3 / 4) ↔ _
  have hfour : rounding.round_to 53 (3 / 4) = 3 / 4 := by
    have hthree := rounding.round_to_natCast (by norm_num : 0 < 53) (by norm_num : 3 ≤ 2 ^ 53)
    rw [show ((3 : Nat) : ℚ) = 2 * (2 * (3 / 4)) by norm_num, rounding.round_to_two_mul,
      rounding.round_to_two_mul] at hthree
    linarith
  refine ⟨fun h => ?_, fun h => ?_⟩
  · by_contra hlt
    have hone : rounding.product 53 capacity (3 / 4) < 1 := by
      unfold rounding.product
      rcases Nat.le_one_iff_eq_zero_or_eq_one.mp (by omega : capacity ≤ 1) with rfl | rfl
      · rw [rounding.round_to_natCast (by norm_num) (by norm_num), Nat.cast_zero, zero_mul,
          rounding.round_to_zero]
        norm_num
      · rw [rounding.round_to_natCast (by norm_num) (by norm_num), Nat.cast_one, one_mul, hfour]
        norm_num
    push_cast at h
    linarith
  · have htwo : ((2 : Nat) : ℚ) ≤ rounding.round_to 53 capacity :=
      rounding.le_round_to (by norm_num) (by norm_num) (by exact_mod_cast (by omega : 0 < capacity))
        (by exact_mod_cast h)
    push_cast at htwo
    have hone : ((1 : Nat) : ℚ) ≤ rounding.product 53 capacity (3 / 4) :=
      rounding.le_round_to (by norm_num) (by norm_num) (by linarith) (by push_cast; linarith)
    exact_mod_cast hone

theorem three_quarters_fit (capacity : Nat) :
    (double_factor (3 / 4)).times capacity ≤ capacity := by
  change rounding.product 53 capacity (3 / 4) ≤ capacity
  rcases Nat.eq_zero_or_pos capacity with rfl | hpos
  · unfold rounding.product
    rw [rounding.round_to_natCast (by norm_num) (by norm_num), Nat.cast_zero, zero_mul,
      rounding.round_to_zero]
  · have hpos' : (0 : ℚ) < capacity := Nat.cast_pos.mpr hpos
    have hone : ((1 : Nat) : ℚ) ≤ rounding.round_to 53 capacity :=
      rounding.le_round_to (by norm_num) (by norm_num) hpos' (by exact_mod_cast hpos)
    push_cast at hone
    have hcapacity : rounding.round_to 53 capacity ≤ capacity + capacity / 2 ^ 53 :=
      rounding.round_to_le_add hpos'
    have hproduct : rounding.product 53 capacity (3 / 4) ≤
        rounding.round_to 53 capacity * (3 / 4) +
          rounding.round_to 53 capacity * (3 / 4) / 2 ^ 53 :=
      rounding.round_to_le_add (by linarith)
    linarith

section

variable {map : hashmap_t κ β}

theorem mem_bindings {b : κ × β} : b ∈ bindings map ↔ ∃ i, map.entries.getD i none = some b :=
  mem_contents

theorem Tidy.bucket_num_le (h : Tidy map) : map.bucket_num ≤ map.capacity := by
  rw [h.bucket_num]
  exact hashmap.bucket_num_le h.fits

/-- A key leads to its bucket, and whatever the search finds there is a used entry of it. -/
theorem find_used (h : Tidy map) (key : κ) : ∃ chain, hashmap_bucket map key = some chain ∧
    chain = map.buckets.getD (map.hash_func key % map.bucket_num) [] ∧
    ∀ i, hashmap_find map key chain = some i → ∃ k v, map.entries.getD i none = some (k, v) ∧
      map.equal_func key k ∧
      map.hash_func k % map.bucket_num = map.hash_func key % map.bucket_num := by
  refine ⟨_, if_neg h.pos.ne', rfl, fun i hfind => ?_⟩
  have hmem := List.mem_of_find?_eq_some hfind
  have hequal := List.find?_some hfind
  obtain ⟨k, v, hentry, hbucket⟩ := (h.mem_chain _ (Nat.mod_lt _ h.pos) i).mp hmem
  rw [hentry] at hequal
  exact ⟨k, v, hentry, hequal, hbucket⟩

/-! ## Adding an entry -/

/-- A probe that finds nothing has passed used entries only. -/
theorem used_of_probe_none {fuel i : Nat} (h : hashmap_probe map fuel i = none)
    (hi : i < map.capacity) (d : Nat) (hd : d < fuel) :
    map.entries.getD ((i + d) % map.capacity) none ≠ none := by
  induction fuel generalizing i d with
  | zero => exact absurd hd (Nat.not_lt_zero d)
  | succ fuel ih =>
    unfold hashmap_probe at h
    split at h
    · next hused =>
      rcases d with _ | d
      · rw [Nat.add_zero, Nat.mod_eq_of_lt hi]
        exact Option.isSome_iff_ne_none.mp hused
      · have hrest := ih h (Nat.mod_lt _ (Nat.zero_lt_of_lt hi)) d (Nat.lt_of_succ_lt_succ hd)
        rwa [Nat.mod_add_mod, Nat.add_assoc, Nat.add_comm 1 d] at hrest
    · cases h

theorem free_of_probe {fuel i j : Nat} (h : hashmap_probe map fuel i = some j)
    (hi : i < map.capacity) : j < map.capacity ∧ map.entries.getD j none = none := by
  induction fuel generalizing i with
  | zero => cases h
  | succ fuel ih =>
    unfold hashmap_probe at h
    split at h
    · exact ih h (Nat.mod_lt _ (Nat.zero_lt_of_lt hi))
    · next hfree =>
      obtain rfl := Option.some.inj h
      exact ⟨hi, by simpa using hfree⟩

/-- A table with a free entry is probed with success. -/
theorem probe_finds (hlen : map.entries.length = map.capacity)
    (hroom : (bindings map).length < map.capacity) {i : Nat} (hi : i < map.capacity) :
    ∃ j, hashmap_probe map map.capacity i = some j ∧ j < map.capacity ∧
      map.entries.getD j none = none := by
  cases hprobe : hashmap_probe map map.capacity i with
  | some j => exact ⟨j, rfl, free_of_probe hprobe hi⟩
  | none =>
    -- a whole round of used entries leaves no entry free
    have hfull : ∀ j < map.entries.length, map.entries.getD j none ≠ none := by
      rw [hlen]
      intro j hj
      have hused := used_of_probe_none hprobe hi ((j + (map.capacity - i)) % map.capacity)
        (Nat.mod_lt _ (Nat.zero_lt_of_lt hi))
      rwa [Nat.add_mod_mod, show i + (j + (map.capacity - i)) = j + map.capacity by omega,
        Nat.add_mod_right, Nat.mod_eq_of_lt hj] at hused
    have := length_contents_of_full hfull
    rw [hlen] at this
    rw [bindings, this] at hroom
    exact absurd hroom (Nat.lt_irrefl _)

/-- The table with a binding at a free entry. -/
def linked (map : hashmap_t κ β) (key : κ) (value : β) (i : Nat) : hashmap_t κ β :=
  { map with
    size := map.size + 1
    buckets := map.buckets.modify (map.hash_func key % map.bucket_num) (i :: ·)
    entries := map.entries.set i (some (key, value)) }

theorem probe_room (h : Tidy map) (hroom : map.size < map.bucket_num) (key : κ) :
    ∃ i, hashmap_probe map map.capacity (map.hash_func key % map.capacity) = some i ∧
      i < map.entries.length ∧ map.entries.getD i none = none := by
  have hle := h.bucket_num_le
  have hcap : 0 < map.capacity := h.pos.trans_le hle
  obtain ⟨i, hprobe, hi, hfree⟩ := probe_finds h.entries
    (by rw [← h.size]; exact hroom.trans_le hle) (Nat.mod_lt (map.hash_func key) hcap)
  exact ⟨i, hprobe, h.entries ▸ hi, hfree⟩

theorem link_of_probe (h : Tidy map) {key : κ} {i : Nat}
    (hprobe : hashmap_probe map map.capacity (map.hash_func key % map.capacity) = some i)
    (value : β) : hashmap_link map key value = some (linked map key value i) := by
  have hle := h.bucket_num_le
  unfold hashmap_link
  rw [if_neg (by have := h.pos; omega)]
  simp only [hprobe, Option.bind_eq_bind, Option.bind_some]
  rfl

theorem hashmap_link_eq (h : Tidy map) (hroom : map.size < map.bucket_num) (key : κ) (value : β) :
    ∃ i, hashmap_link map key value = some (linked map key value i) ∧ i < map.entries.length ∧
      map.entries.getD i none = none := by
  obtain ⟨i, hprobe, hi, hfree⟩ := probe_room h hroom key
  exact ⟨i, link_of_probe h hprobe value, hi, hfree⟩

theorem tidy_linked (h : Tidy map) (hroom : map.size < map.bucket_num) (key : κ) (value : β)
    {i : Nat} (hi : i < map.entries.length) (hfree : map.entries.getD i none = none) :
    Tidy (linked map key value i) := by
  have hmod := Nat.mod_lt (map.hash_func key) h.pos
  have hperm := contents_set_some (x := (key, value)) hi hfree
  have hnew : (map.entries.set i (some (key, value))).getD i none = some (key, value) :=
    getD_set_self hi
  have hout : ∀ b < map.bucket_num, i ∉ map.buckets.getD b [] := fun b hb hmem => by
    obtain ⟨k, v, hused, -⟩ := (h.mem_chain b hb i).mp hmem
    rw [hfree] at hused
    cases hused
  have hchain := fun b => getD_modify (d := []) (f := (i :: ·)) (hmod.trans_eq h.buckets.symm) b
  constructor
  case fits => exact h.fits
  case bucket_num => exact h.bucket_num
  case buckets => exact (List.length_modify ..).trans h.buckets
  case entries => exact List.length_set.trans h.entries
  case chain_nodup =>
    intro b
    simp only [linked, hchain]
    split
    · next hb => exact List.nodup_cons.mpr ⟨hout b (hb ▸ hmod), h.chain_nodup b⟩
    · exact h.chain_nodup b
  case mem_chain =>
    intro b hb j
    simp only [linked, hchain]
    by_cases hj : j = i
    · subst hj
      simp only [hnew, Option.some.injEq, Prod.mk.injEq]
      split
      · next hbucket => exact ⟨fun _ => ⟨key, value, ⟨rfl, rfl⟩, hbucket.symm⟩,
          fun _ => List.mem_cons_self⟩
      · next hbucket =>
        refine iff_of_false (hout b hb) ?_
        rintro ⟨_, _, ⟨rfl, -⟩, heq⟩
        exact hbucket heq.symm
    · rw [getD_set_ne (Ne.symm hj), ← h.mem_chain b hb j]
      split
      · rw [List.mem_cons, or_iff_right hj]
      · rfl
  case size => exact (congrArg Nat.succ h.size).trans hperm.length_eq.symm
  case room => exact hroom
  case pos => exact h.pos

/-! ## Removing an entry, and a value replaced -/

/-- The table without an entry of this bucket. -/
def unlinked (map : hashmap_t κ β) (bucket i : Nat) : hashmap_t κ β :=
  { map with
    size := map.size - 1
    buckets := map.buckets.modify bucket (·.erase i)
    entries := map.entries.set i none }

theorem tidy_unlinked (h : Tidy map) {i : Nat} {k : κ} {v : β}
    (hi : map.entries.getD i none = some (k, v)) :
    Tidy (unlinked map (map.hash_func k % map.bucket_num) i) := by
  have hperm := contents_set_none hi
  have hmod := Nat.mod_lt (map.hash_func k) h.pos
  have hchain := fun b => getD_modify (d := []) (f := (·.erase i)) (hmod.trans_eq h.buckets.symm) b
  have hfree : (map.entries.set i none).getD i none = none := getD_set_self (lt_of_getD hi)
  constructor
  case fits => exact h.fits
  case bucket_num => exact h.bucket_num
  case buckets => exact (List.length_modify ..).trans h.buckets
  case entries => exact List.length_set.trans h.entries
  case chain_nodup =>
    intro b
    simp only [unlinked, hchain]
    split
    · exact (h.chain_nodup b).erase i
    · exact h.chain_nodup b
  case mem_chain =>
    intro b hb j
    simp only [unlinked, hchain]
    by_cases hj : j = i
    · subst hj
      simp only [hfree]
      refine iff_of_false ?_ (fun ⟨_, _, hc, _⟩ => nomatch hc)
      split
      · exact (h.chain_nodup b).not_mem_erase
      · next hbucket =>
        intro hmem
        obtain ⟨_, _, hentry, rfl⟩ := (h.mem_chain b hb j).mp hmem
        rw [hi, Option.some.injEq, Prod.mk.injEq] at hentry
        obtain ⟨rfl, -⟩ := hentry
        exact hbucket rfl
    · rw [getD_set_ne (Ne.symm hj), ← h.mem_chain b hb j]
      split
      · exact List.mem_erase_of_ne hj
      · rfl
  case size => exact Nat.sub_eq_of_eq_add (h.size.trans hperm.length_eq)
  case room => exact (Nat.sub_le _ _).trans h.room
  case pos => exact h.pos

/-- The table with another value at an entry. -/
def revalued (map : hashmap_t κ β) (i : Nat) (k : κ) (value : β) : hashmap_t κ β :=
  { map with entries := map.entries.set i (some (k, value)) }

/-- The other bindings stay. -/
theorem bindings_revalued {i : Nat} {k : κ} {v : β} (hi : map.entries.getD i none = some (k, v))
    (value : β) : ∃ rest, (bindings map).Perm ((k, v) :: rest) ∧
      (bindings (revalued map i k value)).Perm ((k, value) :: rest) := by
  have hlt := lt_of_getD hi
  have hfree : (map.entries.set i none).getD i none = none := getD_set_self hlt
  refine ⟨contents (map.entries.set i none), contents_set_none hi, ?_⟩
  have hback := contents_set_some (x := (k, value)) (by rwa [List.length_set]) hfree
  rwa [List.set_set] at hback

theorem tidy_revalued (h : Tidy map) {i : Nat} {k : κ} {v : β}
    (hi : map.entries.getD i none = some (k, v)) (value : β) : Tidy (revalued map i k value) := by
  obtain ⟨rest, hold, hnew⟩ := bindings_revalued hi value
  have hself : (map.entries.set i (some (k, value))).getD i none = some (k, value) :=
    getD_set_self (lt_of_getD hi)
  refine ⟨h.fits, h.bucket_num, h.buckets, List.length_set.trans h.entries, h.chain_nodup,
    fun b hb j => ?_, ?_, h.room, h.pos⟩
  · refine (h.mem_chain b hb j).trans ?_
    by_cases hj : j = i
    · subst hj
      simp only [revalued, hself, hi, Option.some.injEq, Prod.mk.injEq]
      exact ⟨fun ⟨_, _, ⟨hk, _⟩, hbucket⟩ => ⟨_, value, ⟨hk, rfl⟩, hbucket⟩,
        fun ⟨_, _, ⟨hk, _⟩, hbucket⟩ => ⟨_, v, ⟨hk, rfl⟩, hbucket⟩⟩
    · rw [revalued, getD_set_ne (Ne.symm hj)]
  · exact h.size.trans (hold.length_eq.trans hnew.length_eq.symm)

/-! ## Operations that always come back -/

theorem tidy_empty (map : hashmap_t κ β) {capacity : Nat} (hfits : map.factor.times capacity ≤ capacity)
    (hpos : 0 < (map.factor.times capacity).floor.toNat) :
    Tidy (hashmap_reset (hashmap_alloc map capacity)) ∧
      bindings (hashmap_reset (hashmap_alloc map capacity)) = [] := by
  have hbindings : bindings (hashmap_reset (hashmap_alloc map capacity)) = [] :=
    contents_replicate capacity
  have hentry : ∀ {i b}, (hashmap_reset (hashmap_alloc map capacity)).entries.getD i none ≠
      some b := fun {i b} => by
    rw [show (hashmap_reset (hashmap_alloc map capacity)).entries.getD i none = none from
      getD_replicate capacity i]
    exact nofun
  have hchain : ∀ b, (hashmap_reset (hashmap_alloc map capacity)).buckets.getD b [] = [] :=
    getD_replicate _
  refine ⟨⟨hfits, rfl, List.length_replicate, List.length_replicate, fun b => ?_,
    fun b _ i => ?_, ?_, Nat.zero_le _, hpos⟩, hbindings⟩
  · rw [hchain]
    exact List.nodup_nil
  · rw [hchain]
    exact iff_of_false List.not_mem_nil fun ⟨_, _, hi, _⟩ => hentry hi
  · rw [hbindings]
    rfl

theorem tidy_clear (h : Tidy map) : Tidy (hashmap_clear map) ∧ bindings (hashmap_clear map) = [] := by
  unfold hashmap_clear
  by_cases hsize : map.size = 0
  · rw [if_pos hsize]
    exact ⟨h, List.length_eq_zero_iff.mp (h.size.symm.trans hsize)⟩
  · rw [if_neg hsize]
    -- the table is reset as if it were allocated again with its own capacity
    have hsame : hashmap_reset map = hashmap_reset (hashmap_alloc map map.capacity) := by
      unfold hashmap_reset hashmap_alloc
      simp only [h.bucket_num]
    rw [hsame]
    exact tidy_empty map h.fits (h.bucket_num ▸ h.pos)

/-- What no operation changes. -/
structure Kin (map map' : hashmap_t κ β) : Prop where
  hash_func : map'.hash_func = map.hash_func
  equal_func : map'.equal_func = map.equal_func
  factor : map'.factor = map.factor

theorem Kin.trans {map₁ map₂ map₃ : hashmap_t κ β} (h : Kin map₁ map₂) (h' : Kin map₂ map₃) :
    Kin map₁ map₃ :=
  ⟨h'.hash_func.trans h.hash_func, h'.equal_func.trans h.equal_func, h'.factor.trans h.factor⟩

/-- A key is put over an equal one, or into a table with room, without growing. -/
theorem tidy_put_room (h : Tidy map) (hroom : map.size < map.bucket_num) (key : κ) (value : β)
    (fuel : Nat) : ∃ old map', hashmap_put (fuel + 1) map key value = some (old, map') ∧
      Tidy map' ∧ Kin map map' ∧ map'.size ≤ map.size + 1 ∧ map'.bucket_num = map.bucket_num := by
  obtain ⟨chain, hbucket, -, hused⟩ := find_used h key
  unfold hashmap_put
  simp only [hbucket, Option.bind_eq_bind, Option.bind_some]
  cases hfind : hashmap_find map key chain with
  | some i =>
    obtain ⟨k, v, hi, -⟩ := hused i hfind
    simp only [hi, Option.map_some]
    exact ⟨_, _, rfl, tidy_revalued h hi value, ⟨rfl, rfl, rfl⟩, Nat.le_succ _, rfl⟩
  | none =>
    have hensure : hashmap_ensure (hashmap_put fuel) fuel map = some map := by
      cases fuel <;> exact if_neg (Nat.not_le.mpr hroom)
    obtain ⟨i, hlink, hi, hfree⟩ := hashmap_link_eq h hroom key value
    unfold hashmap_put_new
    simp only [hensure, hlink, Option.bind_eq_bind, Option.bind_some]
    exact ⟨_, _, rfl, tidy_linked h hroom key value hi hfree, ⟨rfl, rfl, rfl⟩, le_rfl, rfl⟩

/-- The loop that copies the old entries, into a table with room for all. -/
theorem tidy_put_all (h : Tidy map) (entries : List (Option (κ × β)))
    (hroom : map.size + (contents entries).length ≤ map.bucket_num) (fuel : Nat) :
    ∃ map', entries.foldlM (fun map' entry => match entry with
        | some (key, value) => (hashmap_put (fuel + 1) map' key value).map Prod.snd
        | none => some map') map = some map' ∧
      Tidy map' ∧ Kin map map' ∧ map'.size ≤ map.size + (contents entries).length ∧
      map'.bucket_num = map.bucket_num := by
  induction entries generalizing map with
  | nil => exact ⟨map, rfl, h, ⟨rfl, rfl, rfl⟩, le_rfl, rfl⟩
  | cons entry entries ih =>
    rcases entry with _ | ⟨key, value⟩
    · exact ih h hroom
    · have hcontents : contents (some (key, value) :: entries) = (key, value) :: contents entries :=
        rfl
      rw [hcontents, List.length_cons] at hroom
      rw [hcontents, List.length_cons]
      obtain ⟨old, map₁, hput, htidy, hkin, hsize, hbuckets⟩ :=
        tidy_put_room h (by omega) key value fuel
      obtain ⟨map', hrun, htidy', hkin', hsize', hbuckets'⟩ := ih htidy (by omega)
      refine ⟨map', ?_, htidy', hkin.trans hkin', by omega, hbuckets'.trans hbuckets⟩
      rw [List.foldlM_cons]
      simp only [hput, Option.map_some, Option.bind_eq_bind, Option.bind_some]
      exact hrun

theorem tidy_grow (h : Tidy map) (fuel : Nat) :
    ∃ map', hashmap_grow (hashmap_put (fuel + 1)) map = some map' ∧ Tidy map' ∧ Kin map map' ∧
      map'.size < map'.bucket_num := by
  have hdouble := bucket_num_double map.factor map.capacity
  rw [← h.bucket_num] at hdouble
  have hpos := h.pos
  have hroom := h.room
  obtain ⟨htidy, -⟩ := tidy_empty map (fits_double h.fits) (by omega)
  have hsize : (hashmap_reset (hashmap_alloc map (2 * map.capacity))).size = 0 := rfl
  have hbuckets : (hashmap_reset (hashmap_alloc map (2 * map.capacity))).bucket_num =
    (map.factor.times (2 * map.capacity)).floor.toNat := rfl
  have hlen : (contents map.entries).length = map.size := h.size.symm
  obtain ⟨map', hrun, htidy', hkin, hsize', hbuckets'⟩ := tidy_put_all htidy map.entries
    (by omega) fuel
  exact ⟨map', hrun, htidy', ⟨hkin.hash_func, hkin.equal_func, hkin.factor⟩, by omega⟩

/-- One growth makes room, whatever the table holds. -/
theorem tidy_ensure (h : Tidy map) (fuel : Nat) :
    ∃ map', hashmap_ensure (hashmap_put (fuel + 1)) (fuel + 1) map = some map' ∧ Tidy map' ∧
      Kin map map' ∧ map'.size < map'.bucket_num := by
  unfold hashmap_ensure
  by_cases hroom : map.size < map.bucket_num
  · exact ⟨map, if_neg (Nat.not_le.mpr hroom), h, ⟨rfl, rfl, rfl⟩, hroom⟩
  · obtain ⟨map', hgrow, htidy, hkin, hroom'⟩ := tidy_grow h fuel
    refine ⟨map', ?_, htidy, hkin, hroom'⟩
    rw [if_pos (Nat.not_lt.mp hroom), hgrow]
    cases fuel <;> exact if_neg (Nat.not_le.mpr hroom')

theorem tidy_put_new (h : Tidy map) (key : κ) (value : β) (fuel : Nat) :
    ∃ map', hashmap_put_new (hashmap_put (fuel + 1)) (fuel + 1) map key value = some map' ∧
      Tidy map' ∧ Kin map map' := by
  obtain ⟨map₁, hensure, htidy, hkin, hroom⟩ := tidy_ensure h fuel
  obtain ⟨i, hlink, hi, hfree⟩ := hashmap_link_eq htidy hroom key value
  refine ⟨_, ?_, tidy_linked htidy hroom key value hi hfree,
    hkin.trans ⟨rfl, rfl, rfl⟩⟩
  unfold hashmap_put_new
  simp only [hensure, Option.bind_eq_bind, Option.bind_some]
  exact hlink

theorem tidy_put (h : Tidy map) (key : κ) (value : β) (fuel : Nat) :
    ∃ old map', hashmap_put (fuel + 2) map key value = some (old, map') ∧ Tidy map' ∧
      Kin map map' := by
  obtain ⟨chain, hbucket, -, hused⟩ := find_used h key
  unfold hashmap_put
  simp only [hbucket, Option.bind_eq_bind, Option.bind_some]
  cases hfind : hashmap_find map key chain with
  | some i =>
    obtain ⟨k, v, hi, -⟩ := hused i hfind
    simp only [hi, Option.map_some]
    exact ⟨_, _, rfl, tidy_revalued h hi value, ⟨rfl, rfl, rfl⟩⟩
  | none =>
    obtain ⟨map', hnew, htidy, hkin⟩ := tidy_put_new h key value fuel
    simp only [hnew, Option.bind_some]
    exact ⟨_, _, rfl, htidy, hkin⟩

theorem tidy_put_if_absent (h : Tidy map) (key : κ) (value : β) (fuel : Nat) :
    ∃ absent map', hashmap_put_if_absent (fuel + 1) map key value = some (absent, map') ∧
      Tidy map' ∧ Kin map map' := by
  obtain ⟨chain, hbucket, -, hused⟩ := find_used h key
  unfold hashmap_put_if_absent
  simp only [hbucket, Option.bind_eq_bind, Option.bind_some]
  cases hfind : hashmap_find map key chain with
  | some i => exact ⟨_, _, rfl, h, ⟨rfl, rfl, rfl⟩⟩
  | none =>
    obtain ⟨map', hnew, htidy, hkin⟩ := tidy_put_new h key value fuel
    simp only [hnew, Option.bind_some]
    exact ⟨_, _, rfl, htidy, hkin⟩

theorem tidy_get (h : Tidy map) (key : κ) : ∃ found, hashmap_get map key = some found := by
  obtain ⟨chain, hbucket, -, -⟩ := find_used h key
  unfold hashmap_get
  simp only [hbucket, Option.bind_eq_bind, Option.bind_some]
  exact ⟨_, rfl⟩

theorem tidy_remove (h : Tidy map) (key : κ) :
    ∃ removed map', hashmap_remove map key = some (removed, map') ∧ Tidy map' ∧ Kin map map' := by
  obtain ⟨chain, hbucket, -, hused⟩ := find_used h key
  unfold hashmap_remove
  simp only [hbucket, Option.bind_eq_bind, Option.bind_some]
  cases hfind : hashmap_find map key chain with
  | some i =>
    obtain ⟨k, v, hi, -, hmod⟩ := hused i hfind
    have htidy := tidy_unlinked h hi
    rw [hmod] at htidy
    exact ⟨_, _, rfl, htidy, ⟨rfl, rfl, rfl⟩⟩
  | none => exact ⟨_, _, rfl, h, ⟨rfl, rfl, rfl⟩⟩

end

end nettle.hashmap
