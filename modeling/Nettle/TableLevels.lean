-- The tables of lists are those with pointers, seen from further off: over any
-- calls, and whatever the keys point to meanwhile, both give the same.
import Nettle.LinkedLrumapLaws
import Nettle.LrumapLaws

open slots

namespace nettle.linked

variable {κ β : Type}

/-- A call of an LRU map, or a change of what its keys point to: then its functions are others. -/
inductive lru_event (κ β : Type) where
  | call (call : lru_operation κ β)
  | reads (hash_func : κ → Nat) (equal_func : κ → κ → Bool)

def lru_events : List (lru_event κ β) → lrumap_t κ β →
    Option (List (lru_outcome κ β) × lrumap_t κ β)
  | [], map => some ([], map)
  | .call call :: events, map => do
    let (outcome, map) ← lrumap_call map call
    let (outcomes, map) ← lru_events events map
    return (outcome :: outcomes, map)
  | .reads hash_func equal_func :: events, map =>
    lru_events events { map with map := { map.map with hash_func, equal_func } }

end nettle.linked

/-! ## Calls on the tables of lists -/

namespace nettle.hashmap

variable {κ β : Type}

def hashmap_call (fuel : Nat) (map : hashmap_t κ β) :
    linked.operation κ β → Option (linked.outcome κ β × hashmap_t κ β)
  | .put key value => do
    let (old_value, map) ← hashmap_put fuel map key value
    return (.replaced old_value, map)
  | .put_if_absent key value => do
    let (added, map) ← hashmap_put_if_absent fuel map key value
    return (.absent added, map)
  | .get key => do
    let key_value ← hashmap_get map key
    return (.found key_value, map)
  | .remove key => do
    let (key_value, map) ← hashmap_remove map key
    return (.removed key_value, map)
  | .clear => some (.cleared, hashmap_clear map)

def hashmap_run (fuel : Nat) : List (linked.operation κ β) → hashmap_t κ β →
    Option (List (linked.outcome κ β × Nat) × hashmap_t κ β)
  | [], map => some ([], map)
  | call :: calls, map => do
    let (outcome, map') ← hashmap_call fuel map call
    let (outcomes, map'') ← hashmap_run fuel calls map'
    return ((outcome, map'.size) :: outcomes, map'')

end nettle.hashmap

namespace nettle.lrumap

variable {κ β : Type}

def lrumap_call (map : lrumap_t κ β) :
    linked.lru_operation κ β → Option (linked.lru_outcome κ β × lrumap_t κ β)
  | .put key value => do
    let (success, map) ← lrumap_put map key value
    return (.done success, map)
  | .get key => do
    let (key_value, map) ← lrumap_get map key
    return (.found key_value, map)
  | .remove key => do
    let (success, map) ← lrumap_remove map key
    return (.done success, map)
  | .peek => do
    let key_value ← lrumap_peek map
    return (.found key_value, map)
  | .make_eldest key => do
    let (success, map) ← lrumap_make_eldest map key
    return (.done success, map)

def lru_events : List (linked.lru_event κ β) → lrumap_t κ β →
    Option (List (linked.lru_outcome κ β) × lrumap_t κ β)
  | [], map => some ([], map)
  | .call call :: events, map => do
    let (outcome, map) ← lrumap_call map call
    let (outcomes, map) ← lru_events events map
    return (outcome :: outcomes, map)
  | .reads hash_func equal_func :: events, map =>
    lru_events events { map with map := { map.map with hash_func, equal_func } }

end nettle.lrumap

namespace nettle.linked

open nettle.list
open nettle.hashmap (Tidy Lawful Absent factor_t double_factor exact_factor tidy_empty tidy_put
  tidy_put_if_absent tidy_get tidy_remove tidy_clear bindings three_quarters
  three_quarters_fit naive_hash_func naive_equal_func lawful_naive)

variable {κ β : Type}

/-! ## Hash tables -/

section

variable {table : hashmap_t κ β} {m : hashmap.hashmap_t κ β}

theorem mirror_call (h : Mirrors table m) (ht : Tidy m) (fuel : Nat) (call : operation κ β) :
    ∃ outcome table' m', hashmap_call (fuel + 2) table call = some (outcome, table') ∧
      hashmap.hashmap_call (fuel + 2) m call = some (outcome, m') ∧ Mirrors table' m' ∧ Tidy m' := by
  unfold hashmap_call hashmap.hashmap_call
  cases call with
  | put key value =>
    obtain ⟨old, table', m', hput, hput', hmirrors⟩ := mirror_put h ht key value fuel
    obtain ⟨old', m'', hput'', htidy, -⟩ := tidy_put ht key value fuel
    obtain ⟨-, rfl⟩ := Prod.mk.inj (Option.some.inj (hput'.symm.trans hput''))
    simp only [hput, hput', Option.bind_eq_bind, Option.bind_some]
    exact ⟨_, table', m', rfl, rfl, hmirrors, htidy⟩
  | put_if_absent key value =>
    obtain ⟨added, table', m', hput, hput', hmirrors⟩ :=
      mirror_put_if_absent h ht key value (fuel + 1)
    obtain ⟨added', m'', hput'', htidy, -⟩ := tidy_put_if_absent ht key value (fuel + 1)
    obtain ⟨-, rfl⟩ := Prod.mk.inj (Option.some.inj (hput'.symm.trans hput''))
    simp only [hput, hput', Option.bind_eq_bind, Option.bind_some]
    exact ⟨_, table', m', rfl, rfl, hmirrors, htidy⟩
  | get key =>
    obtain ⟨found, hget⟩ := tidy_get ht key
    simp only [mirror_get h ht, hget, Option.bind_eq_bind, Option.bind_some]
    exact ⟨_, table, m, rfl, rfl, h, ht⟩
  | remove key =>
    obtain ⟨removed, table', m', hremove, hremove', hmirrors⟩ := mirror_remove h ht key
    obtain ⟨removed', m'', hremove'', htidy, -⟩ := tidy_remove ht key
    obtain ⟨-, rfl⟩ := Prod.mk.inj (Option.some.inj (hremove'.symm.trans hremove''))
    simp only [hremove, hremove', Option.bind_eq_bind, Option.bind_some]
    exact ⟨_, table', m', rfl, rfl, hmirrors, htidy⟩
  | clear => exact ⟨_, _, _, rfl, rfl, mirror_clear h ht, (tidy_clear ht).1⟩

theorem mirror_run (h : Mirrors table m) (ht : Tidy m) (fuel : Nat) (calls : List (operation κ β)) :
    ∃ outcomes table' m', hashmap_run (fuel + 2) calls table = some (outcomes, table') ∧
      hashmap.hashmap_run (fuel + 2) calls m = some (outcomes, m') ∧ Mirrors table' m' ∧ Tidy m' := by
  induction calls generalizing table m with
  | nil => exact ⟨[], table, m, rfl, rfl, h, ht⟩
  | cons call calls ih =>
    obtain ⟨outcome, table₁, m₁, hcall, hcall', hmirrors, htidy⟩ := mirror_call h ht fuel call
    obtain ⟨outcomes, table', m', hrun, hrun', hmirrors', htidy'⟩ := ih hmirrors htidy
    refine ⟨(outcome, table₁.size) :: outcomes, table', m', ?_, ?_, hmirrors', htidy'⟩
    · unfold hashmap_run
      simp only [hcall, hrun, Option.bind_eq_bind, Option.bind_some]
      rfl
    · unfold hashmap.hashmap_run
      simp only [hcall', hrun', hmirrors.size, Option.bind_eq_bind, Option.bind_some]
      rfl

end

/-- A new table with a bucket mirrors the new table of lists. -/
theorem mirror_init (hash_func : κ → Nat) (equal_func : κ → κ → Bool) {capacity : Nat}
    {factor : factor_t} (hfactor : 0 < factor.value ∧ factor.value ≤ 1)
    (hfits : factor.times capacity ≤ capacity) (hfloor : 1 ≤ (factor.times capacity).floor) :
    ∃ (table : hashmap_t κ β) (m : hashmap.hashmap_t κ β),
      hashmap_init capacity factor hash_func equal_func = some table ∧
      hashmap.hashmap_init capacity factor hash_func equal_func = some m ∧ Mirrors table m ∧ Tidy m := by
  obtain ⟨htidy, -⟩ := tidy_empty (κ := κ) (β := β) ⟨0, factor, hash_func, equal_func, 0, 0, [], []⟩
    hfits (by change 0 < (factor.times capacity).floor.toNat; omega)
  exact ⟨_, _, if_pos hfactor, if_pos hfactor, mirror_alloc
    ⟨0, factor, hash_func, equal_func, 0, 0, [], []⟩ _ ⟨rfl, rfl, rfl⟩ capacity, htidy⟩

/-! ## LRU maps -/

/-- The map of lists has the same table, and as lists what is chained in the heap. -/
structure Pictures (lm : lrumap_t κ β) (m : lrumap.lrumap_t κ β) : Prop where
  map : Mirrors lm.map m.map
  lists : Lists lm.heap m.pool m.queue
  capacity : lm.capacity = m.capacity
  entries : lm.entries = m.entries

section

variable {lm : lrumap_t κ β} {m m' : lrumap.lrumap_t κ β} {used : List (Nat × κ × β)} {key : κ}

theorem Pictures.size (h : Pictures lm m) : lrumap_size lm = lrumap.lrumap_size m := by
  unfold lrumap_size lrumap.lrumap_size
  rw [h.map.size, h.capacity]

/-- The table leads from a key to its entry in the queue, or nowhere. -/
theorem found_or_absent (hold : lrumap.Holds m used) (key : κ) :
    Absent m.map.equal_func key (bindings m.map) ∨ ∃ newer u older, used = newer ++ u :: older ∧
      m.map.equal_func key u.2.1 ∧ (u.2.1, u.1) ∈ bindings m.map := by
  by_cases h : ∃ u ∈ used, m.map.equal_func key u.2.1
  · obtain ⟨u, hu, hequal⟩ := h
    obtain ⟨newer, older, rfl⟩ := List.append_of_mem hu
    exact Or.inr ⟨newer, u, older, rfl, hequal, hold.index.mem_iff.mpr (List.mem_map_of_mem hu)⟩
  · refine Or.inl ((hold.absent_iff key).mpr fun b hb hequal => ?_)
    obtain ⟨u, hu, rfl⟩ := List.mem_map.mp hb
    exact h ⟨u, hu, hequal⟩

/-- An entry of the queue is taken out of it on both sides. -/
theorem Pictures.dropped (h : Pictures lm m) {newer older : List (Nat × κ × β)} {u : Nat × κ × β}
    (hold : lrumap.Holds m (newer ++ u :: older)) :
    (∃ heap, list_remove lm.heap (.entry u.1) = some heap ∧
      Lists heap m.pool ((newer ++ older).map Prod.fst)) ∧
    u.1 ∉ m.pool ++ (newer ++ older).map Prod.fst := by
  have hlists := h.lists
  rw [hold.queue, List.map_append, List.map_cons] at hlists
  obtain ⟨heap, hremove, hlists'⟩ := drop_used hlists
  refine ⟨⟨heap, hremove, by rwa [List.map_append]⟩, ?_⟩
  have hperm : (m.pool ++ (newer.map Prod.fst ++ u.1 :: older.map Prod.fst)).Perm
      (u.1 :: (m.pool ++ (newer ++ older).map Prod.fst)) := by
    rw [List.map_append]
    exact (List.perm_middle.append_left m.pool).trans List.perm_middle
  exact (List.nodup_cons.mp (hperm.nodup_iff.mp hlists.nodup)).1

theorem pictures_put (h : Pictures lm m) (hold : lrumap.Holds m used) {value : β} {success : Bool}
    (hput : lrumap.lrumap_put m key value = some (success, m')) :
    ∃ lm', lrumap_put lm key value = some (success, lm') ∧ Pictures lm' m' := by
  have hsize := hold.lrumap_size
  have hlen := hold.length
  unfold lrumap.lrumap_put at hput
  unfold lrumap_put
  rw [h.size, h.capacity]
  simp only [hsize, Option.bind_eq_bind, Option.bind_some] at hput ⊢
  by_cases hfull : used.length = m.capacity
  · rw [if_pos hfull] at hput ⊢
    obtain ⟨rfl, rfl⟩ := Prod.mk.inj (Option.some.inj hput)
    exact ⟨lm, rfl, h⟩
  · rw [if_neg hfull] at hput ⊢
    obtain ⟨pool, e, hpool⟩ : ∃ pool e, m.pool = pool ++ [e] := by
      rcases List.eq_nil_or_concat m.pool with hnil | hconcat
      · rw [hnil, List.length_nil] at hlen
        omega
      · simpa only [List.concat_eq_append] using hconcat
    have hlists := h.lists
    rw [hpool] at hlists
    have hnot : e ∉ pool ++ m.queue := by
      have hnodup := hlists.nodup
      rw [List.append_assoc] at hnodup
      exact (List.nodup_cons.mp (List.perm_middle.nodup_iff.mp hnodup)).1
    obtain ⟨heap₁, hpop, hlists₁⟩ := take_free hlists
    obtain ⟨heap₂, hpush, hlists₂⟩ := add_newest hlists₁ hnot
    obtain ⟨added, table, m₁, hadd, hadd', hmirrors⟩ :=
      mirror_put_if_absent h.map hold.table.tidy key e 0
    simp only [hpool, List.getLast?_concat, hadd', Option.bind_some] at hput
    simp only [hpop, lrumap_entry_from_super, hadd, hpush, Option.bind_some]
    cases added with
    | false => cases hput
    | true =>
      obtain ⟨rfl, rfl⟩ := Prod.mk.inj (Option.some.inj hput)
      refine ⟨_, rfl, hmirrors, ?_, rfl, congrArg (·.set e (some (key, value))) h.entries⟩
      simp only [List.dropLast_concat]
      exact hlists₂

theorem pictures_get (h : Pictures lm m) (hold : lrumap.Holds m used) {found : Option (κ × β)}
    (hget : lrumap.lrumap_get m key = some (found, m')) :
    ∃ lm', lrumap_get lm key = some (found, lm') ∧ Pictures lm' m' := by
  have hsame := mirror_get h.map hold.table.tidy key
  unfold lrumap.lrumap_get at hget
  unfold lrumap_get
  rcases found_or_absent hold key with habsent | ⟨newer, u, older, rfl, hequal, hmem⟩
  · rw [hashmap.hashmap_get_absent hold.table habsent] at hsame hget
    obtain ⟨rfl, rfl⟩ := Prod.mk.inj (Option.some.inj hget)
    rw [hsame]
    exact ⟨lm, rfl, h⟩
  · rw [hashmap.hashmap_get_present hold.table hmem hequal] at hsame hget
    obtain ⟨hqueue, herase⟩ := hold.erase
    obtain ⟨⟨heap₁, hremove, hlists₁⟩, hnot⟩ := h.dropped hold
    obtain ⟨heap₂, hpush, hlists₂⟩ := add_newest hlists₁ hnot
    have hbound := hold.bound u (by simp)
    simp only [lrumap.list_remove, if_pos hqueue, herase, hbound, Option.bind_eq_bind,
      Option.bind_some] at hget
    obtain ⟨rfl, rfl⟩ := Prod.mk.inj (Option.some.inj hget)
    simp only [hsame, hremove, hpush, h.entries, hbound, Option.bind_eq_bind, Option.bind_some]
    exact ⟨_, rfl, h.map, hlists₂, h.capacity, rfl⟩

theorem pictures_remove (h : Pictures lm m) (hold : lrumap.Holds m used) {success : Bool}
    (hremove : lrumap.lrumap_remove m key = some (success, m')) :
    ∃ lm', lrumap_remove lm key = some (success, lm') ∧ Pictures lm' m' := by
  obtain ⟨removed, table, m₁, hdelete, hdelete', hmirrors⟩ := mirror_remove h.map hold.table.tidy key
  unfold lrumap.lrumap_remove at hremove
  unfold lrumap_remove
  rcases found_or_absent hold key with habsent | ⟨newer, u, older, rfl, hequal, hmem⟩
  · obtain ⟨rfl, rfl⟩ := Prod.mk.inj (Option.some.inj
      (hdelete'.symm.trans (hashmap.hashmap_remove_absent hold.table habsent)))
    simp only [hdelete', Option.bind_eq_bind, Option.bind_some] at hremove
    obtain ⟨rfl, rfl⟩ := Prod.mk.inj (Option.some.inj hremove)
    simp only [hdelete, Option.bind_eq_bind, Option.bind_some]
    exact ⟨_, rfl, hmirrors, h.lists, h.capacity, h.entries⟩
  · obtain ⟨m₂, hdelete'', -⟩ := hashmap.hashmap_remove_present hold.table hmem hequal
    obtain ⟨rfl, rfl⟩ := Prod.mk.inj (Option.some.inj (hdelete'.symm.trans hdelete''))
    obtain ⟨hqueue, herase⟩ := hold.erase
    obtain ⟨⟨heap₁, hdrop, hlists₁⟩, hnot⟩ := h.dropped hold
    obtain ⟨heap₂, hpush, hlists₂⟩ := add_free hlists₁ hnot
    simp only [hdelete', lrumap.list_remove, if_pos hqueue, herase, Option.bind_eq_bind,
      Option.bind_some] at hremove
    obtain ⟨rfl, rfl⟩ := Prod.mk.inj (Option.some.inj hremove)
    simp only [hdelete, hdrop, hpush, Option.bind_eq_bind, Option.bind_some]
    exact ⟨_, rfl, hmirrors, hlists₂, h.capacity, h.entries⟩

theorem pictures_make_eldest (h : Pictures lm m) (hold : lrumap.Holds m used) {success : Bool}
    (hmake : lrumap.lrumap_make_eldest m key = some (success, m')) :
    ∃ lm', lrumap_make_eldest lm key = some (success, lm') ∧ Pictures lm' m' := by
  have hsame := mirror_get h.map hold.table.tidy key
  unfold lrumap.lrumap_make_eldest at hmake
  unfold lrumap_make_eldest
  rcases found_or_absent hold key with habsent | ⟨newer, u, older, rfl, hequal, hmem⟩
  · rw [hashmap.hashmap_get_absent hold.table habsent] at hsame hmake
    obtain ⟨rfl, rfl⟩ := Prod.mk.inj (Option.some.inj hmake)
    rw [hsame]
    exact ⟨lm, rfl, h⟩
  · rw [hashmap.hashmap_get_present hold.table hmem hequal] at hsame hmake
    obtain ⟨hqueue, herase⟩ := hold.erase
    obtain ⟨⟨heap₁, hremove, hlists₁⟩, hnot⟩ := h.dropped hold
    obtain ⟨heap₂, hpush, hlists₂⟩ := add_eldest hlists₁ hnot
    simp only [lrumap.list_remove, if_pos hqueue, herase, Option.bind_eq_bind,
      Option.bind_some] at hmake
    obtain ⟨rfl, rfl⟩ := Prod.mk.inj (Option.some.inj hmake)
    simp only [hsame, hremove, hpush, Option.bind_eq_bind, Option.bind_some]
    exact ⟨_, rfl, h.map, hlists₂, h.capacity, h.entries⟩

theorem pictures_peek (h : Pictures lm m) (hold : lrumap.Holds m used) :
    lrumap_peek lm = lrumap.lrumap_peek m := by
  unfold lrumap_peek lrumap.lrumap_peek
  rw [h.size, hold.lrumap_size, h.entries]
  rcases List.eq_nil_or_concat used with rfl | ⟨newer, u, rfl⟩
  · rfl
  · have hqueue := hold.queue
    have hchained := h.lists.queue
    rw [hqueue] at hchained
    simp only [List.concat_eq_append, List.map_append, List.map_cons, List.map_nil] at hqueue hchained
    simp only [Option.bind_eq_bind, Option.bind_some, List.length_concat, Nat.add_one_ne_zero, if_false,
      list_peek_back_spec hchained, lrumap_entry_from_super, hqueue, List.getLast?_concat,
      hold.bound u (by simp)]

theorem pictures_call (h : Pictures lm m) (hold : lrumap.Holds m used) {call : lru_operation κ β}
    {outcome : lru_outcome κ β} (hcall : lrumap.lrumap_call m call = some (outcome, m')) :
    ∃ lm', lrumap_call lm call = some (outcome, lm') ∧ Pictures lm' m' := by
  unfold lrumap.lrumap_call at hcall
  unfold lrumap_call
  cases call with
  | put key value =>
    obtain ⟨⟨success, m₁⟩, hput, heq⟩ := Option.bind_eq_some_iff.mp hcall
    obtain ⟨rfl, rfl⟩ := Prod.mk.inj (Option.some.inj heq)
    obtain ⟨lm', hput', hpictures⟩ := pictures_put h hold hput
    exact ⟨lm', by simp only [hput', Option.bind_eq_bind, Option.bind_some]; rfl, hpictures⟩
  | get key =>
    obtain ⟨⟨found, m₁⟩, hget, heq⟩ := Option.bind_eq_some_iff.mp hcall
    obtain ⟨rfl, rfl⟩ := Prod.mk.inj (Option.some.inj heq)
    obtain ⟨lm', hget', hpictures⟩ := pictures_get h hold hget
    exact ⟨lm', by simp only [hget', Option.bind_eq_bind, Option.bind_some]; rfl, hpictures⟩
  | remove key =>
    obtain ⟨⟨success, m₁⟩, hremove, heq⟩ := Option.bind_eq_some_iff.mp hcall
    obtain ⟨rfl, rfl⟩ := Prod.mk.inj (Option.some.inj heq)
    obtain ⟨lm', hremove', hpictures⟩ := pictures_remove h hold hremove
    exact ⟨lm', by simp only [hremove', Option.bind_eq_bind, Option.bind_some]; rfl, hpictures⟩
  | peek =>
    obtain ⟨found, hpeek, heq⟩ := Option.bind_eq_some_iff.mp hcall
    obtain ⟨rfl, rfl⟩ := Prod.mk.inj (Option.some.inj heq)
    have hpeek' := (pictures_peek h hold).trans hpeek
    exact ⟨lm, by simp only [hpeek', Option.bind_eq_bind, Option.bind_some]; rfl, h⟩
  | make_eldest key =>
    obtain ⟨⟨success, m₁⟩, hmake, heq⟩ := Option.bind_eq_some_iff.mp hcall
    obtain ⟨rfl, rfl⟩ := Prod.mk.inj (Option.some.inj heq)
    obtain ⟨lm', hmake', hpictures⟩ := pictures_make_eldest h hold hmake
    exact ⟨lm', by simp only [hmake', Option.bind_eq_bind, Option.bind_some]; rfl, hpictures⟩

end

/-! ## What the map of lists does, as a recency list -/

section

variable {m : lrumap.lrumap_t κ β} {bs : List (κ × β)}

/-- What an operation leaves as it is. -/
structure Kept (m m' : lrumap.lrumap_t κ β) : Prop where
  capacity : m'.capacity = m.capacity
  hash_func : m'.map.hash_func = m.map.hash_func
  equal_func : m'.map.equal_func = m.map.equal_func

theorem recent_call (h : lrumap.Recent m bs) {call : lru_operation κ β}
    (hnew : puts_new m.map.equal_func bs call = true) : ∃ m',
      lrumap.lrumap_call m call =
        some ((recency_call m.map.equal_func m.capacity bs call).1, m') ∧
      lrumap.Recent m' (recency_call m.map.equal_func m.capacity bs call).2 ∧ Kept m m' := by
  have hsame : Kept m m := ⟨rfl, rfl, rfl⟩
  have hfind : ∀ key, recency.find m.map.equal_func bs key = none ↔
      ∀ b ∈ bs, ¬m.map.equal_func key b.1 := fun _ => recency.find_eq_none
  unfold lrumap.lrumap_call recency_call
  cases call with
  | put key value =>
    unfold recency.put
    by_cases hfull : bs.length = m.capacity
    · simp only [if_pos hfull, lrumap.lrumap_put_full h hfull, Option.bind_eq_bind, Option.bind_some]
      exact ⟨m, rfl, h, hsame⟩
    · have hroom : bs.length < m.capacity := lt_of_le_of_ne h.length_le hfull
      obtain ⟨m', hput, hrecent, hkept⟩ := lrumap.lrumap_put_spec h key hroom
        ((hfind key).mp (Option.isNone_iff_eq_none.mp hnew)) value
      simp only [if_neg hfull, hput, Option.bind_eq_bind, Option.bind_some]
      exact ⟨m', rfl, hrecent, hkept.1, hkept.2.1, hkept.2.2⟩
  | get key =>
    unfold recency.get
    cases hb : recency.find m.map.equal_func bs key with
    | none =>
      simp only [hb, lrumap.lrumap_get_absent h ((hfind key).mp hb), Option.bind_eq_bind,
        Option.bind_some]
      exact ⟨m, rfl, h, hsame⟩
    | some b =>
      obtain ⟨newer, older, rfl, hequal, hwithout⟩ := recency.find_split hb
      obtain ⟨m', hget, hrecent, hkept⟩ := lrumap.lrumap_get_present h hequal
      simp only [hb, hget, hwithout, Option.bind_eq_bind, Option.bind_some]
      exact ⟨m', rfl, hrecent, hkept.1, hkept.2.1, hkept.2.2⟩
  | remove key =>
    unfold recency.remove
    cases hb : recency.find m.map.equal_func bs key with
    | none =>
      simp only [hb, lrumap.lrumap_remove_absent h ((hfind key).mp hb), Option.bind_eq_bind,
        Option.bind_some]
      exact ⟨m, rfl, h, hsame⟩
    | some b =>
      obtain ⟨newer, older, rfl, hequal, hwithout⟩ := recency.find_split hb
      obtain ⟨m', hremove, hrecent, hkept⟩ := lrumap.lrumap_remove_present h hequal
      simp only [hb, hremove, hwithout, Option.bind_eq_bind, Option.bind_some]
      exact ⟨m', rfl, hrecent, hkept.1, hkept.2.1, hkept.2.2⟩
  | peek =>
    simp only [lrumap.lrumap_peek_spec h, Option.bind_eq_bind, Option.bind_some]
    exact ⟨m, rfl, h, hsame⟩
  | make_eldest key =>
    unfold recency.make_eldest
    cases hb : recency.find m.map.equal_func bs key with
    | none =>
      simp only [hb, lrumap.lrumap_make_eldest_absent h ((hfind key).mp hb), Option.bind_eq_bind,
        Option.bind_some]
      exact ⟨m, rfl, h, hsame⟩
    | some b =>
      obtain ⟨newer, older, rfl, hequal, hwithout⟩ := recency.find_split hb
      obtain ⟨m', hmake, hrecent, hkept⟩ := lrumap.lrumap_make_eldest_present h hequal
      simp only [hb, hmake, hwithout, Option.bind_eq_bind, Option.bind_some]
      exact ⟨m', rfl, hrecent, hkept.1, hkept.2.1, hkept.2.2⟩

end

/-! ## Over any run -/

/-- Only new keys are put, and what changes says the same of the keys in the map. -/
def Proper (capacity : Nat) :
    List (lru_event κ β) → (κ → Nat) → (κ → κ → Bool) → List (κ × β) → Prop
  | [], _, _, _ => True
  | .call call :: events, hash_func, equal_func, bs =>
    puts_new equal_func bs call = true ∧
      Proper capacity events hash_func equal_func (recency_call equal_func capacity bs call).2
  | .reads hash_func' equal_func' :: events, hash_func, equal_func, bs =>
    Lawful hash_func' equal_func' ∧ (∀ b ∈ bs, hash_func' b.1 = hash_func b.1) ∧
      (∀ b ∈ bs, ∀ b' ∈ bs, equal_func' b.1 b'.1 = equal_func b.1 b'.1) ∧
      Proper capacity events hash_func' equal_func' bs

theorem pictures_run {lm : lrumap_t κ β} {m : lrumap.lrumap_t κ β} {bs : List (κ × β)}
    (h : Pictures lm m) (hrecent : lrumap.Recent m bs) {events : List (lru_event κ β)}
    (hproper : Proper m.capacity events m.map.hash_func m.map.equal_func bs) :
    ∃ outcomes lm' m', lru_events events lm = some (outcomes, lm') ∧
      lrumap.lru_events events m = some (outcomes, m') ∧ Pictures lm' m' := by
  induction events generalizing lm m bs with
  | nil => exact ⟨[], lm, m, rfl, rfl, h⟩
  | cons event events ih =>
    cases event with
    | call call =>
      obtain ⟨hnew, hproper⟩ := hproper
      obtain ⟨m₁, hcall, hrecent₁, hkept⟩ := recent_call hrecent hnew
      obtain ⟨used, hold, -⟩ := hrecent
      obtain ⟨lm₁, hcall', hpictures⟩ := pictures_call h hold hcall
      rw [← hkept.capacity, ← hkept.hash_func, ← hkept.equal_func] at hproper
      obtain ⟨outcomes, lm', m', hrun', hrun, hpictures'⟩ := ih hpictures
        (by rwa [← hkept.capacity, ← hkept.equal_func] at hrecent₁) hproper
      refine ⟨(recency_call m.map.equal_func m.capacity bs call).1 :: outcomes, lm', m', ?_, ?_,
        hpictures'⟩
      · unfold lru_events
        simp only [hcall', hrun', Option.bind_eq_bind, Option.bind_some]
        rfl
      · unfold lrumap.lru_events
        simp only [hcall, hrun, Option.bind_eq_bind, Option.bind_some]
        rfl
    | reads hash_func equal_func =>
      obtain ⟨hlawful, hhash, hequal, hproper⟩ := hproper
      obtain ⟨hcapacity, hfactor, -, -, hbucket_num, hsize, hbuckets, hentries, hwritten, hchain⟩ := h.map
      exact ih ⟨⟨hcapacity, hfactor, rfl, rfl, hbucket_num, hsize, hbuckets, hentries, hwritten, hchain⟩,
        h.lists, h.capacity, h.entries⟩ (hrecent.functions hlawful hhash hequal) hproper

/-- At first all entries are in the pools. -/
theorem pictures_init (hash_func : κ → Nat) (equal_func : κ → κ → Bool) {capacity : Nat}
    (hcap : 2 ≤ capacity) : ∃ (lm : lrumap_t κ β) (m : lrumap.lrumap_t κ β),
      lrumap_init1 capacity hash_func equal_func = some lm ∧
      lrumap.lrumap_init1 capacity hash_func equal_func = some m ∧ Pictures lm m := by
  have hrange : 0 < (double_factor (3 / 4)).value ∧ (double_factor (3 / 4)).value ≤ 1 := by
    change 0 < (3 / 4 : ℚ) ∧ (3 / 4 : ℚ) ≤ 1
    norm_num
  obtain ⟨table, m, hinit, hinit', hmirrors, -⟩ := mirror_init (β := Nat) hash_func equal_func
    hrange (three_quarters_fit capacity) (three_quarters.mpr hcap)
  obtain ⟨heap, hheap, hlists⟩ := init_lists capacity
  refine ⟨{ map := table, heap, capacity, entries := List.replicate capacity none },
    { map := m, pool := (List.range capacity).reverse, queue := [], capacity,
      entries := List.replicate capacity none }, ?_, ?_, hmirrors, hlists, rfl, rfl⟩
  · unfold lrumap_init1 lrumap_init
    simp only [hinit, hheap, Option.bind_eq_bind, Option.bind_some]
    rfl
  · unfold lrumap.lrumap_init1 lrumap.lrumap_init
    simp only [hinit', List.foldl_flip_cons_eq_append', List.append_nil, Option.bind_eq_bind,
      Option.bind_some]
    rfl

/-- Whatever the hash function and the comparison do, both tables give the same, and one mirrors the
other in the end. -/
theorem the_hash_tables_agree (hash_func : κ → Nat) (equal_func : κ → κ → Bool) {capacity : Nat}
    {factor : factor_t} {value : ℚ} (hvalue : 0 < value ∧ value ≤ 1)
    (hfactor : factor = exact_factor value ∨ factor = double_factor value ∧ capacity ≤ 2 ^ 53)
    (hfloor : 1 ≤ (factor.times capacity).floor) (fuel : Nat) (calls : List (operation κ β)) :
    ∃ table m outcomes table' m', hashmap_init capacity factor hash_func equal_func = some table ∧
      hashmap.hashmap_init capacity factor hash_func equal_func = some m ∧
      hashmap_run (fuel + 2) calls table = some (outcomes, table') ∧
      hashmap.hashmap_run (fuel + 2) calls m = some (outcomes, m') ∧ Mirrors table' m' := by
  obtain ⟨hpos, hone, hfits⟩ := hashmap.fits_of_factor hvalue hfactor
  obtain ⟨table, m, hinit, hinit', hmirrors, htidy⟩ :=
    mirror_init (β := β) hash_func equal_func ⟨hpos, hone⟩ hfits hfloor
  obtain ⟨outcomes, table', m', hrun, hrun', hmirrors', -⟩ := mirror_run hmirrors htidy fuel calls
  exact ⟨table, m, outcomes, table', m', hinit, hinit', hrun, hrun', hmirrors'⟩

theorem the_hash_tables_agree_three : ∃ (table : hashmap_t Nat Nat) (m : hashmap.hashmap_t Nat Nat)
    (outcomes : List (outcome Nat Nat × Nat)) (table' : hashmap_t Nat Nat)
    (m' : hashmap.hashmap_t Nat Nat),
    hashmap_init 3 (double_factor (3 / 4)) naive_hash_func naive_equal_func = some table ∧
      hashmap.hashmap_init 3 (double_factor (3 / 4)) naive_hash_func naive_equal_func = some m ∧
      hashmap_run 2 [.put 1 10, .put 4 40, .get 1] table = some (outcomes, table') ∧
      hashmap.hashmap_run 2 [.put 1 10, .put 4 40, .get 1] m = some (outcomes, m') ∧
      Mirrors table' m' :=
  the_hash_tables_agree naive_hash_func naive_equal_func
    (by norm_num : (0 : ℚ) < 3 / 4 ∧ (3 / 4 : ℚ) ≤ 1) (Or.inr ⟨rfl, by norm_num⟩)
    (three_quarters.mpr (by norm_num)) 0 [.put 1 10, .put 4 40, .get 1]

/-- So do both LRU maps, also while memory that keys point to is written, but for the keys that are in
the map then. -/
theorem the_lru_maps_agree {hash_func : κ → Nat} {equal_func : κ → κ → Bool}
    (hlawful : Lawful hash_func equal_func) {capacity : Nat} (hcap : 2 ≤ capacity)
    (events : List (lru_event κ β)) (hproper : Proper capacity events hash_func equal_func []) :
    ∃ lm m outcomes lm' m', lrumap_init1 capacity hash_func equal_func = some lm ∧
      lrumap.lrumap_init1 capacity hash_func equal_func = some m ∧
      lru_events events lm = some (outcomes, lm') ∧
      lrumap.lru_events events m = some (outcomes, m') ∧ Pictures lm' m' := by
  obtain ⟨m, hinit', hrecent, hcapacity, hhash, hequal⟩ :=
    lrumap.lrumap_init1_spec (β := β) hlawful hcap
  obtain ⟨lm, m₀, hinit, hinit₀, hpictures⟩ := pictures_init (β := β) hash_func equal_func hcap
  obtain rfl := Option.some.inj (hinit'.symm.trans hinit₀)
  rw [← hcapacity, ← hhash, ← hequal] at hproper
  obtain ⟨outcomes, lm', m', hrun, hrun', hpictures'⟩ := pictures_run hpictures hrecent hproper
  exact ⟨lm, m, outcomes, lm', m', hinit, hinit', hrun, hrun', hpictures'⟩

/-- A hash that says the same of the key 1 only. -/
def other_hash (key : Nat) : Nat := if key = 1 then naive_hash_func 1 else 7

theorem lawful_other : Lawful other_hash naive_equal_func where
  refl := lawful_naive.refl
  symm := lawful_naive.symm
  trans := lawful_naive.trans
  hash h := by
    rw [naive_equal_func, beq_iff_eq] at h
    rw [h]

theorem the_lru_maps_agree_two : ∃ (lm : lrumap_t Nat Nat) (m : lrumap.lrumap_t Nat Nat)
    (outcomes : List (lru_outcome Nat Nat)) (lm' : lrumap_t Nat Nat) (m' : lrumap.lrumap_t Nat Nat),
    lrumap_init1 2 naive_hash_func naive_equal_func = some lm ∧
      lrumap.lrumap_init1 2 naive_hash_func naive_equal_func = some m ∧
      lru_events [.call (.put 1 10), .reads other_hash naive_equal_func, .call (.put 2 20),
        .call (.get 1)] lm = some (outcomes, lm') ∧
      lrumap.lru_events [.call (.put 1 10), .reads other_hash naive_equal_func, .call (.put 2 20),
        .call (.get 1)] m = some (outcomes, m') ∧ Pictures lm' m' := by
  refine the_lru_maps_agree lawful_naive le_rfl _ ⟨rfl, lawful_other, ?_, fun _ _ _ _ => rfl, rfl, rfl,
    trivial⟩
  decide

end nettle.linked
