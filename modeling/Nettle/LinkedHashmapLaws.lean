-- The hash table with pointers does what the hash table of lists does: every
-- chain of one is the list of the other, step by step.
import Nettle.DoublyLinked
import Nettle.HashmapLaws
import Nettle.LinkedHashmap

open doubly_linked in_place slots nettle.hashmap

namespace nettle.linked

variable {κ β : Type}

/-! ## The mirror -/

def prev_of (entries : List (hashmap_entry_t κ β)) (i : Nat) : Option Nat :=
  (entries[i]?).bind (·.prev)

def next_of (entries : List (hashmap_entry_t κ β)) (i : Nat) : Option Nat :=
  (entries[i]?).bind (·.next)

/-- What an entry shows of itself. -/
def slot (entry : hashmap_entry_t κ β) : Option (κ × β) :=
  if entry.used then entry.key_value else none

/-- Each used entry was written. -/
def Written (entries : List (hashmap_entry_t κ β)) : Prop :=
  ∀ (i : Nat) (entry : hashmap_entry_t κ β), entries[i]? = some entry → entry.used = true →
    entry.key_value.isSome

structure Mirrors (lm : hashmap_t κ β) (m : hashmap.hashmap_t κ β) : Prop where
  capacity : lm.capacity = m.capacity
  factor : lm.factor = m.factor
  hash_func : lm.hash_func = m.hash_func
  equal_func : lm.equal_func = m.equal_func
  bucket_num : lm.bucket_num = m.bucket_num
  size : lm.size = m.size
  buckets : lm.buckets.length = m.bucket_num
  entries : m.entries = lm.entries.map slot
  written : Written lm.entries
  chain : ∀ b < m.bucket_num, ∃ last, Segment (prev_of lm.entries) (next_of lm.entries) none
    (lm.buckets.getD b none) (m.buckets.getD b []) last none

section

variable {lm : hashmap_t κ β} {m : hashmap.hashmap_t κ β}

theorem Mirrors.getD (h : Mirrors lm m) (i : Nat) :
    m.entries.getD i none = (lm.entries[i]?).bind slot := by
  rw [h.entries, List.getD_eq_getElem?_getD, List.getElem?_map]
  cases lm.entries[i]? <;> rfl

theorem Mirrors.used (h : Mirrors lm m) {i : Nat} {b : κ × β}
    (hi : m.entries.getD i none = some b) :
    ∃ entry, lm.entries[i]? = some entry ∧ entry.used = true ∧ entry.key_value = some b := by
  rw [h.getD, Option.bind_eq_some_iff] at hi
  obtain ⟨entry, hentry, hslot⟩ := hi
  rw [slot, Option.ite_none_right_eq_some] at hslot
  exact ⟨entry, hentry, hslot⟩

theorem Mirrors.free (h : Mirrors lm m) {i : Nat} (hlt : i < m.entries.length)
    (hi : m.entries.getD i none = none) :
    ∃ entry, lm.entries[i]? = some entry ∧ entry.used = false := by
  rw [h.entries, List.length_map] at hlt
  have hentry := List.getElem?_eq_getElem hlt
  refine ⟨lm.entries[i], hentry, ?_⟩
  rw [h.getD, hentry, Option.bind_some, slot] at hi
  by_contra hused
  rw [Bool.not_eq_false] at hused
  have hwritten := h.written i _ hentry hused
  rw [if_pos hused] at hi
  rw [hi] at hwritten
  cases hwritten

/-! ## Looking a key up -/

theorem mirror_find (h : Mirrors lm m) (key : κ) {before first last : Option Nat}
    {cells : List Nat} (hchain : Segment (prev_of lm.entries) (next_of lm.entries) before first
      cells last none) (hused : ∀ i ∈ cells, ∃ b, m.entries.getD i none = some b) {fuel : Nat}
    (hfuel : cells.length ≤ fuel) :
    hashmap_find lm key fuel first = some (hashmap.hashmap_find m key cells) := by
  induction cells generalizing before first fuel with
  | nil =>
    obtain ⟨rfl, -⟩ := hchain
    cases fuel <;> rfl
  | cons i cells ih =>
    obtain ⟨rfl, -, hrest⟩ := hchain
    obtain ⟨fuel, rfl⟩ : ∃ n, fuel = n + 1 := Nat.exists_eq_add_one.mpr (by simp at hfuel; omega)
    obtain ⟨⟨k, v⟩, hb⟩ := hused i List.mem_cons_self
    obtain ⟨entry, hentry, -, hkey⟩ := h.used hb
    have hnext : next_of lm.entries i = entry.next := by rw [next_of, hentry]; rfl
    rw [hnext] at hrest
    have hrest' := ih hrest (fun j hj => hused j (List.mem_cons_of_mem i hj))
      (Nat.le_of_succ_le_succ hfuel)
    unfold hashmap_find hashmap.hashmap_find
    rw [List.find?_cons]
    simp only [hentry, hkey, hb, h.equal_func, Option.bind_eq_bind, Option.bind_some]
    cases m.equal_func key k with
    | true => rfl
    | false => exact hrest'

theorem chain_length_le (ht : Tidy m) {b : Nat} (hb : b < m.bucket_num) :
    (m.buckets.getD b []).length ≤ m.capacity := by
  have hsub : m.buckets.getD b [] ⊆ List.range m.capacity := by
    intro i hi
    obtain ⟨k, v, hentry, -⟩ := (ht.mem_chain b hb i).mp hi
    rw [List.mem_range, ← ht.entries]
    exact lt_of_getD hentry
  have hle := (List.subperm_of_subset (ht.chain_nodup b) hsub).length_le
  rwa [List.length_range] at hle

theorem mirror_lookup (h : Mirrors lm m) (ht : Tidy m) (key : κ) :
    hashmap_lookup lm key = some (m.hash_func key % m.bucket_num, hashmap.hashmap_find m key
      (m.buckets.getD (m.hash_func key % m.bucket_num) [])) := by
  have hmod := Nat.mod_lt (m.hash_func key) ht.pos
  obtain ⟨last, hchain⟩ := h.chain _ hmod
  have hfind := mirror_find h key hchain (fun i hi => by
    obtain ⟨k, v, hentry, -⟩ := (ht.mem_chain _ hmod i).mp hi
    exact ⟨_, hentry⟩) (chain_length_le ht hmod)
  unfold hashmap_lookup hashmap_bucket
  rw [h.bucket_num, h.hash_func, h.capacity, if_neg ht.pos.ne']
  simp only [hfind, Option.bind_eq_bind, Option.bind_some]
  rfl

theorem bucket_eq (ht : Tidy m) (key : κ) : hashmap.hashmap_bucket m key =
    some (m.buckets.getD (m.hash_func key % m.bucket_num) []) := if_neg ht.pos.ne'

/-! ## Links that change -/

section

variable {entries : List (hashmap_entry_t κ β)} {p q : Option Nat} {d : Nat}

theorem getElem?_set_prev : (set_prev entries p q)[d]? =
    (entries[d]?).map fun e => if p = some d then { e with prev := q } else e := by
  cases p with
  | none => simp [set_prev]
  | some i => simp [set_prev, List.getElem?_modify]

theorem getElem?_set_next : (set_next entries p q)[d]? =
    (entries[d]?).map fun e => if p = some d then { e with next := q } else e := by
  cases p with
  | none => simp [set_next]
  | some i => simp [set_next, List.getElem?_modify]

theorem prev_of_set_prev (hd : d < entries.length) :
    prev_of (set_prev entries p q) d = if p = some d then q else prev_of entries d := by
  rw [prev_of, prev_of, getElem?_set_prev, List.getElem?_eq_getElem hd]
  simp only [Option.map_some, Option.bind_some]
  split <;> rfl

theorem next_of_set_next (hd : d < entries.length) :
    next_of (set_next entries p q) d = if p = some d then q else next_of entries d := by
  rw [next_of, next_of, getElem?_set_next, List.getElem?_eq_getElem hd]
  simp only [Option.map_some, Option.bind_some]
  split <;> rfl

theorem next_of_set_prev : next_of (set_prev entries p q) d = next_of entries d := by
  rw [next_of, next_of, getElem?_set_prev]
  cases entries[d]? with
  | none => rfl
  | some e => simp only [Option.map_some, Option.bind_some]; split <;> rfl

theorem prev_of_set_next : prev_of (set_next entries p q) d = prev_of entries d := by
  rw [prev_of, prev_of, getElem?_set_next]
  cases entries[d]? with
  | none => rfl
  | some e => simp only [Option.map_some, Option.bind_some]; split <;> rfl

/-- Links are not shown. -/
theorem map_slot_set_prev : (set_prev entries p q).map slot = entries.map slot := by
  refine List.ext_getElem? fun d => ?_
  rw [List.getElem?_map, List.getElem?_map, getElem?_set_prev]
  cases entries[d]? with
  | none => rfl
  | some e => simp only [Option.map_some]; split <;> rfl

theorem map_slot_set_next : (set_next entries p q).map slot = entries.map slot := by
  refine List.ext_getElem? fun d => ?_
  rw [List.getElem?_map, List.getElem?_map, getElem?_set_next]
  cases entries[d]? with
  | none => rfl
  | some e => simp only [Option.map_some]; split <;> rfl

end

section

variable {entries : List (hashmap_entry_t κ β)} {p q : Option Nat} {i : Nat}

theorem Written.set_prev (h : Written entries) : Written (set_prev entries p q) := by
  intro d e he hused
  rw [getElem?_set_prev, Option.map_eq_some_iff] at he
  obtain ⟨e₀, he₀, rfl⟩ := he
  split at hused
  · next heq =>
    rw [if_pos heq]
    exact h d e₀ he₀ hused
  · next heq =>
    rw [if_neg heq]
    exact h d e₀ he₀ hused

theorem Written.set_next (h : Written entries) : Written (set_next entries p q) := by
  intro d e he hused
  rw [getElem?_set_next, Option.map_eq_some_iff] at he
  obtain ⟨e₀, he₀, rfl⟩ := he
  split at hused
  · next heq =>
    rw [if_pos heq]
    exact h d e₀ he₀ hused
  · next heq =>
    rw [if_neg heq]
    exact h d e₀ he₀ hused

theorem Written.set (h : Written entries) {entry : hashmap_entry_t κ β}
    (hentry : entry.used = true → entry.key_value.isSome) : Written (entries.set i entry) := by
  intro d e he hused
  rw [List.getElem?_set] at he
  split at he
  · next heq =>
    split at he
    · obtain rfl := Option.some.inj he
      exact hentry hused
    · cases he
  · exact h d e he hused

theorem Written.free (h : Written entries) :
    Written (entries.modify i fun e => { e with used := false }) := by
  intro d e he hused
  rw [List.getElem?_modify, Option.map_eq_map, Option.map_eq_some_iff] at he
  obtain ⟨e₀, he₀, rfl⟩ := he
  split at hused
  · cases hused
  · next heq =>
    rw [if_neg heq]
    exact h d e₀ he₀ hused

end

end

/-! ## Entries in chains -/

section

variable {m : hashmap.hashmap_t κ β}

/-- An entry stands in one chain only. -/
theorem one_chain (ht : Tidy m) {b b' i : Nat} (hb : b < m.bucket_num) (hb' : b' < m.bucket_num)
    (hi : i ∈ m.buckets.getD b []) (hi' : i ∈ m.buckets.getD b' []) : b = b' := by
  obtain ⟨k, v, hentry, rfl⟩ := (ht.mem_chain b hb i).mp hi
  obtain ⟨k', v', hentry', rfl⟩ := (ht.mem_chain b' hb' i).mp hi'
  rw [hentry, Option.some.injEq, Prod.mk.injEq] at hentry'
  rw [hentry'.1]

theorem chain_lt (ht : Tidy m) {b i : Nat} (hb : b < m.bucket_num)
    (hi : i ∈ m.buckets.getD b []) : i < m.entries.length := by
  obtain ⟨k, v, hentry, -⟩ := (ht.mem_chain b hb i).mp hi
  exact lt_of_getD hentry

variable {lm : hashmap_t κ β}

theorem Mirrors.length (h : Mirrors lm m) : lm.entries.length = m.entries.length := by
  rw [h.entries, List.length_map]

theorem mirror_probe (h : Mirrors lm m) (ht : Tidy m) {fuel i : Nat} (hi : i < m.capacity) :
    hashmap_probe lm fuel i = hashmap.hashmap_probe m fuel i := by
  induction fuel generalizing i with
  | zero => rfl
  | succ fuel ih =>
    have hrest := ih (Nat.mod_lt (i + 1) (Nat.zero_lt_of_lt hi))
    unfold hashmap_probe hashmap.hashmap_probe
    rw [h.capacity, hrest]
    cases hslot : m.entries.getD i none with
    | some b =>
      obtain ⟨entry, hentry, hused, -⟩ := h.used hslot
      simp only [hentry, Option.bind_eq_bind, Option.bind_some, hused, if_true, Option.isSome_some]
    | none =>
      obtain ⟨entry, hentry, hused⟩ := h.free (ht.entries.symm ▸ hi) hslot
      simp only [hentry, Option.bind_eq_bind, Option.bind_some, hused, Bool.false_eq_true, if_false,
        Option.isSome_none]

/-! ## A new entry -/

/-- A chain begins with an entry of its own. -/
theorem Mirrors.head (h : Mirrors lm m) {b i : Nat} (hb : b < m.bucket_num)
    (hi : lm.buckets.getD b none = some i) : i ∈ m.buckets.getD b [] := by
  obtain ⟨last, hchain⟩ := h.chain b hb
  exact hchain.mem_of_first hi nofun

theorem mirror_link (h : Mirrors lm m) (ht : Tidy m) (hroom : m.size < m.bucket_num) (key : κ)
    (value : β) : ∃ lm' m', hashmap_link lm key value = some lm' ∧
      hashmap.hashmap_link m key value = some m' ∧ Mirrors lm' m' := by
  obtain ⟨i, hprobe, hi, hfree⟩ := probe_room ht hroom key
  have hcap : 0 < m.capacity := ht.pos.trans_le ht.bucket_num_le
  have hpos := ht.pos
  have hmod := Nat.mod_lt (m.hash_func key) ht.pos
  have hprobe' := (mirror_probe h ht (Nat.mod_lt (m.hash_func key) hcap)).trans
    hprobe
  set next := lm.buckets.getD (m.hash_func key % m.bucket_num) none with hnext
  set fresh : hashmap_entry_t κ β :=
    { key_value := some (key, value), used := true, prev := none, next } with hfresh
  have hi' : i < lm.entries.length := h.length.symm ▸ hi
  have hout : ∀ b < m.bucket_num, i ∉ m.buckets.getD b [] := fun b hb hmem => by
    obtain ⟨k, v, hused, -⟩ := (ht.mem_chain b hb i).mp hmem
    rw [hfree] at hused
    cases hused
  have hne : next ≠ some i := fun heq => hout _ hmod (h.head hmod heq)
  -- the links of the new entry, and of the others
  have hself : (lm.entries.set i fresh)[i]? = some fresh := by simp [hi']
  have hother : ∀ {d}, d ≠ i → (lm.entries.set i fresh)[d]? = lm.entries[d]? :=
    fun hd => List.getElem?_set_ne hd.symm
  have hlen : (lm.entries.set i fresh).length = m.entries.length := by
    rw [List.length_set, h.length]
  have hback : prev_of (set_prev (lm.entries.set i fresh) next (some i)) i = none := by
    rw [prev_of_set_prev (hlen ▸ hi), if_neg hne, prev_of, hself]
    rfl
  have hfirst : next_of (set_prev (lm.entries.set i fresh) next (some i)) i = next := by
    rw [next_of_set_prev, next_of, hself]
    rfl
  have hprev : ∀ {d b}, b < m.bucket_num → d ∈ m.buckets.getD b [] →
      prev_of (set_prev (lm.entries.set i fresh) next (some i)) d =
        if next = some d then some i else prev_of lm.entries d := fun {d b} hb hd => by
    have hdi : d ≠ i := fun heq => hout b hb (heq ▸ hd)
    rw [prev_of_set_prev (hlen ▸ chain_lt ht hb hd), prev_of, hother hdi, prev_of]
  have hstays : ∀ {d b}, b < m.bucket_num → d ∈ m.buckets.getD b [] →
      next_of (set_prev (lm.entries.set i fresh) next (some i)) d = next_of lm.entries d :=
    fun {d b} hb hd => by
      have hdi : d ≠ i := fun heq => hout b hb (heq ▸ hd)
      rw [next_of_set_prev, next_of, hother hdi, next_of]
  refine ⟨{ lm with
    size := lm.size + 1
    buckets := lm.buckets.set (m.hash_func key % m.bucket_num) (some i)
    entries := set_prev (lm.entries.set i fresh) next (some i) }, _, ?_,
    link_of_probe ht hprobe value, h.capacity, h.factor, h.hash_func, h.equal_func, h.bucket_num,
    congrArg Nat.succ h.size, List.length_set.trans h.buckets, ?_, (h.written.set ?_).set_prev,
    fun b hb => ?_⟩
  · unfold hashmap_link
    rw [h.capacity, h.bucket_num, h.hash_func, if_neg (by omega)]
    simp only [hprobe', Option.bind_eq_bind, Option.bind_some]
    rfl
  · rw [map_slot_set_prev, List.map_set, ← h.entries]
    rfl
  · exact fun _ => rfl
  · obtain ⟨last, hchain⟩ := h.chain b hb
    have hlist : (linked m key value i).buckets.getD b [] =
        if b = m.hash_func key % m.bucket_num then i :: m.buckets.getD b [] else
          m.buckets.getD b [] := getD_modify (hmod.trans_eq ht.buckets.symm) b
    rw [hlist]
    by_cases hown : b = m.hash_func key % m.bucket_num
    · subst hown
      rw [if_pos rfl, getD_set_self (hmod.trans_eq h.buckets.symm)]
      exact ⟨_, hchain.push_front (ht.chain_nodup _) hback hfirst (fun d hd => hprev hb hd)
        fun d hd => hstays hb hd⟩
    · rw [if_neg hown, getD_set_ne (Ne.symm hown)]
      refine ⟨last, hchain.congr (fun d hd => ?_) fun d hd => hstays hb hd⟩
      rw [hprev hb hd, if_neg fun heq => hown (one_chain ht hb hmod hd (h.head hmod heq))]

/-! ## An entry removed, and a value replaced -/

theorem prev_of_free (entries : List (hashmap_entry_t κ β)) (i d : Nat) :
    prev_of (entries.modify i fun e => { e with used := false }) d = prev_of entries d := by
  rw [prev_of, prev_of, List.getElem?_modify]
  cases entries[d]? with
  | none => rfl
  | some e => simp only [Option.map_eq_map, Option.map_some, Option.bind_some]; split <;> rfl

theorem next_of_free (entries : List (hashmap_entry_t κ β)) (i d : Nat) :
    next_of (entries.modify i fun e => { e with used := false }) d = next_of entries d := by
  rw [next_of, next_of, List.getElem?_modify]
  cases entries[d]? with
  | none => rfl
  | some e => simp only [Option.map_eq_map, Option.map_some, Option.bind_some]; split <;> rfl

theorem map_slot_free (entries : List (hashmap_entry_t κ β)) (i : Nat) :
    (entries.modify i fun e => { e with used := false }).map slot =
      (entries.map slot).set i none := by
  refine List.ext_getElem? fun d => ?_
  rw [List.getElem?_map, List.getElem?_modify, List.getElem?_set, List.getElem?_map,
    List.length_map]
  by_cases hd : i = d
  · subst hd
    by_cases hi : i < entries.length
    · simp [hi, slot]
    · simp [hi]
  · cases entries[d]? <;> simp [hd]

theorem mirror_unlink (h : Mirrors lm m) (ht : Tidy m) {b i : Nat} (hb : b < m.bucket_num)
    (hi : i ∈ m.buckets.getD b []) {entry : hashmap_entry_t κ β} (hentry : lm.entries[i]? = some entry) :
    Mirrors (hashmap_unlink lm b i entry) (unlinked m b i) := by
  obtain ⟨last, hchain⟩ := h.chain b hb
  have hnodup := ht.chain_nodup b
  obtain ⟨cells₁, cells₂, hcells⟩ := List.append_of_mem hi
  have hprev_i : prev_of lm.entries i = entry.prev := by rw [prev_of, hentry]; rfl
  have hnext_i : next_of lm.entries i = entry.next := by rw [next_of, hentry]; rfl
  -- the links of the entries that stay
  have hlen : (set_next lm.entries entry.prev entry.next).length = lm.entries.length := by
    unfold set_next
    split
    · exact List.length_modify ..
    · rfl
  have hprev : ∀ {d}, d < m.entries.length → prev_of (hashmap_unlink lm b i entry).entries d =
      if entry.next = some d then entry.prev else prev_of lm.entries d := fun {d} hd => by
    rw [hashmap_unlink, prev_of_free, prev_of_set_prev (by rw [hlen, h.length]; exact hd),
      prev_of_set_next]
  have hnext : ∀ {d}, d < m.entries.length → next_of (hashmap_unlink lm b i entry).entries d =
      if entry.prev = some d then entry.next else next_of lm.entries d := fun {d} hd => by
    rw [hashmap_unlink, next_of_free, next_of_set_prev, next_of_set_next (by rw [h.length]; exact hd)]
  have hkeeps : ∀ {d}, d ∈ cells₁ ++ cells₂ → d ∈ m.buckets.getD b [] := fun {d} hd => by
    rw [hcells]
    exact List.mem_append.mpr ((List.mem_append.mp hd).imp_right (List.mem_cons_of_mem i))
  rw [hcells] at hchain hnodup
  obtain ⟨hbefore, hafter⟩ := hchain.neighbours
  have hrest := hchain.remove
    (prev_of (hashmap_unlink lm b i entry).entries)
    (next_of (hashmap_unlink lm b i entry).entries) hnodup
    (fun d hd => by rw [hprev (chain_lt ht hb (hkeeps hd)), hprev_i, hnext_i])
    (fun d hd => by rw [hnext (chain_lt ht hb (hkeeps hd)), hprev_i, hnext_i])
    (fun _ _ => nofun) fun _ _ => nofun
  rw [hprev_i] at hbefore
  rw [hnext_i] at hafter
  have herase : (m.buckets.getD b []).erase i = cells₁ ++ cells₂ := by
    have hnot : i ∉ cells₁ := fun hmem =>
      (List.nodup_append.mp hnodup).2.2 i hmem i List.mem_cons_self rfl
    rw [hcells, List.erase_append_right _ hnot, List.erase_cons_head]
  have hprev_mem : ∀ {d}, entry.prev = some d → d ∈ m.buckets.getD b [] := fun {d} hd => by
    rw [hd] at hbefore
    split at hbefore
    · cases hbefore
    · exact hkeeps (List.mem_append_left _ (List.mem_of_getLast? hbefore.symm))
  have hnext_mem : ∀ {d}, entry.next = some d → d ∈ m.buckets.getD b [] := fun {d} hd => by
    rw [hd] at hafter
    split at hafter
    · cases hafter
    · exact hkeeps (List.mem_append_right _ (List.mem_of_head? hafter.symm))
  have hbuckets : (hashmap_unlink lm b i entry).buckets =
      if cells₁ = [] then lm.buckets.set b entry.next else lm.buckets := by
    rw [hashmap_unlink, hbefore]
    by_cases hnil : cells₁ = []
    · rw [if_pos hnil, if_pos hnil]
      rfl
    · rw [if_neg hnil, if_neg hnil, List.getLast?_eq_getLast_of_ne_nil hnil]
      rfl
  refine ⟨h.capacity, h.factor, h.hash_func, h.equal_func, h.bucket_num, congrArg (· - 1) h.size,
    ?_, ?_, h.written.set_next.set_prev.free, fun b' hb' => ?_⟩
  · rw [hbuckets]
    split
    · exact List.length_set.trans h.buckets
    · exact h.buckets
  · rw [hashmap_unlink, map_slot_free, map_slot_set_prev, map_slot_set_next, ← h.entries]
    rfl
  · have hlist : (unlinked m b i).buckets.getD b' [] =
        if b' = b then (m.buckets.getD b' []).erase i else m.buckets.getD b' [] :=
      getD_modify (hb.trans_eq ht.buckets.symm) b'
    rw [hlist, hbuckets]
    by_cases hown : b' = b
    · subst hown
      rw [if_pos rfl, herase]
      have hfirst : (if cells₁ = [] then lm.buckets.set b' entry.next else lm.buckets).getD b' none =
          if cells₁ = [] then next_of lm.entries i else lm.buckets.getD b' none := by
        split
        · rw [getD_set_self (hb.trans_eq h.buckets.symm), hnext_i]
        · rfl
      rw [hfirst]
      exact ⟨_, hrest⟩
    · obtain ⟨last', hchain'⟩ := h.chain b' hb'
      rw [if_neg hown]
      refine ⟨last', ?_⟩
      have hfirst : (if cells₁ = [] then lm.buckets.set b entry.next else lm.buckets).getD b' none =
          lm.buckets.getD b' none := by
        split
        · exact getD_set_ne (Ne.symm hown)
        · rfl
      rw [hfirst]
      refine hchain'.congr (fun d hd => ?_) fun d hd => ?_
      · rw [hprev (chain_lt ht hb' hd),
          if_neg fun heq => hown (one_chain ht hb' hb hd (hnext_mem heq))]
      · rw [hnext (chain_lt ht hb' hd),
          if_neg fun heq => hown (one_chain ht hb' hb hd (hprev_mem heq))]

theorem mirror_revalued (h : Mirrors lm m) {i : Nat} {entry : hashmap_entry_t κ β}
    (hentry : lm.entries[i]? = some entry) (hused : entry.used = true) (k : κ) (value : β) :
    Mirrors { lm with entries := lm.entries.set i { entry with key_value := some (k, value) } }
      (revalued m i k value) := by
  have hi : i < lm.entries.length := (List.getElem?_eq_some_iff.mp hentry).1
  have hlinks : ∀ d, (lm.entries.set i { entry with key_value := some (k, value) })[d]? =
      if d = i then some { entry with key_value := some (k, value) } else lm.entries[d]? :=
    fun d => by
      by_cases hd : d = i
      · subst hd
        simp [hi]
      · rw [if_neg hd, List.getElem?_set_ne (Ne.symm hd)]
  refine ⟨h.capacity, h.factor, h.hash_func, h.equal_func, h.bucket_num, h.size, h.buckets, ?_,
    h.written.set fun _ => rfl, fun b hb => ?_⟩
  · rw [List.map_set, ← h.entries, slot, if_pos hused]
    rfl
  · obtain ⟨last, hchain⟩ := h.chain b hb
    refine ⟨last, hchain.congr (fun d _ => ?_) fun d _ => ?_⟩
    · rw [prev_of, hlinks]
      split
      · next hd => rw [hd, prev_of, hentry]; rfl
      · rfl
    · rw [next_of, hlinks]
      split
      · next hd => rw [hd, next_of, hentry]; rfl
      · rfl

/-! ## The operations -/

theorem mirror_reset (h : lm.capacity = m.capacity ∧ lm.factor = m.factor ∧
    lm.hash_func = m.hash_func ∧ lm.equal_func = m.equal_func ∧ lm.bucket_num = m.bucket_num)
    (hlen : lm.entries.length = m.capacity) :
    Mirrors (hashmap_reset lm) (hashmap.hashmap_reset m) := by
  obtain ⟨hcapacity, hfactor, hhash, hequal, hbuckets⟩ := h
  refine ⟨hcapacity, hfactor, hhash, hequal, hbuckets, rfl,
    List.length_replicate.trans hbuckets, ?_, fun i entry hentry hused => ?_, fun b hb => ⟨none, ?_⟩⟩
  · rw [hashmap_reset, hashmap.hashmap_reset, List.map_map, ← hlen]
    exact (List.map_const' ..).symm
  · rw [hashmap_reset, List.getElem?_map, Option.map_eq_some_iff] at hentry
    obtain ⟨_, -, rfl⟩ := hentry
    cases hused
  · rw [show (hashmap_reset lm).buckets.getD b none = none from getD_replicate _ _,
      show (hashmap.hashmap_reset m).buckets.getD b [] = [] from getD_replicate _ _]
    exact ⟨rfl, rfl⟩

theorem mirror_alloc (lm : hashmap_t κ β) (m : hashmap.hashmap_t κ β)
    (h : lm.factor = m.factor ∧ lm.hash_func = m.hash_func ∧ lm.equal_func = m.equal_func)
    (capacity : Nat) :
    Mirrors (hashmap_reset (hashmap_alloc lm capacity))
      (hashmap.hashmap_reset (hashmap.hashmap_alloc m capacity)) := by
  obtain ⟨hfactor, hhash, hequal⟩ := h
  refine mirror_reset ⟨rfl, hfactor, hhash, hequal, ?_⟩ List.length_replicate
  exact congrArg (fun factor : factor_t => (factor.times capacity).floor.toNat) hfactor

/-- What a search finds is the same used entry on both sides. -/
theorem mirror_found (h : Mirrors lm m) (ht : Tidy m) {key : κ} {i : Nat}
    (hfind : hashmap.hashmap_find m key
      (m.buckets.getD (m.hash_func key % m.bucket_num) []) = some i) :
    ∃ k v entry, m.entries.getD i none = some (k, v) ∧ lm.entries[i]? = some entry ∧
      entry.used = true ∧ entry.key_value = some (k, v) ∧
      i ∈ m.buckets.getD (m.hash_func key % m.bucket_num) [] := by
  have hmem := List.mem_of_find?_eq_some hfind
  obtain ⟨k, v, hslot, -⟩ := (ht.mem_chain _ (Nat.mod_lt _ ht.pos) i).mp hmem
  obtain ⟨entry, hentry, hused, hkey⟩ := h.used hslot
  exact ⟨k, v, entry, hslot, hentry, hused, hkey, hmem⟩

theorem mirror_get (h : Mirrors lm m) (ht : Tidy m) (key : κ) :
    hashmap_get lm key = hashmap.hashmap_get m key := by
  unfold hashmap_get hashmap.hashmap_get
  simp only [mirror_lookup h ht, bucket_eq ht, Option.bind_eq_bind, Option.bind_some]
  cases hfind : hashmap.hashmap_find m key
      (m.buckets.getD (m.hash_func key % m.bucket_num) []) with
  | none => rfl
  | some i =>
    obtain ⟨k, v, entry, hslot, hentry, -, hkey, -⟩ := mirror_found h ht hfind
    simp only [hentry, hkey, hslot, Option.bind_some]

theorem mirror_remove (h : Mirrors lm m) (ht : Tidy m) (key : κ) :
    ∃ removed lm' m', hashmap_remove lm key = some (removed, lm') ∧
      hashmap.hashmap_remove m key = some (removed, m') ∧ Mirrors lm' m' := by
  unfold hashmap_remove hashmap.hashmap_remove
  simp only [mirror_lookup h ht, bucket_eq ht, Option.bind_eq_bind, Option.bind_some]
  cases hfind : hashmap.hashmap_find m key
      (m.buckets.getD (m.hash_func key % m.bucket_num) []) with
  | none => exact ⟨none, lm, m, rfl, rfl, h⟩
  | some i =>
    obtain ⟨k, v, entry, hslot, hentry, -, hkey, hmem⟩ := mirror_found h ht hfind
    simp only [hentry, hkey, hslot, Option.bind_some]
    exact ⟨_, _, _, rfl, rfl, mirror_unlink h ht (Nat.mod_lt _ ht.pos) hmem hentry⟩

theorem mirror_put_room (h : Mirrors lm m) (ht : Tidy m) (hroom : m.size < m.bucket_num) (key : κ)
    (value : β) (fuel : Nat) : ∃ old lm' m', hashmap_put (fuel + 1) lm key value = some (old, lm') ∧
      hashmap.hashmap_put (fuel + 1) m key value = some (old, m') ∧ Mirrors lm' m' := by
  unfold hashmap_put hashmap.hashmap_put
  simp only [mirror_lookup h ht, bucket_eq ht, Option.bind_eq_bind, Option.bind_some]
  cases hfind : hashmap.hashmap_find m key
      (m.buckets.getD (m.hash_func key % m.bucket_num) []) with
  | some i =>
    obtain ⟨k, v, entry, hslot, hentry, hused, hkey, -⟩ := mirror_found h ht hfind
    simp only [hentry, hkey, hslot, Option.bind_some]
    exact ⟨_, _, _, rfl, rfl, mirror_revalued h hentry hused k value⟩
  | none =>
    have hensure : hashmap_ensure (hashmap_put fuel) fuel lm = some lm := by
      cases fuel <;> exact if_neg (Nat.not_le.mpr (by rwa [h.size, h.bucket_num]))
    have hensure' : hashmap.hashmap_ensure (hashmap.hashmap_put fuel) fuel m = some m := by
      cases fuel <;> exact if_neg (Nat.not_le.mpr hroom)
    obtain ⟨lm', m', hlink, hlink', hmirrors⟩ := mirror_link h ht hroom key value
    unfold hashmap_put_new hashmap.hashmap_put_new
    simp only [hensure, hensure', hlink, hlink', Option.bind_eq_bind, Option.bind_some]
    exact ⟨_, _, _, rfl, rfl, hmirrors⟩

/-- The loop that copies the old entries. -/
theorem mirror_put_all (h : Mirrors lm m) (ht : Tidy m) (entries : List (hashmap_entry_t κ β))
    (hwritten : ∀ entry ∈ entries, entry.used = true → entry.key_value.isSome)
    (hroom : m.size + (contents (entries.map slot)).length ≤ m.bucket_num) (fuel : Nat) :
    ∃ lm' m', entries.foldlM (fun map' entry =>
        if entry.used then do
          let (key, value) ← entry.key_value
          (hashmap_put (fuel + 1) map' key value).map Prod.snd
        else some map') lm = some lm' ∧
      (entries.map slot).foldlM (fun map' entry => match entry with
        | some (key, value) => (hashmap.hashmap_put (fuel + 1) map' key value).map Prod.snd
        | none => some map') m = some m' ∧
      Mirrors lm' m' := by
  induction entries generalizing lm m with
  | nil => exact ⟨lm, m, rfl, rfl, h⟩
  | cons entry entries ih =>
    have hwritten' : ∀ e ∈ entries, e.used = true → e.key_value.isSome :=
      fun e he => hwritten e (List.mem_cons_of_mem entry he)
    rw [List.foldlM_cons, List.map_cons, List.foldlM_cons]
    by_cases hused : entry.used = true
    · obtain ⟨⟨key, value⟩, hkey⟩ :=
        Option.isSome_iff_exists.mp (hwritten entry List.mem_cons_self hused)
      have hslot : slot entry = some (key, value) := by rw [slot, if_pos hused, hkey]
      have hcontents : contents ((entry :: entries).map slot) =
          (key, value) :: contents (entries.map slot) := by rw [List.map_cons, hslot]; rfl
      rw [hcontents, List.length_cons] at hroom
      obtain ⟨old, lm₁, m₁, hput, hput', hmirrors⟩ :=
        mirror_put_room h ht (by omega) key value fuel
      obtain ⟨_, _, hput₁, htidy, -, hsize, hbuckets⟩ :=
        tidy_put_room ht (by omega) key value fuel
      rw [hput'] at hput₁
      obtain ⟨rfl, rfl⟩ := Prod.mk.inj (Option.some.inj hput₁)
      simp only [hused, hslot, hkey, hput, hput', if_true, Option.map_some, Option.bind_eq_bind,
        Option.bind_some]
      exact ih hmirrors htidy hwritten' (by omega)
    · have hslot : slot entry = none := if_neg hused
      have hcontents : contents ((entry :: entries).map slot) = contents (entries.map slot) := by
        rw [List.map_cons, hslot]; rfl
      rw [hcontents] at hroom
      simp only [hused, hslot, if_false, Bool.false_eq_true, Option.bind_eq_bind, Option.bind_some]
      exact ih h ht hwritten' hroom

theorem mirror_grow (h : Mirrors lm m) (ht : Tidy m) (fuel : Nat) :
    ∃ lm' m', hashmap_grow (hashmap_put (fuel + 1)) lm = some lm' ∧
      hashmap.hashmap_grow (hashmap.hashmap_put (fuel + 1)) m = some m' ∧ Mirrors lm' m' := by
  have hdouble := bucket_num_double m.factor m.capacity
  rw [← ht.bucket_num] at hdouble
  have hpos := ht.pos
  have hroom := ht.room
  obtain ⟨htidy, -⟩ := tidy_empty m (fits_double ht.fits) (by omega)
  have hsize : (hashmap.hashmap_reset (hashmap.hashmap_alloc m (2 * m.capacity))).size = 0 := rfl
  have hbuckets : (hashmap.hashmap_reset (hashmap.hashmap_alloc m (2 * m.capacity))).bucket_num =
    (m.factor.times (2 * m.capacity)).floor.toNat := rfl
  have hlen : (contents (lm.entries.map slot)).length = m.size := by
    rw [← h.entries]
    exact ht.size.symm
  obtain ⟨lm', m', hrun, hrun', hmirrors⟩ :=
    mirror_put_all (mirror_alloc lm m ⟨h.factor, h.hash_func, h.equal_func⟩ (2 * m.capacity)) htidy
      lm.entries (fun entry hmem => by
        obtain ⟨i, hi⟩ := List.mem_iff_getElem?.mp hmem
        exact h.written i entry hi) (by omega) fuel
  rw [← h.entries] at hrun'
  refine ⟨lm', m', ?_, hrun', hmirrors⟩
  unfold hashmap_grow
  rw [h.capacity]
  exact hrun

theorem mirror_ensure (h : Mirrors lm m) (ht : Tidy m) (fuel : Nat) :
    ∃ lm' m', hashmap_ensure (hashmap_put (fuel + 1)) (fuel + 1) lm = some lm' ∧
      hashmap.hashmap_ensure (hashmap.hashmap_put (fuel + 1)) (fuel + 1) m = some m' ∧
      Mirrors lm' m' := by
  unfold hashmap_ensure hashmap.hashmap_ensure
  rw [h.size, h.bucket_num]
  by_cases hroom : m.size < m.bucket_num
  · rw [if_neg (Nat.not_le.mpr hroom), if_neg (Nat.not_le.mpr hroom)]
    exact ⟨lm, m, rfl, rfl, h⟩
  · obtain ⟨lm', m', hgrow, hgrow', hmirrors⟩ := mirror_grow h ht fuel
    obtain ⟨m₁, hgrow₁, -, -, hroom'⟩ := tidy_grow ht fuel
    obtain rfl := Option.some.inj (hgrow'.symm.trans hgrow₁)
    rw [if_pos (Nat.not_lt.mp hroom), if_pos (Nat.not_lt.mp hroom), hgrow, hgrow']
    refine ⟨lm', m', ?_, ?_, hmirrors⟩
    · cases fuel <;> exact if_neg (Nat.not_le.mpr (by rwa [hmirrors.size, hmirrors.bucket_num]))
    · cases fuel <;> exact if_neg (Nat.not_le.mpr hroom')

theorem mirror_put_new (h : Mirrors lm m) (ht : Tidy m) (key : κ) (value : β) (fuel : Nat) :
    ∃ lm' m', hashmap_put_new (hashmap_put (fuel + 1)) (fuel + 1) lm key value = some lm' ∧
      hashmap.hashmap_put_new (hashmap.hashmap_put (fuel + 1)) (fuel + 1) m key value = some m' ∧
      Mirrors lm' m' := by
  obtain ⟨lm₁, m₁, hensure, hensure', hmirrors⟩ := mirror_ensure h ht fuel
  obtain ⟨m₂, hensure₂, htidy, -, hroom⟩ := tidy_ensure ht fuel
  obtain rfl := Option.some.inj (hensure'.symm.trans hensure₂)
  unfold hashmap_put_new hashmap.hashmap_put_new
  simp only [hensure, hensure', Option.bind_eq_bind, Option.bind_some]
  exact mirror_link hmirrors htidy hroom key value

theorem mirror_put (h : Mirrors lm m) (ht : Tidy m) (key : κ) (value : β) (fuel : Nat) :
    ∃ old lm' m', hashmap_put (fuel + 2) lm key value = some (old, lm') ∧
      hashmap.hashmap_put (fuel + 2) m key value = some (old, m') ∧ Mirrors lm' m' := by
  unfold hashmap_put hashmap.hashmap_put
  simp only [mirror_lookup h ht, bucket_eq ht, Option.bind_eq_bind, Option.bind_some]
  cases hfind : hashmap.hashmap_find m key
      (m.buckets.getD (m.hash_func key % m.bucket_num) []) with
  | some i =>
    obtain ⟨k, v, entry, hslot, hentry, hused, hkey, -⟩ := mirror_found h ht hfind
    simp only [hentry, hkey, hslot, Option.bind_some]
    exact ⟨_, _, _, rfl, rfl, mirror_revalued h hentry hused k value⟩
  | none =>
    obtain ⟨lm', m', hnew, hnew', hmirrors⟩ := mirror_put_new h ht key value fuel
    simp only [hnew, hnew', Option.bind_some]
    exact ⟨_, _, _, rfl, rfl, hmirrors⟩

theorem mirror_put_if_absent (h : Mirrors lm m) (ht : Tidy m) (key : κ) (value : β) (fuel : Nat) :
    ∃ absent lm' m', hashmap_put_if_absent (fuel + 1) lm key value = some (absent, lm') ∧
      hashmap.hashmap_put_if_absent (fuel + 1) m key value = some (absent, m') ∧
      Mirrors lm' m' := by
  unfold hashmap_put_if_absent hashmap.hashmap_put_if_absent
  simp only [mirror_lookup h ht, bucket_eq ht, Option.bind_eq_bind, Option.bind_some]
  cases hfind : hashmap.hashmap_find m key
      (m.buckets.getD (m.hash_func key % m.bucket_num) []) with
  | some i => exact ⟨_, _, _, rfl, rfl, h⟩
  | none =>
    obtain ⟨lm', m', hnew, hnew', hmirrors⟩ := mirror_put_new h ht key value fuel
    simp only [hnew, hnew', Option.bind_some]
    exact ⟨_, _, _, rfl, rfl, hmirrors⟩

theorem mirror_clear (h : Mirrors lm m) (ht : Tidy m) :
    Mirrors (hashmap_clear lm) (hashmap.hashmap_clear m) := by
  unfold hashmap_clear hashmap.hashmap_clear
  rw [h.size]
  split
  · exact h
  · exact mirror_reset ⟨h.capacity, h.factor, h.hash_func, h.equal_func, h.bucket_num⟩
      (h.length.trans ht.entries)

/-! ## Iteration -/

theorem contents_drop {i : Nat} {entry : hashmap_entry_t κ β} (hentry : lm.entries[i]? = some entry) :
    contents ((lm.entries.drop i).map slot) =
      (slot entry).toList ++ contents ((lm.entries.drop (i + 1)).map slot) := by
  obtain ⟨hi, rfl⟩ := List.getElem?_eq_some_iff.mp hentry
  rw [List.drop_eq_getElem_cons hi, List.map_cons]
  cases slot lm.entries[i] <;> rfl

/-- The scan stops at the first used entry, or at the end when there is none left. -/
theorem find_valid_entry_spec (hlen : lm.entries.length = lm.capacity) {rest i : Nat}
    (hi : i + rest = lm.capacity) :
    (find_valid_entry lm rest i = lm.capacity ∧ contents ((lm.entries.drop i).map slot) = []) ∨
      ∃ j entry, find_valid_entry lm rest i = j ∧ lm.entries[j]? = some entry ∧
        entry.used = true ∧ contents ((lm.entries.drop i).map slot) =
          contents ((lm.entries.drop j).map slot) := by
  induction rest generalizing i with
  | zero =>
    refine Or.inl ⟨rfl, ?_⟩
    rw [List.drop_eq_nil_of_le (by omega)]
    rfl
  | succ rest ih =>
    have hlt : i < lm.entries.length := by omega
    have hentry := List.getElem?_eq_getElem hlt
    unfold find_valid_entry
    by_cases hused : lm.entries[i].used = true
    · rw [if_pos (by rw [hentry]; exact hused)]
      exact Or.inr ⟨i, _, rfl, hentry, hused, rfl⟩
    · have hskip : contents ((lm.entries.drop i).map slot) =
          contents ((lm.entries.drop (i + 1)).map slot) := by
        rw [contents_drop hentry, slot, if_neg hused]
        rfl
      rw [if_neg (by rw [hentry]; exact hused), hskip]
      exact ih (by omega)

theorem iterate_from (hlen : lm.entries.length = lm.capacity) (hwritten : Written lm.entries)
    {i fuel : Nat} (rest : Nat) (hi : i + rest = lm.capacity)
    (hfuel : (contents ((lm.entries.drop i).map slot)).length ≤ fuel) :
    hashmap_iterate lm fuel (find_valid_entry lm rest i) =
      some (contents ((lm.entries.drop i).map slot)) := by
  induction fuel generalizing rest i with
  | zero =>
    obtain ⟨hend, hnil⟩ | ⟨j, entry, -, hentry, hused, hsame⟩ := find_valid_entry_spec hlen hi
    · rw [hend, hnil]
      unfold hashmap_iterate
      exact if_pos rfl
    · obtain ⟨b, hb⟩ := Option.isSome_iff_exists.mp (hwritten j entry hentry hused)
      rw [hsame, contents_drop hentry, slot, if_pos hused, hb] at hfuel
      simp at hfuel
  | succ fuel ih =>
    obtain ⟨hend, hnil⟩ | ⟨j, entry, hstop, hentry, hused, hsame⟩ := find_valid_entry_spec hlen hi
    · rw [hend, hnil]
      unfold hashmap_iterate
      exact if_pos rfl
    · obtain ⟨b, hb⟩ := Option.isSome_iff_exists.mp (hwritten j entry hentry hused)
      have hj := (List.getElem?_eq_some_iff.mp hentry).1
      have hcontents : contents ((lm.entries.drop i).map slot) =
          b :: contents ((lm.entries.drop (j + 1)).map slot) := by
        rw [hsame, contents_drop hentry, slot, if_pos hused, hb]
        rfl
      rw [hcontents, List.length_cons] at hfuel
      have hrest := ih (i := j + 1) (lm.capacity - (j + 1)) (by omega) (by omega)
      have hne : j ≠ hashmap_end lm := by unfold hashmap_end; omega
      rw [hstop, hcontents]
      unfold hashmap_iterate hashmap_next
      rw [if_neg hne]
      simp only [if_neg hne, hentry, hused, not_true_eq_false, if_false, hb, Option.bind_eq_bind,
        Option.bind_some, Option.pure_def, hrest]

/-- From the beginning to the end, each binding is visited. -/
theorem mirror_iterate (h : Mirrors lm m) (ht : Tidy m) {fuel : Nat} (hfuel : m.size ≤ fuel) :
    hashmap_iterate lm fuel (hashmap_begin lm) = some (bindings m) := by
  have hlen : lm.entries.length = lm.capacity := by rw [h.length, ht.entries, h.capacity]
  have hbindings : contents ((lm.entries.drop 0).map slot) = bindings m := by
    rw [List.drop_zero, ← h.entries]
    rfl
  rw [← hbindings]
  refine iterate_from hlen h.written _ (Nat.zero_add _) ?_
  rw [hbindings, ← ht.size]
  exact hfuel

end

end nettle.linked
