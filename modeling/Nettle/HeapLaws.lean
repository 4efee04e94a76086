-- The laws of the heap (heap.c): it is a bounded priority queue, whatever calls are
-- made. The keys are in the order of a heap after each call, no slot behind the last
-- entry is read, and the loops end.
import Nettle.Heap

open priority_queue

namespace nettle.heap

variable {V : Type*}

/-! ## Keys at positions -/

/-- The key at a position, 0 behind the end. -/
def keyAt (buffer : List (entry_t V)) (i : Nat) : Int := (buffer.map (·.key)).getD i 0

theorem keyAt_eq {buffer : List (entry_t V)} {i : Nat} (h : i < buffer.length) :
    keyAt buffer i = buffer[i].key := by
  simp [keyAt, h]

theorem keyAt_append {buffer : List (entry_t V)} {i : Nat} (h : i < buffer.length)
    (more : List (entry_t V)) : keyAt (buffer ++ more) i = keyAt buffer i := by
  rw [keyAt_eq h, keyAt_eq (by simp; omega), List.getElem_append_left]

theorem keyAt_swap {buffer : List (entry_t V)} {i j : Nat} (hi : i < buffer.length)
    (hj : j < buffer.length) :
    keyAt ((buffer.set i buffer[j]).set j buffer[i]) = keyAt buffer ∘ Equiv.swap j i := by
  funext d
  simp only [Function.comp_apply, keyAt, List.map_set, List.getD_eq_getElem?_getD]
  by_cases hdj : d = j
  · subst hdj
    simp [hi, hj]
  · by_cases hdi : d = i
    · subst hdi
      rw [List.getElem?_set_ne (Ne.symm hdj)]
      simp [hi, hj]
    · rw [List.getElem?_set_ne (Ne.symm hdj), List.getElem?_set_ne (Ne.symm hdi),
        Equiv.swap_apply_of_ne_of_ne hdj hdi]

/-- The keys of the buffer are in the order of a heap. -/
def Sorted (buffer : List (entry_t V)) : Prop := Ordered buffer.length (keyAt buffer)

/-! ## The loops -/

theorem min_child_spec {buffer : List (entry_t V)} {n : Nat} (h : left n < buffer.length) :
    ∃ c, ∃ hc : c < buffer.length, min_child buffer (left n) (right n) = some (c, buffer[c]) ∧
      0 < c ∧ parent c = n ∧
      ∀ i, 0 < i → i < buffer.length → parent i = n → keyAt buffer c ≤ keyAt buffer i := by
  have hleft : 0 < left n := by simp [left]
  have hright : 0 < right n := by simp [right]
  have hparent_left := (parent_eq_iff hleft).mpr (Or.inl rfl)
  have hparent_right := (parent_eq_iff hright).mpr (Or.inr rfl)
  unfold min_child
  by_cases hr : right n < buffer.length
  · by_cases hlt : buffer[right n].key < buffer[left n].key
    · refine ⟨right n, hr, by simp [h, hr, hlt], hright, hparent_right, ?_⟩
      intro i hpos hi hparent
      rcases (parent_eq_iff hpos).mp hparent with rfl | rfl
      · rw [keyAt_eq hr, keyAt_eq hi]
        exact hlt.le
      · exact le_rfl
    · refine ⟨left n, h, by simp [h, hr, hlt], hleft, hparent_left, ?_⟩
      intro i hpos hi hparent
      rcases (parent_eq_iff hpos).mp hparent with rfl | rfl
      · exact le_rfl
      · rw [keyAt_eq h, keyAt_eq hi]
        exact not_lt.mp hlt
  · refine ⟨left n, h, by simp [h, hr], hleft, hparent_left, ?_⟩
    intro i hpos hi hparent
    rcases (parent_eq_iff hpos).mp hparent with rfl | rfl
    · exact le_rfl
    · exact absurd hi hr

/-- The fault goes down one level in each turn, so the loop ends in order. -/
theorem shift_down_spec (fuel : Nat) (buffer : List (entry_t V)) (n : Nat)
    (hfuel : buffer.length - n < fuel) (hfault : FaultBelow buffer.length (keyAt buffer) n) :
    ∃ buffer', shift_down fuel buffer n = some buffer' ∧ buffer'.Perm buffer ∧ Sorted buffer' := by
  induction fuel generalizing buffer n with
  | zero => omega
  | succ fuel ih =>
    unfold shift_down
    by_cases hleft : left n < buffer.length
    · obtain ⟨c, hc, hmin, hpos, hparent, hleast⟩ := min_child_spec hleft
      have hlt := parent_lt hpos
      have hn : n < buffer.length := by omega
      rw [if_neg (by omega), hmin, List.getElem?_eq_getElem hn]
      simp only [Option.bind_eq_bind, Option.bind_some]
      by_cases hle : buffer[n].key ≤ buffer[c].key
      · rw [if_pos hle]
        refine ⟨buffer, rfl, List.Perm.refl _, ?_⟩
        apply hfault.ordered
        intro i hpos' hi hparent'
        calc keyAt buffer n ≤ keyAt buffer c := by rw [keyAt_eq hn, keyAt_eq hc]; exact hle
          _ ≤ keyAt buffer i := hleast i hpos' hi hparent'
      · rw [if_neg hle]
        have hswap := hfault.swap hpos hc hparent
          (by rw [keyAt_eq hn, keyAt_eq hc]; exact not_le.mp hle) hleast
        rw [← keyAt_swap hc hn] at hswap
        obtain ⟨buffer', hshift, hperm, hsorted⟩ := ih ((buffer.set c buffer[n]).set n buffer[c]) c
          (by simp only [List.length_set]; omega) (by simpa using hswap)
        exact ⟨buffer', hshift, hperm.trans (List.set_set_perm hc hn), hsorted⟩
    · rw [if_pos (by omega)]
      refine ⟨buffer, rfl, List.Perm.refl _, ?_⟩
      apply hfault.ordered
      intro i hpos hi hparent
      have hchild := (parent_eq_iff hpos).mp hparent
      simp only [left, right] at hchild hleft
      omega

/-- The fault goes up one level in each turn. -/
theorem shift_up_spec (fuel : Nat) (buffer : List (entry_t V)) (n : Nat) (hfuel : n < fuel)
    (hn : n < buffer.length) (hfault : FaultAbove buffer.length (keyAt buffer) n) :
    ∃ buffer', shift_up fuel buffer n = some buffer' ∧ buffer'.Perm buffer ∧ Sorted buffer' := by
  induction fuel generalizing buffer n with
  | zero => omega
  | succ fuel ih =>
    unfold shift_up
    by_cases hpos : n > 0
    · have hlt := parent_lt hpos
      have hp : parent n < buffer.length := by omega
      rw [if_pos hpos, List.getElem?_eq_getElem hp, List.getElem?_eq_getElem hn]
      simp only [Option.bind_eq_bind, Option.bind_some]
      by_cases hle : buffer[parent n].key ≤ buffer[n].key
      · rw [if_pos hle]
        refine ⟨buffer, rfl, List.Perm.refl _, ?_⟩
        apply hfault.ordered
        intro _
        rw [keyAt_eq hp, keyAt_eq hn]
        exact hle
      · rw [if_neg hle]
        have hswap := hfault.swap hpos hn (by rw [keyAt_eq hp, keyAt_eq hn]; exact not_le.mp hle)
        rw [Equiv.swap_comm, ← keyAt_swap hp hn] at hswap
        obtain ⟨buffer', hshift, hperm, hsorted⟩ :=
          ih ((buffer.set (parent n) buffer[n]).set n buffer[parent n]) (parent n) (by omega)
            (by simpa using hp) (by simpa using hswap)
        exact ⟨buffer', hshift, hperm.trans (List.set_set_perm hp hn), hsorted⟩
    · rw [if_neg hpos]
      refine ⟨buffer, rfl, List.Perm.refl _, ?_⟩
      apply hfault.ordered
      intro hpos'
      exact absurd hpos' hpos

/-! ## The calls -/

/-- A heap in order that holds no more than its capacity. -/
structure Sound (heap : heap_t V) : Prop where
  sorted : Sorted heap.buffer
  fits : heap.buffer.length ≤ heap.capacity

theorem make_heap_sound (capacity : Nat) : Sound (make_heap capacity : heap_t V) where
  sorted := by
    intro i hpos hi
    exact absurd hi (Nat.not_lt_zero i)
  fits := Nat.zero_le capacity

theorem heap_push_full {heap : heap_t V} (h : heap.buffer.length = heap.capacity) (key : Int)
    (value : V) : heap_push heap key value = some (heap, false) := by
  unfold heap_push heap_size
  simp only [ge_iff_le, h, le_refl, if_true]

theorem heap_push_spec {heap : heap_t V} (h : Sound heap)
    (hroom : heap.buffer.length < heap.capacity) (key : Int) (value : V) :
    ∃ heap', heap_push heap key value = some (heap', true) ∧ Sound heap' ∧
      heap'.capacity = heap.capacity ∧ heap'.buffer.Perm (⟨key, value⟩ :: heap.buffer) := by
  have hsame : ∀ i < heap.buffer.length,
      keyAt (heap.buffer ++ [⟨key, value⟩]) i = keyAt heap.buffer i :=
    fun i hi => keyAt_append hi _
  obtain ⟨buffer, hshift, hperm, hsorted⟩ := shift_up_spec (heap.buffer.length + 1)
    (heap.buffer ++ [⟨key, value⟩]) heap.buffer.length (by omega) (by simp)
    (by simpa using (h.sorted.congr hsame).fault_above)
  have hlength := hperm.length_eq
  rw [List.length_append, List.length_singleton] at hlength
  refine ⟨{ heap with buffer }, ?_, ⟨hsorted, by simp only; omega⟩, rfl, ?_⟩
  · unfold heap_push heap_size
    simp only [ge_iff_le, not_le.mpr hroom, if_false, hshift]
    rfl
  · exact hperm.trans (List.perm_append_singleton _ _)

/-- The head has the least key. -/
theorem head_least {heap : heap_t V} (h : Sound heap) {head : entry_t V}
    {rest : List (entry_t V)} (hbuffer : heap.buffer = head :: rest) :
    ∀ entry ∈ heap.buffer, head.key ≤ entry.key := by
  intro entry hentry
  obtain ⟨i, hi, rfl⟩ := List.getElem_of_mem hentry
  have hle := h.sorted.root_le hi
  rw [keyAt_eq hi, keyAt_eq (by omega)] at hle
  simpa [hbuffer] using hle

/-- The head is taken out, the last entry put in its place and shifted down. -/
theorem heap_pop_spec {heap : heap_t V} (h : Sound heap) {head : entry_t V}
    {rest : List (entry_t V)} (hbuffer : heap.buffer = head :: rest) :
    ∃ heap', heap_pop heap = some (heap', some (head.key, head.value)) ∧ Sound heap' ∧
      heap'.capacity = heap.capacity ∧ (head :: heap'.buffer).Perm heap.buffer := by
  have hlast : heap.buffer[rest.length]? = some ((head :: rest)[rest.length]) := by
    rw [hbuffer]
    exact List.getElem?_eq_getElem (by simp)
  generalize hlast_eq : (head :: rest)[rest.length] = last at hlast
  have hmoved : (heap.buffer.set 0 last).take rest.length = (last :: rest).dropLast := by
    rw [hbuffer, List.set_cons_zero, List.dropLast_eq_take, List.length_cons, Nat.add_sub_cancel]
  have hperm_moved : (head :: (last :: rest).dropLast).Perm heap.buffer := by
    rw [hbuffer]
    apply List.Perm.cons
    rcases List.eq_nil_or_concat rest with rfl | ⟨rest', last', rfl⟩
    · exact List.Perm.refl _
    · have hsame : last' = last := by simpa using hlast_eq
      rw [List.concat_eq_append, hsame, ← List.cons_append, List.dropLast_concat]
      exact (List.perm_append_singleton _ _).symm
  have hlength_moved : (last :: rest).dropLast.length = rest.length := by simp
  have hfault : FaultBelow (last :: rest).dropLast.length (keyAt (last :: rest).dropLast) 0 := by
    apply Ordered.fault_below (k := keyAt heap.buffer)
    · apply Ordered.mono h.sorted
      rw [hlength_moved, hbuffer]
      simp
    · intro i hpos hi
      obtain ⟨j, rfl⟩ : ∃ j, i = j + 1 := ⟨i - 1, by omega⟩
      rw [hlength_moved] at hi
      rw [keyAt_eq (by omega), keyAt_eq (by rw [hbuffer, List.length_cons]; omega)]
      simp [hbuffer, List.getElem_dropLast]
  obtain ⟨buffer, hshift, hperm, hsorted⟩ := shift_down_spec (rest.length + 1)
    (last :: rest).dropLast 0 (by omega) hfault
  have hlength := hperm.length_eq
  have hfits := h.fits
  rw [hbuffer, List.length_cons] at hfits
  refine ⟨{ heap with buffer }, ?_, ⟨hsorted, by simp only; omega⟩, rfl, ?_⟩
  · have hsize : heap_size heap - 1 = rest.length := by simp [heap_size, hbuffer]
    have hhead : heap_head heap = some (head.key, head.value) := by
      unfold heap_head
      rw [hbuffer]
    unfold heap_pop
    simp only [hhead, hsize, hlast, hmoved, hshift, Option.bind_eq_bind, Option.bind_some]
    rfl
  · exact (hperm.cons head).trans hperm_moved

/-! ## The law of the heap -/

/-- The stored pairs. -/
def contents (heap : heap_t V) : Multiset (Int × V) :=
  (heap.buffer.map fun entry => (entry.key, entry.value) : List (Int × V))

theorem contents_card (heap : heap_t V) : (contents heap).card = heap.buffer.length := by
  simp [contents]

/-- Each call does what the queue may do. -/
theorem heap_call_spec {heap : heap_t V} (h : Sound heap) (op : Op Int V) :
    ∃ heap' answer, heap_call heap op = some (heap', answer) ∧ Sound heap' ∧
      heap'.capacity = heap.capacity ∧
      Step heap.capacity (contents heap) op answer (contents heap') := by
  cases op with
  | push key value =>
    rcases h.fits.lt_or_eq with hroom | hfull
    · obtain ⟨heap', hpush, hsound, hcapacity, hperm⟩ := heap_push_spec h hroom key value
      refine ⟨heap', .pushed true, by simp [heap_call, hpush], hsound, hcapacity, ?_⟩
      have hcontents : contents heap' = (key, value) ::ₘ contents heap :=
        Quot.sound (hperm.map _)
      rw [hcontents]
      exact .accept (by rwa [contents_card])
    · exact ⟨heap, .pushed false, by simp [heap_call, heap_push_full hfull], h, rfl,
        .refuse (by rwa [contents_card])⟩
  | pop =>
    cases hbuffer : heap.buffer with
    | nil =>
      refine ⟨heap, .popped none, by simp [heap_call, heap_pop, heap_head, hbuffer], h, rfl, ?_⟩
      have hcontents : contents heap = 0 := by simp [contents, hbuffer]
      rw [hcontents]
      exact .pop_empty
    | cons head rest =>
      obtain ⟨heap', hpop, hsound, hcapacity, hperm⟩ := heap_pop_spec h hbuffer
      refine ⟨heap', .popped (some (head.key, head.value)), by simp [heap_call, hpop], hsound,
        hcapacity, ?_⟩
      have hcontents : contents heap = (head.key, head.value) ::ₘ contents heap' :=
        Quot.sound (hperm.symm.map _)
      rw [hcontents]
      apply Step.pop
      intro other hother
      obtain ⟨entry, hentry, rfl⟩ := List.mem_map.mp (Multiset.mem_coe.mp hother)
      exact head_least h hbuffer entry (hperm.mem_iff.mp (List.mem_cons_of_mem _ hentry))
  | head =>
    cases hbuffer : heap.buffer with
    | nil =>
      refine ⟨heap, .head none, by simp [heap_call, heap_head, hbuffer], h, rfl, ?_⟩
      have hcontents : contents heap = 0 := by simp [contents, hbuffer]
      rw [hcontents]
      exact .head_empty
    | cons head rest =>
      refine ⟨heap, .head (some (head.key, head.value)), by simp [heap_call, heap_head, hbuffer],
        h, rfl, ?_⟩
      have hcontents : contents heap = (head.key, head.value) ::ₘ
          (rest.map fun entry => (entry.key, entry.value) : List (Int × V)) := by
        simp [contents, hbuffer]
      rw [hcontents]
      apply Step.head
      intro other hother
      obtain ⟨entry, hentry, rfl⟩ := List.mem_map.mp (Multiset.mem_coe.mp hother)
      exact head_least h hbuffer entry (by simp [hbuffer, hentry])

theorem heap_run_spec {heap : heap_t V} (h : Sound heap) (ops : List (Op Int V)) :
    ∃ heap' answers, heap_run heap ops = some (heap', answers) ∧ Sound heap' ∧
      heap'.capacity = heap.capacity ∧
      Run heap.capacity (contents heap) ops answers (contents heap') := by
  induction ops generalizing heap with
  | nil => exact ⟨heap, [], rfl, h, rfl, .nil⟩
  | cons op ops ih =>
    obtain ⟨heap₁, answer, hcall, hsound₁, hcapacity₁, hstep⟩ := heap_call_spec h op
    obtain ⟨heap₂, answers, hrun, hsound₂, hcapacity₂, hsteps⟩ := ih hsound₁
    rw [hcapacity₁] at hcapacity₂ hsteps
    exact ⟨heap₂, answer :: answers, by simp [heap_run, hcall, hrun], hsound₂, hcapacity₂,
      .cons hstep hsteps⟩

/-- Every sequence of calls on a new heap runs to its end, and the answers are those of a queue
with the given capacity: a push is refused exactly if the queue is full, a pop and a look at the
head give an entry with the least key, and nothing exactly if the queue is empty. The entries
stored are those accepted and not handed out, and a refused push leaves the heap as it is. -/
theorem the_heap_is_a_priority_queue (capacity : Nat) (ops : List (Op Int V)) :
    ∃ heap answers, heap_run (make_heap capacity) ops = some (heap, answers) ∧
      Run capacity 0 ops answers (contents heap) ∧
      pushed ops answers = contents heap + popped answers ∧
      ∀ key value, heap_push heap key value = some (heap, false) ↔
        (contents heap).card = capacity := by
  obtain ⟨heap, answers, hrun, hsound, hcapacity, hsteps⟩ :=
    heap_run_spec (make_heap_sound capacity) ops
  change heap.capacity = capacity at hcapacity
  refine ⟨heap, answers, hrun, hsteps, ?_, ?_⟩
  · have hbalance := hsteps.balance
    rwa [show contents (make_heap capacity) = (0 : Multiset (Int × V)) from rfl, zero_add]
      at hbalance
  · intro key value
    rw [contents_card, ← hcapacity]
    constructor
    · intro hpush
      by_contra hne
      obtain ⟨heap', hpush', -⟩ :=
        heap_push_spec hsound (lt_of_le_of_ne hsound.fits hne) key value
      rw [hpush'] at hpush
      simp at hpush
    · intro hfull
      exact heap_push_full hfull key value

end nettle.heap
