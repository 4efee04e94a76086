-- The intrusive lists of list.h: each list is two cells of its own, a head
-- and a tail, with the links of its entries between them. A pointer is a
-- cell, NULL is `none`; the result `none` is a failed `ensure` or the use of
-- a NULL pointer.
import Nettle.DoublyLinked

open doubly_linked

namespace nettle.list

/-- The fields `prev` and `next` of every cell. -/
structure links (P : Type) where
  prev : P → Option P
  next : P → Option P

structure list_t (P : Type) where
  head : P
  tail : P

variable {P : Type}

section

variable [DecidableEq P]

def set_prev (heap : links P) (cell : P) (prev : Option P) : links P :=
  { heap with prev := Function.update heap.prev cell prev }

def set_next (heap : links P) (cell : P) (next : Option P) : links P :=
  { heap with next := Function.update heap.next cell next }

def list_init (heap : links P) (list : list_t P) : links P :=
  let heap := set_prev heap list.head none
  let heap := set_next heap list.head (some list.tail)
  let heap := set_prev heap list.tail (some list.head)
  set_next heap list.tail none

def list_push_front (heap : links P) (list : list_t P) (entry : P) : Option (links P) := do
  let heap := set_prev heap entry (some list.head)
  let heap := set_next heap entry (heap.next list.head)
  let heap := set_next heap list.head (some entry)
  let next ← heap.next entry
  return set_prev heap next (some entry)

def list_push_back (heap : links P) (list : list_t P) (entry : P) : Option (links P) := do
  let heap := set_prev heap entry (heap.prev list.tail)
  let heap := set_next heap entry (some list.tail)
  let heap := set_prev heap list.tail (some entry)
  let prev ← heap.prev entry
  return set_next heap prev (some entry)

def list_remove (heap : links P) (entry : P) : Option (links P) :=
  if (heap.next entry).isSome ∧ (heap.prev entry).isSome then do
    let next ← heap.next entry
    let heap := set_prev heap next (heap.prev entry)
    let prev ← heap.prev entry
    let heap := set_next heap prev (heap.next entry)
    return set_next (set_prev heap entry none) entry none
  else none

def list_pop_back (heap : links P) (list : list_t P) : Option (P × links P) := do
  let entry ← heap.prev list.tail
  let heap ← list_remove heap entry
  return (entry, heap)

def list_peek_back (heap : links P) (list : list_t P) : Option P := do
  let entry ← heap.prev list.tail
  if (heap.next entry).isSome ∧ (heap.prev entry).isSome then return entry else none

end

/-! ## The cells of a list -/

/-- The cells of a list with its head and its tail. -/
def whole (list : list_t P) (cells : List P) : List P := list.head :: (cells ++ [list.tail])

/-- Between the head and the tail of the list are these cells, each once. -/
structure Chained (heap : links P) (list : list_t P) (cells : List P) : Prop where
  segment : Segment heap.prev heap.next none (some list.head) (whole list cells) (some list.tail) none
  nodup : (whole list cells).Nodup

/-- Two heaps are the same outside of these cells. -/
def Apart (heap heap' : links P) (cells : List P) : Prop :=
  ∀ p, p ∉ cells → heap'.prev p = heap.prev p ∧ heap'.next p = heap.next p

section

variable {heap heap' : links P} {list : list_t P} {cells : List P} {entry : P}

/-- What happens elsewhere leaves a list as it is. -/
theorem Chained.frame (h : Chained heap list cells) {touched : List P}
    (hapart : Apart heap heap' touched) (hout : ∀ p ∈ whole list cells, p ∉ touched) :
    Chained heap' list cells :=
  ⟨h.segment.congr (fun p hp => (hapart p (hout p hp)).1) fun p hp => (hapart p (hout p hp)).2,
    h.nodup⟩

/-- The head leads to the first cell. -/
theorem Chained.next_head (h : Chained heap list cells) :
    heap.next list.head = (cells ++ [list.tail]).head? := by
  have hfirst := h.segment.2.2.first_eq
  rwa [if_neg (by simp)] at hfirst

/-- The tail points back to the last cell. -/
theorem Chained.prev_tail (h : Chained heap list cells) :
    heap.prev list.tail = (list.head :: cells).getLast? := by
  obtain ⟨q, m, h₁, -, hq, -⟩ := segment_append.mp
    (show Segment heap.prev heap.next none (some list.head) ((list.head :: cells) ++ [list.tail])
      (some list.tail) none from h.segment)
  rw [hq, h₁.last_eq, if_neg (List.cons_ne_nil _ _)]

theorem list_peek_back_spec (h : Chained heap list (cells ++ [entry])) :
    list_peek_back heap list = some entry := by
  have htail : heap.prev list.tail = some entry := by
    rw [h.prev_tail, ← List.cons_append, List.getLast?_concat]
  have hwhole : whole list (cells ++ [entry]) = (list.head :: cells) ++ entry :: [list.tail] := by
    simp [whole]
  have hsegment := h.segment
  rw [hwhole] at hsegment
  obtain ⟨hprev, hnext⟩ := hsegment.neighbours
  rw [if_neg (List.cons_ne_nil _ _), List.getLast?_eq_getLast_of_ne_nil (List.cons_ne_nil _ _)]
    at hprev
  unfold list_peek_back
  simp [htail, hprev, hnext]

variable [DecidableEq P]

theorem chained_init (h : list.head ≠ list.tail) : Chained (list_init heap list) list [] := by
  refine ⟨⟨rfl, ?_, ?_, ?_, ?_, rfl⟩, by simpa [whole] using h⟩ <;>
    simp [list_init, set_prev, set_next, h]

theorem apart_init : Apart heap (list_init heap list) (whole list []) := by
  intro p hp
  have hhead : p ≠ list.head := fun heq => hp (by simp [whole, heq])
  have htail : p ≠ list.tail := fun heq => hp (by simp [whole, heq])
  simp [list_init, set_prev, set_next, hhead, htail]

theorem list_push_front_spec (h : Chained heap list cells) (hnew : entry ∉ whole list cells) :
    ∃ heap', list_push_front heap list entry = some heap' ∧ Chained heap' list (entry :: cells) ∧
      Apart heap heap' (entry :: whole list cells) := by
  have hhead : entry ≠ list.head := fun heq => hnew (heq ▸ List.mem_cons_self)
  obtain ⟨n, hn, hmem⟩ : ∃ n, heap.next list.head = some n ∧ n ∈ cells ++ [list.tail] := by
    rw [h.next_head]
    cases cells with
    | nil => exact ⟨_, rfl, by simp⟩
    | cons c cells => exact ⟨_, rfl, by simp⟩
  have hentry : entry ≠ n := fun heq => hnew (heq ▸ List.mem_cons_of_mem _ hmem)
  refine ⟨⟨Function.update (Function.update heap.prev entry (some list.head)) n (some entry),
    Function.update (Function.update heap.next entry (some n)) list.head (some entry)⟩, ?_,
    ⟨?_, ?_⟩, fun p hp => ?_⟩
  · unfold list_push_front set_prev set_next
    simp [hn, hhead]
  · have hfirst : Segment heap.prev heap.next none (some list.head) [list.head] (some list.head)
        (some n) := ⟨rfl, h.segment.2.1, hn, rfl⟩
    have hrest : Segment heap.prev heap.next (some list.head) (some n) (cells ++ [list.tail])
        (some list.tail) none := hn ▸ h.segment.2.2
    have hinsert := hfirst.insert (c := entry)
      (Function.update (Function.update heap.prev entry (some list.head)) n (some entry))
      (Function.update (Function.update heap.next entry (some n)) list.head (some entry))
      hrest h.nodup (by simp [hentry]) (by simp [hhead]) (fun d hd => ?_) (fun d hd => ?_)
      (fun _ _ => nofun) fun _ _ => nofun
    · rw [if_neg (List.cons_ne_nil _ _), if_neg (by simp)] at hinsert
      exact hinsert
    · have hne : d ≠ entry := fun heq => hnew (heq ▸ hd)
      simp only [Function.update_apply, hne, if_false, Option.some.injEq, eq_comm (a := n)]
    · have hne : d ≠ entry := fun heq => hnew (heq ▸ hd)
      simp only [Function.update_apply, hne, if_false, Option.some.injEq, eq_comm (a := list.head)]
  · have hperm : (whole list (entry :: cells)).Perm (entry :: whole list cells) :=
      List.Perm.swap entry list.head _
    exact hperm.nodup_iff.mpr (List.nodup_cons.mpr ⟨hnew, h.nodup⟩)
  · rw [List.mem_cons, not_or] at hp
    have hpn : p ≠ n := fun heq => hp.2 (heq ▸ List.mem_cons_of_mem _ hmem)
    have hph : p ≠ list.head := fun heq => hp.2 (heq ▸ List.mem_cons_self)
    simp only [Function.update_apply, hpn, hph, hp.1, if_false, and_self]

theorem list_push_back_spec (h : Chained heap list cells) (hnew : entry ∉ whole list cells) :
    ∃ heap', list_push_back heap list entry = some heap' ∧ Chained heap' list (cells ++ [entry]) ∧
      Apart heap heap' (entry :: whole list cells) := by
  have htail : entry ≠ list.tail := fun heq => hnew (by simp [whole, heq])
  obtain ⟨n, hn, hmem⟩ : ∃ n, heap.prev list.tail = some n ∧ n ∈ list.head :: cells := by
    rw [h.prev_tail]
    exact ⟨_, List.getLast?_eq_getLast_of_ne_nil (List.cons_ne_nil _ _), List.getLast_mem _⟩
  have hmem' : n ∈ whole list cells := List.mem_append_left [list.tail] hmem
  have hentry : entry ≠ n := fun heq => hnew (heq ▸ hmem')
  refine ⟨⟨Function.update (Function.update heap.prev entry (some n)) list.tail (some entry),
    Function.update (Function.update heap.next entry (some list.tail)) n (some entry)⟩, ?_,
    ⟨?_, ?_⟩, fun p hp => ?_⟩
  · unfold list_push_back set_prev set_next
    simp [hn, htail]
  · obtain ⟨q, m, hfirst, hm, hq, hrest⟩ := segment_append.mp
      (show Segment heap.prev heap.next none (some list.head) ((list.head :: cells) ++ [list.tail])
        (some list.tail) none from h.segment)
    obtain rfl : q = some n := hq.symm.trans hn
    obtain rfl := hm
    have hlast : Segment heap.prev heap.next (some n) (some list.tail) [list.tail] (some list.tail)
        none := ⟨rfl, hq, hrest⟩
    have hinsert := hfirst.insert (c := entry)
      (Function.update (Function.update heap.prev entry (some n)) list.tail (some entry))
      (Function.update (Function.update heap.next entry (some list.tail)) n (some entry))
      hlast h.nodup (by simp [htail]) (by simp [hentry]) (fun d hd => ?_)
      (fun d hd => ?_) (fun _ _ => nofun) fun _ _ => nofun
    · rw [if_neg (List.cons_ne_nil _ _), if_neg (List.cons_ne_nil _ _)] at hinsert
      have hwhole : whole list (cells ++ [entry]) = list.head :: cells ++ [entry, list.tail] := by
        simp [whole]
      rw [hwhole]
      exact hinsert
    · have hne : d ≠ entry := fun heq => hnew (heq ▸ hd)
      simp only [Function.update_apply, hne, if_false, Option.some.injEq, eq_comm (a := list.tail)]
    · have hne : d ≠ entry := fun heq => hnew (heq ▸ hd)
      simp only [Function.update_apply, hne, if_false, Option.some.injEq, eq_comm (a := n)]
  · have hperm : (whole list (cells ++ [entry])).Perm (entry :: whole list cells) := by
      unfold whole
      rw [List.append_assoc]
      exact (List.perm_middle.cons list.head).trans (List.Perm.swap entry list.head _)
    exact hperm.nodup_iff.mpr (List.nodup_cons.mpr ⟨hnew, h.nodup⟩)
  · rw [List.mem_cons, not_or] at hp
    have hpn : p ≠ n := fun heq => hp.2 (heq ▸ hmem')
    have hpt : p ≠ list.tail := fun heq => hp.2 (by simp [whole, heq])
    simp only [Function.update_apply, hpn, hpt, hp.1, if_false, and_self]

theorem list_remove_spec {before after : List P} (h : Chained heap list (before ++ entry :: after)) :
    ∃ heap', list_remove heap entry = some heap' ∧ Chained heap' list (before ++ after) ∧
      Apart heap heap' (whole list (before ++ entry :: after)) := by
  have hwhole : whole list (before ++ entry :: after) =
      (list.head :: before) ++ entry :: (after ++ [list.tail]) := by simp [whole]
  have hrest : whole list (before ++ after) = (list.head :: before) ++ (after ++ [list.tail]) := by
    simp [whole]
  have hsegment := h.segment
  have hnodup := h.nodup
  rw [hwhole] at hsegment hnodup
  have hperm : ((list.head :: before) ++ entry :: (after ++ [list.tail])).Perm
      (entry :: whole list (before ++ after)) := hrest ▸ List.perm_middle
  obtain ⟨hnot, hnodup'⟩ := List.nodup_cons.mp (hperm.nodup_iff.mp hnodup)
  obtain ⟨p, hp, hpmem⟩ : ∃ p, (list.head :: before).getLast? = some p ∧ p ∈ list.head :: before :=
    ⟨_, List.getLast?_eq_getLast_of_ne_nil (List.cons_ne_nil _ _), List.getLast_mem _⟩
  obtain ⟨n, hn, hnmem⟩ : ∃ n, (after ++ [list.tail]).head? = some n ∧ n ∈ after ++ [list.tail] := by
    cases after with
    | nil => exact ⟨_, rfl, by simp⟩
    | cons c after => exact ⟨_, rfl, by simp⟩
  have hpne : p ≠ entry := fun heq => hnot (by rw [hrest, ← heq]; exact List.mem_append_left _ hpmem)
  have hnne : n ≠ entry := fun heq =>
    hnot (by rw [hrest, ← heq]; exact List.mem_append_right _ hnmem)
  obtain ⟨hprev, hnext⟩ := hsegment.neighbours
  rw [if_neg (List.cons_ne_nil _ _), hp] at hprev
  rw [if_neg (by simp), hn] at hnext
  refine ⟨⟨Function.update (Function.update heap.prev n (some p)) entry none,
    Function.update (Function.update heap.next p (some n)) entry none⟩, ?_, ⟨?_, hnodup'⟩,
    fun c hc => ?_⟩
  · unfold list_remove set_prev set_next
    simp [hprev, hnext, hnne.symm]
  · have hremoved := hsegment.remove
      (Function.update (Function.update heap.prev n (some p)) entry none)
      (Function.update (Function.update heap.next p (some n)) entry none) hnodup
      (fun d hd => ?_) (fun d hd => ?_) (fun _ _ => nofun) fun _ _ => nofun
    · rw [if_neg (List.cons_ne_nil _ _), if_neg (by simp), ← hrest] at hremoved
      exact hremoved
    · have hne : d ≠ entry := fun heq => hnot (by rw [hrest, ← heq]; exact hd)
      simp only [Function.update_apply, hne, if_false, hprev, hnext, Option.some.injEq,
        eq_comm (a := n)]
    · have hne : d ≠ entry := fun heq => hnot (by rw [hrest, ← heq]; exact hd)
      simp only [Function.update_apply, hne, if_false, hprev, hnext, Option.some.injEq,
        eq_comm (a := p)]
  · rw [hwhole] at hc
    have hce : c ≠ entry := fun heq => hc (by simp [heq])
    have hcp : c ≠ p := fun heq => hc (List.mem_append_left _ (heq ▸ hpmem))
    have hcn : c ≠ n := fun heq =>
      hc (List.mem_append_right _ (List.mem_cons_of_mem _ (heq ▸ hnmem)))
    simp only [Function.update_apply, hce, hcp, hcn, if_false, and_self]

/-- The last cell is taken off. -/
theorem list_pop_back_spec (h : Chained heap list (cells ++ [entry])) :
    ∃ heap', list_pop_back heap list = some (entry, heap') ∧ Chained heap' list cells ∧
      Apart heap heap' (whole list (cells ++ [entry])) := by
  obtain ⟨heap', hremove, hchained, hapart⟩ := list_remove_spec h
  have htail : heap.prev list.tail = some entry := by
    rw [h.prev_tail, ← List.cons_append, List.getLast?_concat]
  rw [List.append_nil] at hchained
  refine ⟨heap', ?_, hchained, hapart⟩
  unfold list_pop_back
  simp only [htail, hremove, Option.bind_eq_bind, Option.bind_some]
  rfl

end

end nettle.list
