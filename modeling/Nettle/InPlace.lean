-- Arrays as lists that a loop writes in place, one entry for each turn.
import Mathlib

namespace in_place

variable {α : Type*} {d : α}

theorem getD_set_self {l : List α} {i : Nat} {x : α} (h : i < l.length) :
    (l.set i x).getD i d = x := by
  simp [h]

theorem getD_set_ne {l : List α} {i j : Nat} {x : α} (h : i ≠ j) :
    (l.set i x).getD j d = l.getD j d := by
  simp [h]

theorem getD_modify {l : List α} {i : Nat} {f : α → α} (h : i < l.length) (j : Nat) :
    (l.modify i f).getD j d = if j = i then f (l.getD j d) else l.getD j d := by
  by_cases hj : j = i
  · subst hj
    simp [h]
  · simp [Ne.symm hj, hj]

theorem length_foldl_set (f : Nat → List α → α) (ns : List Nat) (l : List α) :
    (ns.foldl (fun l i => l.set i (f i l)) l).length = l.length := by
  induction ns generalizing l with
  | nil => rfl
  | cons n ns ih => rw [List.foldl_cons, ih, List.length_set]

/-- A loop that goes up through an array, where each turn writes its own entry and reads none
before it: the entries it passed are what they would be on the first array, the rest are as
they were. -/
theorem getD_foldl_set (f : Nat → List α → α) (l : List α)
    (hf : ∀ i l', (∀ j, i ≤ j → l'.getD j d = l.getD j d) → f i l' = f i l)
    (n : Nat) (hn : n ≤ l.length) (i : Nat) :
    ((List.range n).foldl (fun l i => l.set i (f i l)) l).getD i d =
      if i < n then f i l else l.getD i d := by
  induction n generalizing i with
  | zero => simp
  | succ n ih =>
    have ih := ih (by omega)
    rw [List.range_succ, List.foldl_append, List.foldl_cons, List.foldl_nil]
    have hlen := length_foldl_set f (List.range n) l
    have hval : f n ((List.range n).foldl (fun l i => l.set i (f i l)) l) = f n l := by
      apply hf
      intro j hj
      rw [ih j, if_neg (by omega)]
    rw [hval]
    by_cases hi : i = n
    · subst hi
      rw [getD_set_self (by omega), if_pos (by omega)]
    · rw [getD_set_ne (Ne.symm hi), ih i]
      by_cases hlt : i < n
      · rw [if_pos hlt, if_pos (by omega)]
      · rw [if_neg hlt, if_neg (by omega)]

theorem getD_replicate (n i : Nat) : (List.replicate n d).getD i d = d := by
  by_cases h : i < n
  · simp [h]
  · rw [List.getD_eq_default _ _ (by simpa using h)]

theorem map_getD_range (l : List α) (d : α) :
    ((List.range l.length).map fun i => l.getD i d) = l :=
  List.ext_getElem (by simp) fun i _ hi => by simp [hi]

end in_place
