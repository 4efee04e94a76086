-- The n-th smallest of a list, counted from 1, and where it is when the list is parted around
-- one of its elements.
import Mathlib.Data.List.Sort

namespace order_statistic

variable {α : Type*} [LinearOrder α]

def nthSmallest (l : List α) (n : Nat) : Option α := (l.mergeSort (· ≤ ·))[n - 1]?

theorem nthSmallest_perm {l l' : List α} (h : l.Perm l') (n : Nat) :
    nthSmallest l n = nthSmallest l' n := by
  have hperm := (List.mergeSort_perm l (· ≤ ·)).trans (h.trans (List.mergeSort_perm l' (· ≤ ·)).symm)
  unfold nthSmallest
  rw [hperm.eq_of_pairwise' (List.pairwise_mergeSort' (· ≤ ·) l) (List.pairwise_mergeSort' _ l')]

theorem nthSmallest_singleton (x : α) : nthSmallest [x] 1 = some x := by
  simp [nthSmallest]

section

variable {below above : List α} {pivot : α} (hbelow : ∀ x ∈ below, x ≤ pivot)
  (habove : ∀ x ∈ above, pivot ≤ x)

include hbelow habove

/-- The parts are sorted one by one. -/
theorem mergeSort_parts : (below ++ pivot :: above).mergeSort (· ≤ ·) =
    below.mergeSort (· ≤ ·) ++ pivot :: above.mergeSort (· ≤ ·) := by
  have hperm : (below.mergeSort (· ≤ ·) ++ pivot :: above.mergeSort (· ≤ ·)).Perm
      (below ++ pivot :: above) :=
    (List.mergeSort_perm below _).append ((List.mergeSort_perm above _).cons pivot)
  have hsorted : (below.mergeSort (· ≤ ·) ++ pivot :: above.mergeSort (· ≤ ·)).Pairwise (· ≤ ·) := by
    rw [List.pairwise_append, List.pairwise_cons]
    refine ⟨List.pairwise_mergeSort' (· ≤ ·) below, ⟨?_, List.pairwise_mergeSort' (· ≤ ·) above⟩, ?_⟩
    · intro x hx
      exact habove x (List.mem_mergeSort.mp hx)
    · intro x hx y hy
      have hx := hbelow x (List.mem_mergeSort.mp hx)
      rcases List.mem_cons.mp hy with rfl | hy
      · exact hx
      · exact hx.trans (habove y (List.mem_mergeSort.mp hy))
  exact ((List.mergeSort_perm _ _).trans hperm.symm).eq_of_pairwise'
    (List.pairwise_mergeSort' (· ≤ ·) _) hsorted

theorem nthSmallest_below {n : Nat} (hn : 1 ≤ n ∧ n ≤ below.length) :
    nthSmallest (below ++ pivot :: above) n = nthSmallest below n := by
  unfold nthSmallest
  rw [mergeSort_parts hbelow habove, List.getElem?_append_left]
  rw [List.length_mergeSort]
  omega

theorem nthSmallest_pivot :
    nthSmallest (below ++ pivot :: above) (below.length + 1) = some pivot := by
  unfold nthSmallest
  rw [mergeSort_parts hbelow habove, List.getElem?_append_right (by simp)]
  simp

theorem nthSmallest_above {n : Nat} (hn : below.length + 1 < n) :
    nthSmallest (below ++ pivot :: above) n = nthSmallest above (n - below.length - 1) := by
  unfold nthSmallest
  rw [mergeSort_parts hbelow habove, List.getElem?_append_right (by simp; omega),
    List.length_mergeSort, show n - 1 - below.length = n - below.length - 1 - 1 + 1 by omega,
    List.getElem?_cons_succ]

end

end order_statistic
