-- A bounded priority queue, and the order of a binary heap: a tree on the
-- positions from 0 on, in which no key is below the key of its parent. A heap with
-- one fault is put in order by swaps along one path.
import Mathlib.Order.Basic
import Mathlib.Data.Multiset.AddSub
import Mathlib.Algebra.Order.Group.Multiset
import Mathlib.Logic.Equiv.Basic

namespace priority_queue

/-! ## The queue -/

section queue

variable {K V : Type*} [LinearOrder K]

inductive Op (K V : Type*) where
  | push (key : K) (value : V)
  | pop
  | head
  deriving DecidableEq

inductive Answer (K V : Type*) where
  | pushed (accepted : Bool)
  | popped (entry : Option (K × V))
  | head (entry : Option (K × V))
  deriving DecidableEq

/-- What the queue may answer. Of several entries with the least key, any may come first. -/
inductive Step (capacity : Nat) :
    Multiset (K × V) → Op K V → Answer K V → Multiset (K × V) → Prop where
  | accept {s key value} : s.card < capacity →
      Step capacity s (.push key value) (.pushed true) ((key, value) ::ₘ s)
  | refuse {s key value} : s.card = capacity →
      Step capacity s (.push key value) (.pushed false) s
  | pop {s entry} : (∀ other ∈ s, entry.1 ≤ other.1) →
      Step capacity (entry ::ₘ s) .pop (.popped (some entry)) s
  | pop_empty : Step capacity 0 .pop (.popped none) 0
  | head {s entry} : (∀ other ∈ s, entry.1 ≤ other.1) →
      Step capacity (entry ::ₘ s) .head (.head (some entry)) (entry ::ₘ s)
  | head_empty : Step capacity 0 .head (.head none) 0

inductive Run (capacity : Nat) :
    Multiset (K × V) → List (Op K V) → List (Answer K V) → Multiset (K × V) → Prop where
  | nil {s} : Run capacity s [] [] s
  | cons {s s' s'' op answer ops answers} : Step capacity s op answer s' →
      Run capacity s' ops answers s'' → Run capacity s (op :: ops) (answer :: answers) s''

/-- The entries that were accepted. -/
def pushed : List (Op K V) → List (Answer K V) → Multiset (K × V)
  | .push key value :: ops, .pushed true :: answers => (key, value) ::ₘ pushed ops answers
  | _ :: ops, _ :: answers => pushed ops answers
  | _, _ => 0

/-- The entries that were handed out. -/
def popped : List (Answer K V) → Multiset (K × V)
  | .popped (some entry) :: answers => entry ::ₘ popped answers
  | _ :: answers => popped answers
  | [] => 0

/-- What was there and what was accepted is what was handed out and what is there. -/
theorem Run.balance {capacity : Nat} {s s' : Multiset (K × V)} {ops : List (Op K V)}
    {answers : List (Answer K V)} (hrun : Run capacity s ops answers s') :
    s + pushed ops answers = s' + popped answers := by
  induction hrun with
  | nil => rfl
  | cons hstep hrun ih =>
    cases hstep <;> simp only [pushed, popped]
    case accept =>
      rw [← ih, Multiset.cons_add, Multiset.add_cons]
    case pop =>
      rw [Multiset.cons_add, Multiset.add_cons, ih]
    all_goals exact ih

end queue

/-! ## The tree -/

def left (n : Nat) : Nat := 2 * n + 1

def right (n : Nat) : Nat := 2 * n + 2

def parent (n : Nat) : Nat := (n - 1) / 2

theorem parent_lt {n : Nat} (h : 0 < n) : parent n < n := by
  unfold parent
  omega

theorem parent_eq_iff {n p : Nat} (h : 0 < n) : parent n = p ↔ n = left p ∨ n = right p := by
  unfold parent left right
  omega

/-! ## The order -/

section order

variable {K : Type*} [LinearOrder K]

/-- No key among the first `n` is below its parent's. -/
def Ordered (n : Nat) (k : Nat → K) : Prop :=
  ∀ i, 0 < i → i < n → k (parent i) ≤ k i

/-- The key at `p` may be too large: only the edges to its children may be out of order, and
the children may take its place. -/
structure FaultBelow (n : Nat) (k : Nat → K) (p : Nat) : Prop where
  edges : ∀ i, 0 < i → i < n → parent i ≠ p → k (parent i) ≤ k i
  children : 0 < p → ∀ i, 0 < i → i < n → parent i = p → k (parent p) ≤ k i

/-- The key at `p` may be too small: only the edge to its parent may be out of order, and the
parent may take its place. -/
structure FaultAbove (n : Nat) (k : Nat → K) (p : Nat) : Prop where
  edges : ∀ i, 0 < i → i < n → i ≠ p → k (parent i) ≤ k i
  children : 0 < p → ∀ i, 0 < i → i < n → parent i = p → k (parent p) ≤ k i

variable {n : Nat} {k : Nat → K} {p : Nat}

theorem Ordered.root_le (h : Ordered n k) {i : Nat} (hi : i < n) : k 0 ≤ k i := by
  induction i using Nat.strong_induction_on with
  | _ i ih =>
    rcases Nat.eq_zero_or_pos i with rfl | hpos
    · exact le_rfl
    · have hlt := parent_lt hpos
      exact (ih _ hlt (hlt.trans hi)).trans (h i hpos hi)

theorem Ordered.congr {k' : Nat → K} (h : Ordered n k) (hsame : ∀ i < n, k' i = k i) :
    Ordered n k' := by
  intro i hpos hi
  rw [hsame i hi, hsame _ ((parent_lt hpos).trans hi)]
  exact h i hpos hi

theorem Ordered.mono {m : Nat} (h : Ordered n k) (hm : m ≤ n) : Ordered m k := by
  intro i hpos hi
  exact h i hpos (by omega)

/-- A key at the end is a fault that only its parent may notice. -/
theorem Ordered.fault_above (h : Ordered n k) : FaultAbove (n + 1) k n where
  edges := by
    intro i hpos hi hne
    exact h i hpos (by omega)
  children := by
    intro _ i hpos hi hparent
    have hlt := parent_lt hpos
    omega

/-- A new key at the root is a fault that only its children may notice. -/
theorem Ordered.fault_below {k' : Nat → K} (h : Ordered n k) (hsame : ∀ i, 0 < i → i < n → k' i = k i) :
    FaultBelow n k' 0 where
  edges := by
    intro i hpos hi hne
    rw [hsame i hpos hi, hsame _ (by omega) ((parent_lt hpos).trans hi)]
    exact h i hpos hi
  children := by
    intro hzero
    omega

/-! ## Shifting down -/

theorem FaultBelow.ordered (h : FaultBelow n k p)
    (hchildren : ∀ i, 0 < i → i < n → parent i = p → k p ≤ k i) : Ordered n k := by
  intro i hpos hi
  by_cases hp : parent i = p
  · rw [hp]
    exact hchildren i hpos hi hp
  · exact h.edges i hpos hi hp

/-- The least child changes places with the key that is too large. -/
theorem FaultBelow.swap (h : FaultBelow n k p) {c : Nat} (hpos : 0 < c) (hc : c < n)
    (hparent : parent c = p) (hlt : k c < k p)
    (hleast : ∀ i, 0 < i → i < n → parent i = p → k c ≤ k i) :
    FaultBelow n (k ∘ Equiv.swap p c) c where
  edges := by
    intro i hi hin hne
    have hpc := parent_lt hpos
    simp only [Function.comp_apply]
    by_cases hip : parent i = p
    · rw [hip, Equiv.swap_apply_left]
      by_cases hic : i = c
      · rw [hic, Equiv.swap_apply_right]
        exact hlt.le
      · have hlt' := parent_lt hi
        rw [Equiv.swap_apply_of_ne_of_ne (by omega) hic]
        exact hleast i hi hin hip
    · rw [Equiv.swap_apply_of_ne_of_ne hip hne]
      by_cases hi_eq : i = p
      · rw [hi_eq, Equiv.swap_apply_left]
        exact h.children (by omega) c hpos hc hparent
      · rw [Equiv.swap_apply_of_ne_of_ne hi_eq (by rintro rfl; exact hip hparent)]
        exact h.edges i hi hin hip
  children := by
    intro _ i hi hin hic
    have hlt' := parent_lt hi
    have hpc := parent_lt hpos
    simp only [Function.comp_apply]
    rw [hparent, Equiv.swap_apply_left, Equiv.swap_apply_of_ne_of_ne (by omega) (by omega), ← hic]
    exact h.edges i hi hin (by omega)

/-! ## Shifting up -/

theorem FaultAbove.ordered (h : FaultAbove n k p) (hparent : 0 < p → k (parent p) ≤ k p) :
    Ordered n k := by
  intro i hpos hi
  by_cases hp : i = p
  · rw [hp]
    exact hparent (by omega)
  · exact h.edges i hpos hi hp

/-- The parent changes places with the key that is too small. -/
theorem FaultAbove.swap (h : FaultAbove n k p) (hpos : 0 < p) (hp : p < n)
    (hlt : k p < k (parent p)) : FaultAbove n (k ∘ Equiv.swap (parent p) p) (parent p) where
  edges := by
    intro i hi hin hne
    have hpp := parent_lt hpos
    simp only [Function.comp_apply]
    by_cases hip : i = p
    · rw [hip, Equiv.swap_apply_left, Equiv.swap_apply_right]
      exact hlt.le
    · rw [Equiv.swap_apply_of_ne_of_ne hne hip]
      by_cases hparent : parent i = parent p
      · rw [hparent, Equiv.swap_apply_left]
        exact hlt.le.trans (hparent ▸ h.edges i hi hin hip)
      · by_cases hchild : parent i = p
        · rw [hchild, Equiv.swap_apply_right]
          exact h.children hpos i hi hin hchild
        · rw [Equiv.swap_apply_of_ne_of_ne hparent hchild]
          exact h.edges i hi hin hip
  children := by
    intro hpos' i hi hin hparent
    have hpp := parent_lt hpos
    have hpp' := parent_lt hpos'
    have hgrand : k (parent (parent p)) ≤ k (parent p) :=
      h.edges _ hpos' (by omega) (by omega)
    simp only [Function.comp_apply]
    rw [Equiv.swap_apply_of_ne_of_ne (by omega) (by omega)]
    by_cases hip : i = p
    · rw [hip, Equiv.swap_apply_right]
      exact hgrand
    · have hlt' := parent_lt hi
      rw [Equiv.swap_apply_of_ne_of_ne (by omega) hip]
      exact hgrand.trans (hparent ▸ h.edges i hi hin hip)

end order

end priority_queue
