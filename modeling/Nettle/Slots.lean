-- Arrays of places that are used or free, and what the used ones hold.
import Nettle.InPlace

open in_place

namespace slots

variable {α : Type*} {l : List (Option α)} {i : Nat} {x : α}

/-- What the used places hold, in order. -/
def contents (l : List (Option α)) : List α := l.reduceOption

theorem getD_eq_some : l.getD i none = some x ↔ l[i]? = some (some x) := by
  rw [List.getD_eq_getElem?_getD]
  cases l[i]? with
  | none => simp
  | some o => simp

theorem lt_of_getD (h : l.getD i none = some x) : i < l.length :=
  (List.getElem?_eq_some_iff.mp (getD_eq_some.mp h)).1

theorem mem_contents : x ∈ contents l ↔ ∃ i, l.getD i none = some x := by
  rw [contents, List.reduceOption_mem_iff, List.mem_iff_getElem?]
  simp only [getD_eq_some]

@[simp] theorem contents_replicate (n : Nat) :
    contents (List.replicate n none : List (Option α)) = [] :=
  List.reduceOption_replicate_none

/-- A free place is taken. -/
theorem contents_set_some (hi : i < l.length) (h : l.getD i none = none) :
    (contents (l.set i (some x))).Perm (x :: contents l) := by
  induction l generalizing i with
  | nil => simp at hi
  | cons o l ih =>
    rcases i with _ | i
    · obtain rfl : o = none := h
      exact List.Perm.refl _
    · have hrest := ih (Nat.lt_of_succ_lt_succ hi) h
      cases o with
      | none => exact hrest
      | some y => exact (hrest.cons y).trans (List.Perm.swap x y _)

/-- A place is freed. -/
theorem contents_set_none (h : l.getD i none = some x) :
    (contents l).Perm (x :: contents (l.set i none)) := by
  have hi := lt_of_getD h
  have hfree : (l.set i none).getD i none = none := getD_set_self hi
  have hback := contents_set_some (x := x) (by rwa [List.length_set]) hfree
  rw [List.set_set] at hback
  convert hback
  exact (List.set_getElem_self hi).symm.trans (by
    rw [Option.some.inj ((List.getElem?_eq_getElem hi).symm.trans (getD_eq_some.mp h))])

/-- Another entry, what stands for it changes from `f old` to `f new`. -/
theorem flatMap_set {β : Type*} {entries : List β} {f : β → List α} {i : Nat} {old : β}
    (hi : entries[i]? = some old) (new : β) :
    (f old ++ (entries.set i new).flatMap f).Perm (f new ++ entries.flatMap f) := by
  induction entries generalizing i with
  | nil => cases hi
  | cons entry entries ih =>
    cases i with
    | zero =>
      obtain rfl := Option.some.inj hi
      rw [List.set_cons_zero, List.flatMap_cons, List.flatMap_cons, ← List.append_assoc,
        ← List.append_assoc]
      exact List.perm_append_comm.append_right _
    | succ i =>
      have hrest := ih hi
      rw [List.set_cons_succ, List.flatMap_cons, List.flatMap_cons]
      refine List.Perm.trans ?_ ((hrest.append_left (f entry)).trans ?_)
      · rw [← List.append_assoc, ← List.append_assoc]
        exact List.perm_append_comm.append_right _
      · rw [← List.append_assoc, ← List.append_assoc]
        exact List.perm_append_comm.append_right _

theorem contents_map {β : Type*} (entries : List β) (f : β → Option α) :
    contents (entries.map f) = entries.flatMap fun entry => (f entry).toList := by
  induction entries with
  | nil => rfl
  | cons entry entries ih =>
    rw [List.map_cons, List.flatMap_cons, ← ih]
    cases f entry <;> rfl

theorem contents_map_set {β : Type*} {entries : List β} {f : β → Option α} {i : Nat} {old : β}
    (hi : entries[i]? = some old) (new : β) :
    ((f old).toList ++ contents ((entries.set i new).map f)).Perm
      ((f new).toList ++ contents (entries.map f)) := by
  rw [contents_map, contents_map]
  exact flatMap_set (f := fun entry => (f entry).toList) hi new

/-- Without a free place the array is full. -/
theorem length_contents_of_full (h : ∀ i < l.length, l.getD i none ≠ none) :
    (contents l).length = l.length := by
  induction l with
  | nil => rfl
  | cons o l ih =>
    have hrest := ih fun i hi => h (i + 1) (Nat.succ_lt_succ hi)
    cases o with
    | none => exact absurd rfl (h 0 (Nat.zero_lt_succ _))
    | some y => exact congrArg Nat.succ hrest

theorem contents_pairwise {r : α → α → Prop} (h : ∀ i j x y, i < j → l.getD i none = some x →
    l.getD j none = some y → r x y) : (contents l).Pairwise r := by
  induction l with
  | nil => exact List.Pairwise.nil
  | cons o l ih =>
    have hrest := ih fun i j x y hlt hx hy => h (i + 1) (j + 1) x y (Nat.succ_lt_succ hlt) hx hy
    cases o with
    | none => exact hrest
    | some x =>
      refine List.pairwise_cons.mpr ⟨fun y hy => ?_, hrest⟩
      obtain ⟨j, hj⟩ := mem_contents.mp hy
      exact h 0 (j + 1) x y (Nat.zero_lt_succ j) rfl hj

end slots
