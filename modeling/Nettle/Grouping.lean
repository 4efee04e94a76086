-- Lists taken apart and put together again: by the key of each entry, or by
-- cutting them into pieces of one length.
import Mathlib

namespace grouping

variable {α β γ : Type*}

/-- One list gets something put before it. -/
theorem flatMap_cons_perm [DecidableEq β] {keys : List β} (hnodup : keys.Nodup) {k : β}
    (hk : k ∈ keys) (x : List γ) (g : β → List γ) :
    (keys.flatMap fun k' => if k = k' then x ++ g k' else g k').Perm (x ++ keys.flatMap g) := by
  induction keys with
  | nil => exact absurd hk List.not_mem_nil
  | cons k₀ keys ih =>
    obtain ⟨hnot, hnodup⟩ := List.nodup_cons.mp hnodup
    rw [List.flatMap_cons, List.flatMap_cons]
    by_cases heq : k = k₀
    · subst heq
      have hrest : (keys.flatMap fun k' => if k = k' then x ++ g k' else g k') = keys.flatMap g := by
        refine List.flatMap_congr fun k' hk' => if_neg ?_
        rintro rfl
        exact hnot hk'
      rw [if_pos rfl, hrest, List.append_assoc]
    · rw [if_neg heq]
      have hrest := ih hnodup ((List.mem_cons.mp hk).resolve_left heq)
      refine (hrest.append_left (g k₀)).trans ?_
      rw [← List.append_assoc, ← List.append_assoc]
      exact List.perm_append_comm.append_right _

/-- The entries of each key one key after the other are all entries. -/
theorem groups_perm [DecidableEq β] (key : α → β) (f : α → List γ) {keys : List β}
    (hnodup : keys.Nodup) {l : List α} (hall : ∀ a ∈ l, key a ∈ keys) :
    (keys.flatMap fun k => (l.filter fun a => key a = k).flatMap f).Perm (l.flatMap f) := by
  induction l with
  | nil => simp
  | cons a l ih =>
    obtain ⟨ha, hall⟩ := List.forall_mem_cons.mp hall
    have hcons : (keys.flatMap fun k => ((a :: l).filter fun a => key a = k).flatMap f) =
        keys.flatMap fun k => if key a = k then f a ++ (l.filter fun a => key a = k).flatMap f
          else (l.filter fun a => key a = k).flatMap f := by
      refine List.flatMap_congr fun k _ => ?_
      by_cases hk : key a = k <;> simp [hk]
    rw [hcons, List.flatMap_cons]
    exact (flatMap_cons_perm hnodup ha _ _).trans ((ih hall).append_left _)

theorem flatMap_subperm {l : List α} {f g : α → List β} (h : ∀ a ∈ l, List.Subperm (f a) (g a)) :
    List.Subperm (l.flatMap f) (l.flatMap g) := by
  induction l with
  | nil => exact List.Subperm.refl _
  | cons a l ih =>
    obtain ⟨ha, h⟩ := List.forall_mem_cons.mp h
    exact ha.append (ih h)

theorem filterMap_subperm (f : α → Option β) {l l' : List α} (h : List.Subperm l l') :
    List.Subperm (l.filterMap f) (l'.filterMap f) := by
  obtain ⟨part, hperm, hsublist⟩ := h
  exact ⟨part.filterMap f, hperm.filterMap f, hsublist.filterMap f⟩

/-- The first pieces of a list. -/
theorem flatMap_pieces (K : Nat) (l : List α) (n : Nat) :
    ((List.range n).flatMap fun b => (l.drop (b * K)).take K) = l.take (n * K) := by
  induction n with
  | zero => simp
  | succ n ih =>
    rw [List.range_succ, List.flatMap_append, ih, List.flatMap_singleton, Nat.succ_mul,
      List.take_add]

end grouping
