-- A block by itself at a receiver: which messages each of its packets brings
-- to light, and that none comes to light twice.
import Nettle.TunnelReceiver

namespace nettle.nt_rs_fec

/-! ## Packet by packet -/

/-- What a block that has the packets at the degrees `ds` makes of the packet at index `i`: the
messages that it brings to light, and the degrees from then on. -/
def block_step (N K : Nat) (ds : List Nat) (i : Nat) : List Nat × List Nat :=
  if ds.length = K ∨ N - 1 - i ∈ ds then ([], ds) else (brought N K ds i, (N - 1 - i) :: ds)

/-- The messages that each packet of a block brings to light. -/
def block_run (N K : Nat) : List Nat → List Nat → List (List Nat)
  | [], _ => []
  | i :: is, ds => (block_step N K ds i).1 :: block_run N K is (block_step N K ds i).2

/-- The degrees in the end. -/
def block_end (N K : Nat) (is ds : List Nat) : List Nat :=
  is.foldl (fun ds i => (block_step N K ds i).2) ds

/-- The messages of which the receiver knows: those that came, or all. -/
def known (N K : Nat) (ds : List Nat) : List Nat :=
  if ds.length = K then List.range K else (List.range K).filter fun j => N - 1 - j ∈ ds

section

variable {N K : Nat} {ds : List Nat}

theorem known_nil (hK : 1 ≤ K) : known N K [] = [] := by
  rw [known, if_neg (by rw [List.length_nil]; omega)]
  simp

theorem nodup_known (N K : Nat) (ds : List Nat) : (known N K ds).Nodup := by
  unfold known
  split
  · exact List.nodup_range
  · exact List.nodup_range.filter _

/-- A packet that is taken in. -/
theorem known_brought (hKN : K < N) (hroom : ds.length < K) {i : Nat} (hi : i < N)
    (hnew : N - 1 - i ∉ ds) :
    (known N K ((N - 1 - i) :: ds)).Perm (known N K ds ++ brought N K ds i) := by
  have hmine : ((List.range K).filter fun j => N - 1 - j ∈ (N - 1 - i) :: ds).Perm
      (((List.range K).filter fun j => N - 1 - j ∈ ds) ++ if i < K then [i] else []) := by
    refine (List.perm_ext_iff_of_nodup (List.nodup_range.filter _) ?_).mpr fun j => ?_
    · refine List.Nodup.append (List.nodup_range.filter _) (by split <;> simp) ?_
      intro j hj hj'
      split at hj'
      · rw [List.mem_singleton.mp hj'] at hj
        exact hnew (of_decide_eq_true (List.mem_filter.mp hj).2)
      · cases hj'
    · have hone : j ∈ (if i < K then [i] else []) ↔ j < K ∧ j = i := by
        split
        · rw [List.mem_singleton]
          omega
        · rw [iff_false_left List.not_mem_nil]
          omega
      have hdegree : j < K → (N - 1 - j = N - 1 - i ↔ j = i) := by omega
      rw [List.mem_append, hone, List.mem_filter, List.mem_filter, List.mem_range,
        decide_eq_true_eq, decide_eq_true_eq, List.mem_cons]
      constructor
      · rintro ⟨hj, heq | hmem⟩
        · exact Or.inr ⟨hj, (hdegree hj).mp heq⟩
        · exact Or.inl ⟨hj, hmem⟩
      · rintro (⟨hj, hmem⟩ | ⟨hj, heq⟩)
        · exact ⟨hj, Or.inr hmem⟩
        · exact ⟨hj, Or.inl ((hdegree hj).mpr heq)⟩
  rw [known, known, if_neg hroom.ne, brought, List.length_cons, ← List.append_assoc]
  by_cases hlast : ds.length + 1 = K
  · rw [if_pos hlast, if_pos hlast]
    have hall := List.filter_append_perm (fun j => decide (N - 1 - j ∈ (N - 1 - i) :: ds))
      (List.range K)
    simp only [← decide_not] at hall
    exact hall.symm.trans (hmine.append_right _)
  · rw [if_neg hlast, if_neg hlast, List.append_nil]
    exact hmine

/-- The degrees are distinct ones of packets that came, and none is left out while there is
room. -/
structure Taken (N K : Nat) (is ds : List Nat) : Prop where
  nodup : ds.Nodup
  le : ds.length ≤ K
  came : ∀ d ∈ ds, ∃ i ∈ is, d = N - 1 - i
  all : ds.length < K → ∀ i ∈ is, N - 1 - i ∈ ds

theorem taken_step {is : List Nat} (h : Taken N K is ds) (i : Nat) :
    Taken N K (is ++ [i]) (block_step N K ds i).2 := by
  unfold block_step
  split
  · next hskip =>
    refine ⟨h.nodup, h.le, fun d hd => ?_, fun hroom j hj => ?_⟩
    · obtain ⟨j, hj, rfl⟩ := h.came d hd
      exact ⟨j, List.mem_append_left _ hj, rfl⟩
    · rcases List.mem_append.mp hj with hj | hj
      · exact h.all hroom j hj
      · rw [List.mem_singleton.mp hj]
        exact hskip.resolve_left hroom.ne
  · next hnew =>
    rw [not_or] at hnew
    have hroom := lt_of_le_of_ne h.le hnew.1
    refine ⟨List.nodup_cons.mpr ⟨hnew.2, h.nodup⟩, hroom, fun d hd => ?_, fun hroom' j hj => ?_⟩
    · rcases List.mem_cons.mp hd with rfl | hd
      · exact ⟨i, by simp, rfl⟩
      · obtain ⟨j, hj, rfl⟩ := h.came d hd
        exact ⟨j, List.mem_append_left _ hj, rfl⟩
    · rcases List.mem_append.mp hj with hj | hj
      · exact List.mem_cons_of_mem _ (h.all hroom j hj)
      · rw [List.mem_singleton.mp hj]
        exact List.mem_cons_self

theorem taken_end {is : List Nat} (h : Taken N K is ds) (more : List Nat) :
    Taken N K (is ++ more) (block_end N K more ds) := by
  induction more generalizing is ds with
  | nil => rwa [List.append_nil]
  | cons i more ih =>
    have hnext := ih (taken_step h i)
    rwa [List.append_assoc, List.singleton_append] at hnext

/-- What a run brings to light is what is known in the end and was not before. -/
theorem known_run (hKN : K < N) {is : List Nat} (h : Taken N K is ds) (more : List Nat)
    (hmore : ∀ i ∈ more, i < N) :
    (known N K (block_end N K more ds)).Perm
      (known N K ds ++ (block_run N K more ds).flatten) := by
  induction more generalizing is ds with
  | nil => exact List.Perm.of_eq (List.append_nil _).symm
  | cons i more ih =>
    have hstep : (known N K (block_step N K ds i).2).Perm
        (known N K ds ++ (block_step N K ds i).1) := by
      unfold block_step
      split
      · exact List.Perm.of_eq (List.append_nil _).symm
      · next hnew =>
        rw [not_or] at hnew
        exact known_brought hKN (lt_of_le_of_ne h.le hnew.1) (hmore i List.mem_cons_self) hnew.2
    have hrun := ih (taken_step h i) fun j hj => hmore j (List.mem_cons_of_mem i hj)
    rw [block_run, List.flatten_cons, ← List.append_assoc]
    exact hrun.trans (hstep.append_right _)

/-- From the first packet on, a block of `m` messages brings no message to light twice, and each
one if K different packets come. -/
theorem block_run_spec (hK : 1 ≤ K) (hKN : K < N) {m : Nat} {is : List Nat}
    (his : ∀ i ∈ is, i < N) (hopen : m = K ∨ m < K ∧ ∀ i ∈ is, i < m) :
    (block_run N K is []).flatten.Nodup ∧ (∀ j ∈ (block_run N K is []).flatten, j < m) ∧
      (K ≤ is.dedup.length → m = K ∧ (block_run N K is []).flatten.Perm (List.range K)) := by
  have hnone : Taken N K [] [] := ⟨List.nodup_nil, Nat.zero_le K, nofun, nofun⟩
  have htaken : Taken N K is (block_end N K is []) := taken_end hnone is
  have hknown := known_run hKN hnone is his
  rw [known_nil hK, List.nil_append] at hknown
  have hcount : m < K → (block_end N K is []).length ≤ m := fun hlt => by
    have hsub : block_end N K is [] ⊆ (List.range m).map fun i => N - 1 - i := fun d hd => by
      obtain ⟨i, hi, rfl⟩ := htaken.came d hd
      rcases hopen with hfull | hopen
      · omega
      · exact List.mem_map_of_mem (List.mem_range.mpr (hopen.2 i hi))
    have hle := (List.subperm_of_subset htaken.nodup hsub).length_le
    rwa [List.length_map, List.length_range] at hle
  refine ⟨hknown.nodup_iff.mp (nodup_known N K _), fun j hj => ?_, fun hmany => ?_⟩
  · have hmem := hknown.mem_iff.mpr hj
    rcases hopen with rfl | ⟨hlt, hopen⟩
    · unfold known at hmem
      split at hmem
      · exact List.mem_range.mp hmem
      · exact List.mem_range.mp (List.mem_filter.mp hmem).1
    · have hle := hcount hlt
      rw [known, if_neg (by omega)] at hmem
      obtain ⟨hj, hd⟩ := List.mem_filter.mp hmem
      obtain ⟨i, hi, heq⟩ := htaken.came _ (of_decide_eq_true hd)
      have := hopen i hi
      rw [List.mem_range] at hj
      omega
  · have hfull : (block_end N K is []).length = K := by
      refine Nat.le_antisymm htaken.le (Nat.le_of_not_lt fun hlt => ?_)
      have hnodup : (is.dedup.map fun i => N - 1 - i).Nodup := by
        refine (List.nodup_map_iff_inj_on is.nodup_dedup).mpr fun i hi j hj heq => ?_
        have := his i (List.mem_dedup.mp hi)
        have := his j (List.mem_dedup.mp hj)
        omega
      have hsub : (is.dedup.map fun i => N - 1 - i) ⊆ block_end N K is [] := fun d hd => by
        obtain ⟨i, hi, rfl⟩ := List.mem_map.mp hd
        exact htaken.all hlt i (List.mem_dedup.mp hi)
      have hle := (List.subperm_of_subset hnodup hsub).length_le
      rw [List.length_map] at hle
      omega
    rw [known, if_pos hfull] at hknown
    refine ⟨?_, hknown.symm⟩
    rcases hopen with hm | ⟨hlt, -⟩
    · exact hm
    · have := hcount hlt
      omega

end

end nettle.nt_rs_fec
