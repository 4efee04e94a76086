-- Which tables can be used at all. A table with a bucket never divides by
-- zero and comes back from every call, whatever the hash function and the
-- comparison do; a table without one only bears to be cleared.
import Nettle.TableLevels

open slots rounding nettle.hashmap

namespace nettle.linked

variable {κ β : Type}

/-! ## Tables without a bucket -/

/-- A key leads to no bucket: the remainder by zero stops the program. -/
theorem call_fails {table : hashmap_t κ β} (h : table.bucket_num = 0) {call : operation κ β}
    (hcall : call ≠ .clear) (fuel : Nat) : hashmap_call fuel table call = none := by
  have hlookup : ∀ key, hashmap_lookup table key = none := fun key => by
    unfold hashmap_lookup hashmap_bucket
    rw [if_pos h]
    rfl
  cases call with
  | put key value =>
    have hput : hashmap_put fuel table key value = none := by
      cases fuel with
      | zero => rfl
      | succ fuel => unfold hashmap_put; rw [hlookup]; rfl
    simp only [hashmap_call, hput, Option.bind_eq_bind, Option.bind_none]
  | put_if_absent key value =>
    have hput : hashmap_put_if_absent fuel table key value = none := by
      unfold hashmap_put_if_absent; rw [hlookup]; rfl
    simp only [hashmap_call, hput, Option.bind_eq_bind, Option.bind_none]
  | get key =>
    have hget : hashmap_get table key = none := by
      unfold hashmap_get; rw [hlookup]; rfl
    simp only [hashmap_call, hget, Option.bind_eq_bind, Option.bind_none]
  | remove key =>
    have hremove : hashmap_remove table key = none := by
      unfold hashmap_remove; rw [hlookup]; rfl
    simp only [hashmap_call, hremove, Option.bind_eq_bind, Option.bind_none]
  | clear => exact absurd rfl hcall

theorem run_of_bare {table : hashmap_t κ β} (hbuckets : table.bucket_num = 0)
    (hsize : table.size = 0) (fuel : Nat) (calls : List (operation κ β)) :
    (∃ outcomes table', hashmap_run fuel calls table = some (outcomes, table')) ↔
      ∀ call ∈ calls, call = .clear := by
  induction calls with
  | nil => exact iff_of_true ⟨[], table, rfl⟩ nofun
  | cons call calls ih =>
    rw [List.forall_mem_cons, ← ih]
    by_cases hclear : call = .clear
    · subst hclear
      have hsame : hashmap_clear table = table := if_pos hsize
      have hstep : hashmap_run fuel (.clear :: calls) table =
          (hashmap_run fuel calls table).bind fun run =>
            some ((.cleared, table.size) :: run.1, run.2) := by
        rw [hashmap_run]
        simp only [hashmap_call, hsame, Option.bind_eq_bind, Option.bind_some]
        rfl
      simp only [hstep, true_and, Option.bind_eq_some_iff, Option.some.injEq, Prod.mk.injEq]
      refine ⟨?_, ?_⟩
      · rintro ⟨_, _, ⟨outcomes, table'⟩, hrun, -⟩
        exact ⟨outcomes, table', hrun⟩
      · rintro ⟨outcomes, table', hrun⟩
        exact ⟨_, _, (outcomes, table'), hrun, rfl, rfl⟩
    · refine iff_of_false ?_ fun h => hclear h.1
      rintro ⟨_, _, hrun⟩
      unfold hashmap_run at hrun
      rw [call_fails hbuckets hclear] at hrun
      cases hrun

/-! ## Which is which -/

theorem table_works_iff (hash_func : κ → Nat) (equal_func : κ → κ → Bool) {capacity : Nat}
    {factor : factor_t} (hfactor : 0 < factor.value ∧ factor.value ≤ 1)
    (hfits : factor.times capacity ≤ capacity) (fuel : Nat) (calls : List (operation κ β)) :
    ∃ table, hashmap_init capacity factor hash_func equal_func = some table ∧
      ((∃ outcomes table', hashmap_run (fuel + 2) calls table = some (outcomes, table')) ↔
        1 ≤ (factor.times capacity).floor ∨ ∀ call ∈ calls, call = .clear) := by
  by_cases hfloor : 1 ≤ (factor.times capacity).floor
  · obtain ⟨table, m, hinit, -, hmirrors, htidy⟩ :=
      mirror_init (β := β) hash_func equal_func hfactor hfits hfloor
    obtain ⟨outcomes, table', m', hrun, -⟩ := mirror_run hmirrors htidy fuel calls
    exact ⟨table, hinit, iff_of_true ⟨outcomes, table', hrun⟩ (Or.inl hfloor)⟩
  · refine ⟨_, if_pos hfactor, ?_⟩
    rw [or_iff_right hfloor]
    refine run_of_bare ?_ rfl (fuel + 2) calls
    change (factor.times capacity).floor.toNat = 0
    omega

/-- A table with some capacity and factor can be used exactly if it has a bucket, which the
rounded product decides, and the table of an LRU map exactly if it has room for two; without a
bucket it can only be cleared. A double holds any capacity that there is memory for. -/
theorem tables_are_usable_iff (hash_func : κ → Nat) (equal_func : κ → κ → Bool)
    {capacity : Nat} (hcapacity : capacity ≤ 2 ^ 53) {factor : ℚ}
    (hfactor : 0 < factor ∧ factor ≤ 1) (fuel : Nat) (calls : List (operation κ β))
    (calls' : List (operation κ Nat)) :
    (∃ table, hashmap_init capacity (double_factor factor) hash_func equal_func = some table ∧
      ((∃ outcomes table', hashmap_run (fuel + 2) calls table = some (outcomes, table')) ↔
        1 ≤ (product 53 capacity factor).floor ∨ ∀ call ∈ calls, call = .clear)) ∧
    ∃ map : lrumap_t κ β, lrumap_init1 capacity hash_func equal_func = some map ∧
      ((∃ outcomes table', hashmap_run (fuel + 2) calls' map.map = some (outcomes, table')) ↔
        2 ≤ capacity ∨ ∀ call ∈ calls', call = .clear) := by
  have hfits : (double_factor factor).times capacity ≤ capacity :=
    product_le (by norm_num) hcapacity ⟨hfactor.1.le, hfactor.2⟩
  refine ⟨table_works_iff hash_func equal_func hfactor hfits fuel calls, ?_⟩
  obtain ⟨table, hinit, hworks⟩ := table_works_iff hash_func equal_func
    (by change 0 < (3 / 4 : ℚ) ∧ (3 / 4 : ℚ) ≤ 1; norm_num) (three_quarters_fit capacity) fuel calls'
  obtain ⟨heap, hheap, -⟩ := init_lists capacity
  refine ⟨{ map := table, heap, capacity, entries := List.replicate capacity none }, ?_, ?_⟩
  · unfold lrumap_init1 lrumap_init
    simp only [hinit, hheap, Option.bind_eq_bind, Option.bind_some]
    rfl
  · rw [hworks, three_quarters]

theorem tables_are_usable_two : ∃ map : lrumap_t Nat Nat,
    lrumap_init1 2 naive_hash_func naive_equal_func = some map ∧
      ∃ outcomes table', hashmap_run 2 [.put 1 10, .get 1] map.map = some (outcomes, table') := by
  obtain ⟨-, map, hinit, hworks⟩ := tables_are_usable_iff (β := Nat) naive_hash_func
    naive_equal_func (by norm_num : 2 ≤ 2 ^ 53) (by norm_num : (0 : ℚ) < 1 ∧ (1 : ℚ) ≤ 1) 0 []
    [.put 1 10, .get 1]
  exact ⟨map, hinit, hworks.mpr (Or.inl (le_refl 2))⟩

-- The double next to a third is below it, but three times it is rounded up to one.
example : (product 53 3 (6004799503160661 / 2 ^ 54)).floor = 1 := by decide +kernel

/-- A capacity of one leaves no bucket: the first key put, looked up or removed divides by zero,
in the table and in the LRU map. -/
theorem one_entry_divides_by_zero : ∃ (table : hashmap_t Nat Nat) (map : lrumap_t Nat Nat),
    hashmap_init 1 (double_factor (3 / 4)) naive_hash_func naive_equal_func = some table ∧
      table.bucket_num = 0 ∧
      (∀ fuel, hashmap_run fuel [.put 7 70] table = none ∧ hashmap_run fuel [.get 7] table = none) ∧
      lrumap_init1 1 naive_hash_func naive_equal_func = some map ∧
      lrumap_put map 7 70 = none ∧ lrumap_get map 7 = none := by
  obtain ⟨table, hinit, hbuckets⟩ : ∃ table : hashmap_t Nat Nat,
      hashmap_init 1 (double_factor (3 / 4)) naive_hash_func naive_equal_func = some table ∧
        table.bucket_num = 0 := by
    refine ⟨_, if_pos ?_, ?_⟩
    · change 0 < (3 / 4 : ℚ) ∧ (3 / 4 : ℚ) ≤ 1
      norm_num
    · decide +kernel
  have hfails : ∀ (fuel : Nat) (call : operation Nat Nat), call ≠ .clear →
      hashmap_run fuel [call] table = none := fun fuel call hcall => by
    unfold hashmap_run
    rw [call_fails hbuckets hcall]
    rfl
  have hlru : (do
      let map ← lrumap_init1 (κ := Nat) (β := Nat) 1 naive_hash_func naive_equal_func
      return ((lrumap_put map 7 70).isNone ∧ (lrumap_get map 7).isNone : Bool)) = some true := by
    decide +kernel
  simp only [Option.bind_eq_bind, Option.bind_eq_some_iff, Option.pure_def, Option.some.injEq,
    decide_eq_true_eq, Option.isNone_iff_eq_none] at hlru
  obtain ⟨map, hmap, hput, hget⟩ := hlru
  exact ⟨table, map, hinit, hbuckets, fun fuel => ⟨hfails fuel _ nofun, hfails fuel _ nofun⟩, hmap,
    hput, hget⟩

end nettle.linked
