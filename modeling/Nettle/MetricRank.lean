-- The law of the query of the metric (metric.c): quick selection in place gives the n-th smallest
-- of the data, stays within them, and loses none.
import Nettle.Metric
import Nettle.OrderStatistic

open order_statistic

namespace nettle.metric

/-! ## The loop -/

/-- Of the first `i` values those before `wi` are below the pivot, and the others are not. -/
structure Parted (pivot : Int) (i wi : Nat) (data : List Int) : Prop where
  below : ∀ k x, k < wi → data[k]? = some x → x < pivot
  above : ∀ k x, wi ≤ k → k < i → data[k]? = some x → pivot ≤ x

/-- A value that is not below the pivot stays where it is. -/
theorem Parted.stay {pivot : Int} {i wi : Nat} {data : List Int} (h : Parted pivot i wi data)
    (hi : i < data.length) (hge : ¬data[i] < pivot) : Parted pivot (i + 1) wi data where
  below := h.below
  above := by
    intro k x hwi hk hx
    rcases Nat.lt_succ_iff_lt_or_eq.mp hk with hk | rfl
    · exact h.above k x hwi hk hx
    · rw [List.getElem?_eq_getElem hi, Option.some.injEq] at hx
      omega

/-- A value below the pivot changes places with the first one that is not. -/
theorem Parted.swap {pivot : Int} {i wi : Nat} {data : List Int} (h : Parted pivot i wi data)
    (hwi : wi ≤ i) (hi : i < data.length) (hw : wi < data.length) (hlt : data[i] < pivot) :
    Parted pivot (i + 1) (wi + 1) ((data.set wi data[i]).set i data[wi]) where
  below := by
    intro k x hk hx
    by_cases hki : k = i
    · obtain rfl : wi = i := by omega
      subst hki
      rw [List.getElem?_set_self (by simpa using hi), Option.some.injEq] at hx
      exact hx ▸ hlt
    · rw [List.getElem?_set_ne (Ne.symm hki)] at hx
      by_cases hkw : k = wi
      · subst hkw
        rw [List.getElem?_set_self hw, Option.some.injEq] at hx
        exact hx ▸ hlt
      · rw [List.getElem?_set_ne (Ne.symm hkw)] at hx
        exact h.below k x (by omega) hx
  above := by
    intro k x hwk hk hx
    by_cases hki : k = i
    · subst hki
      rw [List.getElem?_set_self (by simpa using hi), Option.some.injEq] at hx
      exact h.above wi x le_rfl (by omega) (hx ▸ List.getElem?_eq_getElem hw)
    · rw [List.getElem?_set_ne (Ne.symm hki), List.getElem?_set_ne (by omega)] at hx
      exact h.above k x (by omega) (by omega) hx

/-- The loop swaps, and leaves what is behind it. -/
theorem partition_loop_spec (pivot : Int) (rest i wi : Nat) (data : List Int)
    (hlen : i + rest ≤ data.length) (hwi : wi ≤ i) (h : Parted pivot i wi data) :
    ∃ data' wi', partition_loop pivot rest i wi data = some (data', wi') ∧ data'.Perm data ∧
      wi' ≤ i + rest ∧ Parted pivot (i + rest) wi' data' ∧
      ∀ k, i + rest ≤ k → data'[k]? = data[k]? := by
  induction rest generalizing i wi data with
  | zero => exact ⟨data, wi, rfl, List.Perm.refl _, hwi, h, fun k _ => rfl⟩
  | succ rest ih =>
    have hi : i < data.length := by omega
    have hw : wi < data.length := by omega
    unfold partition_loop
    rw [List.getElem?_eq_getElem hi, List.getElem?_eq_getElem hw, show i + (rest + 1) =
      i + 1 + rest by omega]
    simp only [Option.bind_eq_bind, Option.bind_some]
    by_cases hlt : data[i] < pivot
    · rw [if_pos hlt]
      obtain ⟨data', wi', hloop, hperm, hle, hparted, hsame⟩ := ih (i + 1) (wi + 1)
        ((data.set wi data[i]).set i data[wi]) (by simp only [List.length_set]; omega) (by omega)
        (h.swap hwi hi hw hlt)
      refine ⟨data', wi', hloop, hperm.trans (List.set_set_perm hw hi), hle, hparted, ?_⟩
      intro k hk
      rw [hsame k hk, List.getElem?_set_ne (by omega), List.getElem?_set_ne (by omega)]
    · rw [if_neg hlt]
      exact ih (i + 1) wi data (by omega) (by omega) (h.stay hi hlt)

/-- With the pivot between them the data are in two parts. -/
theorem Parted.parts {pivot : Int} {last wi : Nat} {data : List Int} (h : Parted pivot last wi data)
    (hlength : data.length = last + 1) (hwi : wi ≤ last) (hlast : data[last]? = some pivot) :
    ∃ t below above, data[wi]? = some t ∧
      (data.set last t).set wi pivot = below ++ pivot :: above ∧ below.length = wi ∧
      (∀ x ∈ below, x < pivot) ∧ (∀ x ∈ above, pivot ≤ x) ∧
      (below ++ pivot :: above).Perm data := by
  have hw : wi < data.length := by omega
  obtain ⟨hlt, hget⟩ := List.getElem?_eq_some_iff.mp hlast
  have hswap := List.set_set_perm hlt hw
  rw [hget] at hswap
  have hsplit : (data.set last data[wi]).set wi pivot =
      (data.set last data[wi]).take wi ++ pivot :: (data.set last data[wi]).drop (wi + 1) := by
    rw [List.set_eq_take_append_cons_drop, if_pos (by simpa using hw)]
  refine ⟨data[wi], _, _, List.getElem?_eq_getElem hw, hsplit, ?_, ?_, ?_, hsplit ▸ hswap⟩
  · rw [List.length_take, List.length_set]
    omega
  · intro x hx
    obtain ⟨k, hk⟩ := List.mem_iff_getElem?.mp hx
    rw [List.getElem?_take] at hk
    split at hk
    · next hkw =>
      rw [List.getElem?_set_ne (by omega)] at hk
      exact h.below k x hkw hk
    · cases hk
  · intro x hx
    obtain ⟨k, hk⟩ := List.mem_iff_getElem?.mp hx
    rw [List.getElem?_drop] at hk
    by_cases hkl : wi + 1 + k = last
    · rw [hkl, List.getElem?_set_self hlt, Option.some.injEq] at hk
      exact h.above wi x le_rfl (by omega) (hk ▸ List.getElem?_eq_getElem hw)
    · rw [List.getElem?_set_ne (Ne.symm hkl)] at hk
      obtain ⟨hk', -⟩ := List.getElem?_eq_some_iff.mp hk
      exact h.above _ x (by omega) (by omega) hk

/-! ## The selection -/

/-- A rank between 1 and the number of the values is found within the data, and no value is lost. -/
theorem nth_min_spec (fuel : Nat) (data : List Int) (n : Nat) (hfuel : data.length ≤ fuel)
    (hn : 1 ≤ n ∧ n ≤ data.length) :
    ∃ found data', nth_min fuel data n = some (found, data') ∧ data'.Perm data ∧
      nthSmallest data n = some found := by
  induction fuel generalizing data n with
  | zero => omega
  | succ fuel ih =>
    unfold nth_min
    simp only
    by_cases hone : data.length = 1
    · obtain ⟨x, rfl⟩ := List.length_eq_one_iff.mp hone
      obtain rfl : n = 1 := by simp only [List.length_singleton] at hn; omega
      exact ⟨x, [x], rfl, List.Perm.refl _, nthSmallest_singleton x⟩
    · obtain ⟨pivot, hlast⟩ : ∃ pivot, data[data.length - 1]? = some pivot :=
        ⟨_, List.getElem?_eq_getElem (by omega)⟩
      obtain ⟨data₁, wi, hloop, hperm₁, hwi, hparted, hsame⟩ :=
        partition_loop_spec pivot (data.length - 1) 0 0 data (by omega) le_rfl
          ⟨by omega, by omega⟩
      rw [Nat.zero_add] at hwi hparted hsame
      obtain ⟨t, below, above, ht, hdata₂, hbelow_length, hbelow, habove, hperm₂⟩ :=
        hparted.parts (by have := hperm₁.length_eq; omega) hwi ((hsame _ le_rfl).trans hlast)
      have hperm := hperm₂.trans hperm₁
      have hlength := hperm.length_eq
      rw [List.length_append, List.length_cons] at hlength
      have hbelow_le : ∀ x ∈ below, x ≤ pivot := fun x hx => (hbelow x hx).le
      rw [if_neg hone, hlast]
      simp only [Option.bind_eq_bind, Option.bind_some, hloop, ht, hdata₂]
      subst hbelow_length
      rw [← nthSmallest_perm hperm]
      by_cases hle : n ≤ below.length
      · obtain ⟨found, below', hselect, hperm', hfound⟩ := ih below n (by omega) ⟨hn.1, hle⟩
        rw [if_pos hle, List.take_left, hselect, List.drop_left]
        refine ⟨found, below' ++ _, rfl, (hperm'.append_right _).trans hperm, ?_⟩
        rw [nthSmallest_below hbelow_le habove ⟨hn.1, hle⟩, hfound]
      · rw [if_neg hle]
        by_cases heq : n = below.length + 1
        · rw [if_pos heq]
          refine ⟨_, _, rfl, hperm, ?_⟩
          rw [heq, nthSmallest_pivot hbelow_le habove]
        · obtain ⟨found, above', hselect, hperm', hfound⟩ := ih above (n - below.length - 1)
            (by omega) (by omega)
          have hsplit : below ++ pivot :: above = (below ++ [pivot]) ++ above := by simp
          have hdrop : (below ++ pivot :: above).drop (below.length + 1) = above := by
            rw [hsplit]
            exact List.drop_left' (by simp)
          have htake : (below ++ pivot :: above).take (below.length + 1) = below ++ [pivot] := by
            rw [hsplit]
            exact List.take_left' (by simp)
          rw [if_neg heq, hdrop, hselect, htake]
          refine ⟨found, _, rfl, List.Perm.trans ?_ hperm, ?_⟩
          · rw [List.append_assoc, List.singleton_append]
            exact (hperm'.cons _).append_left _
          · rw [nthSmallest_above hbelow_le habove (by omega), hfound]

/-- With as many calls as there are values, at most, the value that comes `n`-th when the data are
in order is found, and the data are only rearranged. -/
theorem the_nth_smallest_is_found (data : List Int) (n fuel : Nat)
    (hn : 1 ≤ n ∧ n ≤ data.length) (hfuel : data.length ≤ fuel) :
    ∃ found data', nth_min fuel data n = some (found, data') ∧
      (data.mergeSort (· ≤ ·))[n - 1]? = some found ∧ data'.Perm data := by
  obtain ⟨found, data', hselect, hperm, hfound⟩ := nth_min_spec fuel data n hfuel hn
  exact ⟨found, data', hselect, hfound, hperm⟩

/-- The second smallest of three, where the smallest is there twice. -/
theorem the_nth_smallest_is_found_two : ∃ found data', nth_min 3 [5, 2, 2] 2 = some (found, data') ∧
    (([5, 2, 2] : List Int).mergeSort (· ≤ ·))[2 - 1]? = some found ∧ data'.Perm [5, 2, 2] :=
  the_nth_smallest_is_found [5, 2, 2] 2 3 (by decide) (by decide)

end nettle.metric
