-- The law of the ring of samples (metric.c). A query rearranges the ring, so that a later
-- sample may take the place of one that is not the oldest: the ring holds the latest
-- samples in all states of a run exactly if this never happens.
import Nettle.MetricRank

namespace nettle.metric

/-! ## The ring -/

/-- The values recorded, the oldest first. -/
def recorded (calls : List call_t) : List Int :=
  calls.filterMap fun
    | .record time _ => some time
    | .ratio _ => none

/-- The latest values. -/
def window (capacity : Nat) (values : List Int) : List Int :=
  values.drop (values.length - capacity)

/-- Where the ring is after these values, whatever it holds. -/
structure Ring (capacity : Nat) (metric : metric_t) (values : List Int) : Prop where
  pos : 1 ≤ capacity
  capacity_eq : metric.capacity = capacity
  length : metric.times.length = capacity
  count : metric.count = values.length
  start : metric.begin = values.length % capacity

/-- The ring holds the latest values in some order. -/
def Latest (metric : metric_t) (values : List Int) : Prop :=
  (metric.times.take metric.len).Perm (window metric.capacity values)

/-- A value that is overwritten is the oldest one of the window. -/
def OverwritesOldest (metric : metric_t) (values : List Int) : Prop :=
  metric.capacity ≤ values.length →
    metric.times[metric.begin]? = (window metric.capacity values).head?

/-- One value is replaced: what remains of the others tells which one it was. -/
theorem set_perm_iff {times rest : List Int} {b : Nat} {oldest time : Int} (hb : b < times.length)
    (hperm : times.Perm (oldest :: rest)) :
    (times.set b time).Perm (rest ++ [time]) ↔ times[b] = oldest := by
  have hset : (times.set b time).Perm (time :: (times.take b ++ times.drop (b + 1))) := by
    rw [List.set_eq_take_append_cons_drop, if_pos hb]
    exact List.perm_middle
  have htimes : (times[b] :: (times.take b ++ times.drop (b + 1))).Perm (oldest :: rest) := by
    apply List.Perm.trans _ hperm
    conv_rhs => rw [← List.take_append_drop b times, List.drop_eq_getElem_cons hb]
    exact List.perm_middle.symm
  have hothers : (times.set b time).Perm (rest ++ [time]) ↔
      (times.take b ++ times.drop (b + 1)).Perm rest := by
    apply Iff.trans _ (List.perm_cons time)
    exact ⟨fun h => hset.symm.trans (h.trans (List.perm_append_singleton time rest)),
      fun h => hset.trans (h.trans (List.perm_append_singleton time rest).symm)⟩
  rw [hothers]
  constructor
  · intro hrest
    have hsame : ([times[b]] ++ (times.take b ++ times.drop (b + 1))).Perm
        ([oldest] ++ (times.take b ++ times.drop (b + 1))) :=
      htimes.trans (hrest.symm.cons oldest)
    exact List.singleton_perm_singleton.mp ((List.perm_append_right_iff _).mp hsame)
  · intro heq
    rw [heq] at htimes
    exact htimes.cons_inv

section

variable {capacity : Nat} {metric : metric_t} {values : List Int} (h : Ring capacity metric values)

include h

theorem Ring.len_eq : metric.len = min values.length capacity := by
  unfold metric_t.len
  rw [h.count, h.capacity_eq]
  split <;> omega

theorem Ring.start_lt : metric.begin < metric.times.length := by
  rw [h.start, h.length]
  exact Nat.mod_lt _ h.pos

theorem Ring.record (time now : Int) :
    ∃ metric', metric_call metric (.record time now) = some metric' ∧
      Ring capacity metric' (values ++ [time]) ∧
      metric'.times = metric.times.set metric.begin time := by
  simp only [metric_call, metric_record, if_pos h.start_lt]
  refine ⟨_, rfl, ⟨h.pos, h.capacity_eq, by simp [h.length], by simp [h.count], ?_⟩, rfl⟩
  simp only [h.capacity_eq, h.start, List.length_append, List.length_singleton, Nat.mod_add_mod]

theorem Ring.ratio {n : Nat}
    (hn : 1 ≤ values.length → 1 ≤ n ∧ n ≤ min values.length capacity) :
    ∃ metric', metric_call metric (.ratio n) = some metric' ∧ Ring capacity metric' values ∧
      (metric'.times.take metric'.len).Perm (metric.times.take metric.len) := by
  have hlen := h.len_eq
  simp only [metric_call, metric_ratio]
  by_cases hzero : metric.len = 0
  · rw [if_pos hzero]
    exact ⟨metric, rfl, h, List.Perm.refl _⟩
  · have htake : (metric.times.take metric.len).length = metric.len := by
      rw [List.length_take, h.length]
      omega
    obtain ⟨found, data, hmin, hperm, -⟩ := nth_min_spec metric.len (metric.times.take metric.len) n
      htake.le (by rw [htake, hlen]; exact hn (by omega))
    have hdata := hperm.length_eq
    rw [if_neg hzero]
    simp only [hmin, Option.bind_eq_bind, Option.bind_some]
    refine ⟨_, rfl, ⟨h.pos, h.capacity_eq, ?_, h.count, h.start⟩, ?_⟩
    · rw [List.length_append, hdata, ← List.length_append, List.take_append_drop, h.length]
    · change ((data ++ _).take metric.len).Perm _
      rw [List.take_left' (by omega)]
      exact hperm

/-- While there is room, a new value is put behind the others; later it takes the place of the
one that is overwritten. -/
theorem Ring.latest_iff (hlatest : Latest metric values) {time : Int} {metric' : metric_t}
    (h' : Ring capacity metric' (values ++ [time]))
    (htimes : metric'.times = metric.times.set metric.begin time) :
    Latest metric' (values ++ [time]) ↔ OverwritesOldest metric values := by
  have hlt := h.start_lt
  unfold Latest at hlatest ⊢
  unfold OverwritesOldest
  rw [h.capacity_eq, h.len_eq] at hlatest
  rw [h'.capacity_eq, h'.len_eq, htimes, h.capacity_eq]
  simp only [List.length_append, List.length_singleton]
  by_cases hroom : values.length < capacity
  · have hbegin : metric.begin = values.length := by rw [h.start, Nat.mod_eq_of_lt hroom]
    rw [iff_true_right (by omega)]
    have hwindow : window capacity values = values := by
      unfold window
      rw [show values.length - capacity = 0 by omega, List.drop_zero]
    have hwindow' : window capacity (values ++ [time]) = values ++ [time] := by
      unfold window
      rw [List.length_append, List.length_singleton,
        show values.length + 1 - capacity = 0 by omega, List.drop_zero]
    rw [hwindow, Nat.min_eq_left hroom.le] at hlatest
    have htake : (metric.times.set values.length time).take (values.length + 1) =
        metric.times.take values.length ++ [time] := by
      rw [List.take_add_one, List.take_set_of_le le_rfl,
        List.getElem?_set_self (by omega), Option.toList_some]
    rw [hwindow', hbegin, Nat.min_eq_left hroom, htake]
    exact hlatest.append_right _
  · have hfull : capacity ≤ values.length := not_lt.mp hroom
    have hlength := h.length
    obtain ⟨oldest, rest, hwindow⟩ : ∃ oldest rest, window capacity values = oldest :: rest := by
      apply List.exists_cons_of_length_pos
      have hpos := h.pos
      unfold window
      rw [List.length_drop]
      omega
    have hwindow' : window capacity (values ++ [time]) = rest ++ [time] := by
      unfold window at hwindow ⊢
      rw [List.length_append, List.length_singleton,
        show values.length + 1 - capacity = values.length - capacity + 1 by omega,
        ← List.drop_drop, List.drop_append_of_le_length (by omega), hwindow]
      rfl
    rw [hwindow, Nat.min_eq_right hfull, List.take_of_length_le hlength.le] at hlatest
    rw [hwindow', hwindow, Nat.min_eq_right (by omega),
      List.take_of_length_le (by rw [List.length_set]; exact hlength.le),
      List.getElem?_eq_getElem hlt, List.head?_cons, Option.some.injEq]
    exact (set_perm_iff hlt hlatest).trans ⟨fun heq _ => heq, fun heq => heq hfull⟩

/-- One call, whichever it is. -/
theorem Ring.call {call : call_t} (hrank : ∀ n, call = .ratio n → 1 ≤ values.length →
      1 ≤ n ∧ n ≤ min values.length capacity) :
    ∃ metric', metric_call metric call = some metric' ∧
      Ring capacity metric' (values ++ recorded [call]) ∧
      (Latest metric values → (Latest metric' (values ++ recorded [call]) ↔
        ∀ time now, call = .record time now → OverwritesOldest metric values)) := by
  cases call with
  | record time now =>
    obtain ⟨metric', hcall, hring', htimes⟩ := h.record time now
    refine ⟨metric', hcall, hring', fun hlatest => ?_⟩
    refine (h.latest_iff hlatest hring' htimes).trans ⟨fun hold _ _ _ => hold, fun hold => ?_⟩
    exact hold time now rfl
  | ratio n =>
    obtain ⟨metric', hcall, hring', hperm⟩ := h.ratio (hrank n rfl)
    rw [show recorded [.ratio n] = [] from rfl, List.append_nil]
    refine ⟨metric', hcall, hring', fun hlatest => iff_of_true ?_ nofun⟩
    unfold Latest at hlatest ⊢
    rw [hring'.capacity_eq, ← h.capacity_eq]
    exact hperm.trans hlatest

end

/-! ## Runs -/

theorem metric_run_append (metric : metric_t) (calls more : List call_t) :
    metric_run metric (calls ++ more) =
      (metric_run metric calls).bind fun metric => metric_run metric more := by
  induction calls generalizing metric with
  | nil => rfl
  | cons call calls ih =>
    rw [List.cons_append, metric_run, metric_run]
    cases metric_call metric call with
    | none => rfl
    | some metric' => exact ih metric'

theorem metric_run_snoc (metric : metric_t) (calls : List call_t) (call : call_t) :
    metric_run metric (calls ++ [call]) =
      (metric_run metric calls).bind fun metric => metric_call metric call := by
  rw [metric_run_append]
  congr 1
  funext metric
  rw [metric_run]
  cases metric_call metric call <;> rfl

theorem recorded_append (calls more : List call_t) :
    recorded (calls ++ more) = recorded calls ++ recorded more :=
  List.filterMap_append

/-- Every query asks for a rank within the samples that are there. -/
def Ranked (capacity : Nat) (calls : List call_t) : Prop :=
  ∀ begun n rest, calls = begun ++ .ratio n :: rest → 1 ≤ (recorded begun).length →
    1 ≤ n ∧ n ≤ min (recorded begun).length capacity

theorem Ranked.last {capacity : Nat} {calls begun rest : List call_t} {call : call_t}
    (h : Ranked capacity calls) (hcalls : calls = begun ++ call :: rest) :
    ∀ n, call = .ratio n → 1 ≤ (recorded begun).length →
      1 ≤ n ∧ n ≤ min (recorded begun).length capacity := by
  rintro n rfl
  exact h begun n rest hcalls

theorem make_metric_ring {capacity : Nat} (hpos : 1 ≤ capacity) :
    Ring capacity (make_metric capacity) [] :=
  ⟨hpos, rfl, List.length_replicate, rfl, (Nat.zero_mod capacity).symm⟩

/-- A run comes to its end, and the ring is where its values say. -/
theorem metric_run_ring {capacity : Nat} (hpos : 1 ≤ capacity) (calls rest : List call_t)
    (hranked : Ranked capacity (calls ++ rest)) :
    ∃ metric, metric_run (make_metric capacity) calls = some metric ∧
      Ring capacity metric (recorded calls) := by
  induction calls using List.reverseRecOn generalizing rest with
  | nil => exact ⟨_, rfl, make_metric_ring hpos⟩
  | append_singleton calls call ih =>
    rw [List.append_assoc] at hranked
    obtain ⟨metric, hrun, hring⟩ := ih _ hranked
    obtain ⟨metric', hcall, hring', -⟩ := hring.call (hranked.last rfl)
    exact ⟨metric', by rw [metric_run_snoc, hrun, Option.bind_some, hcall], recorded_append .. ▸ hring'⟩

/-- Every run comes to its end, whatever its queries. The ring holds the latest values in all states
of the run exactly if every record on a full ring overwrites the oldest of them. -/
theorem the_ring_holds_the_latest_iff (capacity : Nat) (hpos : 1 ≤ capacity) (calls : List call_t)
    (hranked : Ranked capacity calls) :
    (metric_run (make_metric capacity) calls).isSome ∧
      ((∀ begun rest metric, calls = begun ++ rest →
          metric_run (make_metric capacity) begun = some metric → Latest metric (recorded begun)) ↔
        ∀ begun time now rest metric, calls = begun ++ .record time now :: rest →
          metric_run (make_metric capacity) begun = some metric →
          OverwritesOldest metric (recorded begun)) := by
  constructor
  · obtain ⟨metric, hrun, -⟩ := metric_run_ring hpos calls [] (by rwa [List.append_nil])
    rw [hrun]
    rfl
  constructor
  · rintro hlatest begun time now rest metric rfl hrun
    obtain ⟨metric₁, hrun₁, hring⟩ := metric_run_ring hpos begun _ hranked
    rw [hrun, Option.some.injEq] at hrun₁
    subst hrun₁
    obtain ⟨metric', hcall, -, hlatest'⟩ := hring.call (hranked.last rfl)
    have hrun' : metric_run (make_metric capacity) (begun ++ [.record time now]) = some metric' := by
      rw [metric_run_snoc, hrun, Option.bind_some, hcall]
    have hlast := hlatest (begun ++ [.record time now]) rest metric' (by simp) hrun'
    rw [recorded_append] at hlast
    exact (hlatest' (hlatest begun _ metric rfl hrun)).mp hlast time now rfl
  · rintro hoverwrites begun rest metric rfl hrun
    induction begun using List.reverseRecOn generalizing rest metric with
    | nil =>
      simp only [metric_run, Option.some.injEq] at hrun
      subst hrun
      unfold Latest
      rw [(make_metric_ring hpos).len_eq]
      simp [window, recorded]
    | append_singleton begun call ih =>
      rw [List.append_assoc] at hranked hoverwrites
      obtain ⟨metric₁, hrun₁, hring⟩ := metric_run_ring hpos begun _ hranked
      have hlatest := ih _ metric₁ hranked hoverwrites hrun₁
      obtain ⟨metric', hcall, -, hlatest'⟩ := hring.call (hranked.last rfl)
      rw [metric_run_snoc, hrun₁, Option.bind_some, hcall, Option.some.injEq] at hrun
      subst hrun
      rw [recorded_append]
      refine (hlatest' hlatest).mpr fun time now heq => ?_
      exact hoverwrites begun time now rest metric₁ (by rw [heq]; rfl) hrun₁

/-- A query of a ring with room left. The value that is overwritten next is still the oldest. -/
theorem the_ring_holds_the_latest_of_two :
    (metric_run (make_metric 2) [.record 3 10, .ratio 1, .record 1 11, .record 5 12]).isSome ∧
      ((∀ begun rest metric,
          [.record 3 10, .ratio 1, .record 1 11, .record 5 12] = begun ++ rest →
          metric_run (make_metric 2) begun = some metric → Latest metric (recorded begun)) ↔
        ∀ begun time now rest metric,
          [.record 3 10, .ratio 1, .record 1 11, .record 5 12] =
            begun ++ .record time now :: rest →
          metric_run (make_metric 2) begun = some metric →
          OverwritesOldest metric (recorded begun)) := by
  apply the_ring_holds_the_latest_iff 2 (by decide)
  intro begun n rest hcalls _
  rcases begun with _ | ⟨first, _ | ⟨second, _ | ⟨third, _ | ⟨fourth, begun⟩⟩⟩⟩
  · simp at hcalls
  · simp only [List.cons_append, List.nil_append, List.cons.injEq, call_t.ratio.injEq] at hcalls
    obtain ⟨rfl, rfl, -⟩ := hcalls
    decide
  · simp at hcalls
  · simp at hcalls
  · simp at hcalls

/-- After a query of the full ring 1 is overwritten in place of 3. -/
theorem the_ring_loses_a_late_value :
    ∃ metric, metric_run (make_metric 2) [.record 3 10, .record 1 11, .ratio 2, .record 5 12] =
        some metric ∧
      metric.times = [5, 3] ∧
      ¬Latest metric (recorded [.record 3 10, .record 1 11, .ratio 2, .record 5 12]) := by
  refine ⟨⟨2, 10, 12, 1, 5, 3, 1, [5, 3]⟩, by decide, rfl, ?_⟩
  unfold Latest
  decide

end nettle.metric
