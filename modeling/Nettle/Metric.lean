-- The metric (metric.c): a ring of the latest samples, and the n-th smallest of them by
-- quick selection in place. `none` is a read or write outside the array.
import Mathlib.Data.List.Perm.Basic
import Mathlib.Data.List.TakeDrop
import Mathlib.Data.List.Induction
import Mathlib.Algebra.Order.Group.Nat

namespace nettle.metric

structure metric_t where
  capacity : Nat
  begin_time : Int
  end_time : Int
  min : Int
  max : Int
  count : Nat
  begin : Nat
  times : List Int
  deriving DecidableEq, Repr

def INVALID_VALUE : Int := -1

def make_metric (capacity : Nat) : metric_t where
  capacity
  begin_time := 0
  end_time := 0
  min := INVALID_VALUE
  max := INVALID_VALUE
  count := 0
  begin := 0
  times := List.replicate capacity 0

def metric_record (metric : metric_t) (time current_millis : Int) : Option metric_t :=
  if metric.begin < metric.times.length then
    some { metric with
      begin_time := if metric.begin_time = 0 then current_millis else metric.begin_time
      end_time := current_millis
      min := if metric.min = INVALID_VALUE ∨ time < metric.min then time else metric.min
      max := if metric.max = INVALID_VALUE ∨ time > metric.max then time else metric.max
      count := metric.count + 1
      times := metric.times.set metric.begin time
      begin := (metric.begin + 1) % metric.capacity }
  else none

/-- The number of samples in the ring. -/
def metric_t.len (metric : metric_t) : Nat :=
  if metric.count < metric.capacity then metric.count else metric.capacity

/-- The loop that brings what is below the pivot to the front; `rest` turns to go from `i` on. -/
def partition_loop (pivot : Int) : Nat → Nat → Nat → List Int → Option (List Int × Nat)
  | 0, _, wi, data => some (data, wi)
  | rest + 1, i, wi, data => do
    let d ← data[i]?
    if d < pivot then
      let t ← data[wi]?
      partition_loop pivot rest (i + 1) (wi + 1) ((data.set wi d).set i t)
    else partition_loop pivot rest (i + 1) wi data

/-- The `n`-th smallest of the data, and the data rearranged. The parts before and behind the pivot
are arrays of their own. -/
def nth_min : Nat → List Int → Nat → Option (Int × List Int)
  | 0, _, _ => none
  | fuel + 1, data, n => do
    let len := data.length
    if len = 1 then
      let found ← data[0]?
      return (found, data)
    else
      let pivot ← data[len - 1]?
      let (data, wi) ← partition_loop pivot (len - 1) 0 0 data
      let t ← data[wi]?
      let data := (data.set (len - 1) t).set wi pivot
      if n ≤ wi then
        let (found, below) ← nth_min fuel (data.take wi) n
        return (found, below ++ data.drop wi)
      else if n = wi + 1 then return (pivot, data)
      else
        let (found, above) ← nth_min fuel (data.drop (wi + 1)) (n - wi - 1)
        return (found, data.take (wi + 1) ++ above)

/-- The rank `n` is the product of the ratio and the number of samples, rounded down. -/
def metric_ratio (metric : metric_t) (n : Nat) : Option (Int × metric_t) :=
  if metric.len = 0 then some (INVALID_VALUE, metric)
  else do
    let (found, data) ← nth_min metric.len (metric.times.take metric.len) n
    return (found, { metric with times := data ++ metric.times.drop metric.len })

/-! ## Runs of calls -/

inductive call_t where
  | record (time current_millis : Int)
  | ratio (n : Nat)
  deriving DecidableEq, Repr

def metric_call (metric : metric_t) : call_t → Option metric_t
  | .record time current_millis => metric_record metric time current_millis
  | .ratio n => do
    let (_, metric) ← metric_ratio metric n
    return metric

def metric_run (metric : metric_t) : List call_t → Option metric_t
  | [] => some metric
  | call :: calls => do
    let metric ← metric_call metric call
    metric_run metric calls

end nettle.metric
