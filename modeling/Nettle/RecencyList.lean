-- Bindings in the order of their last use, the newest first, up to an
-- equivalence of keys: what an LRU map of a given capacity is for.
import Mathlib

namespace recency

variable {K V : Type*} (equal : K → K → Bool)

/-- The binding of a key. -/
def find (bs : List (K × V)) (key : K) : Option (K × V) := bs.find? fun b => equal key b.1

/-- The bindings of other keys. -/
def without (bs : List (K × V)) (key : K) : List (K × V) := bs.eraseP fun b => equal key b.1

/-- A new binding is the newest; nothing is put into a full list. -/
def put (capacity : Nat) (bs : List (K × V)) (key : K) (value : V) : Bool × List (K × V) :=
  if bs.length = capacity then (false, bs) else (true, (key, value) :: bs)

def get (bs : List (K × V)) (key : K) : Option (K × V) × List (K × V) :=
  match find equal bs key with
  | some b => (some b, b :: without equal bs key)
  | none => (none, bs)

def remove (bs : List (K × V)) (key : K) : Bool × List (K × V) :=
  match find equal bs key with
  | some _ => (true, without equal bs key)
  | none => (false, bs)

/-- The eldest binding. -/
def peek (bs : List (K × V)) : Option (K × V) := bs.getLast?

def make_eldest (bs : List (K × V)) (key : K) : Bool × List (K × V) :=
  match find equal bs key with
  | some b => (true, without equal bs key ++ [b])
  | none => (false, bs)

variable {equal} {bs : List (K × V)} {key : K}

theorem find_eq_none : find equal bs key = none ↔ ∀ b ∈ bs, ¬equal key b.1 :=
  List.find?_eq_none

theorem find_split {b : K × V} (h : find equal bs key = some b) : ∃ newer older,
    bs = newer ++ b :: older ∧ equal key b.1 ∧ without equal bs key = newer ++ older := by
  obtain ⟨hb, newer, older, rfl, hnewer⟩ := List.find?_eq_some_iff_append.mp h
  refine ⟨newer, older, rfl, hb, ?_⟩
  unfold without
  rw [List.eraseP_append_right _ fun c hc => by simpa using hnewer c hc]
  exact congrArg (newer ++ ·) (List.eraseP_cons_of_pos hb)

/-! ## The order of the last uses -/

/-- What was used, the last used first, without repetition; the uses stand newest first. -/
def last_used [DecidableEq K] : List K → List K
  | [] => []
  | k :: ks => k :: (last_used ks).erase k

section

variable [DecidableEq K] {k : K} {ks : List K} {n : Nat}

theorem nodup_last_used (ks : List K) : (last_used ks).Nodup := by
  induction ks with
  | nil => exact List.nodup_nil
  | cons k ks ih => exact List.nodup_cons.mpr ⟨ih.not_mem_erase, ih.erase k⟩

/-- A use of something within the first `n` brings it to the front of them. -/
theorem take_hit (h : k ∈ (last_used ks).take n) :
    (last_used (k :: ks)).take n = k :: ((last_used ks).take n).erase k := by
  obtain ⟨newer, older, hsplit⟩ := List.append_of_mem (List.mem_of_mem_take h)
  have hnodup := nodup_last_used ks
  rw [hsplit] at hnodup h
  have hnot : k ∉ newer := fun hmem =>
    (List.nodup_append.mp hnodup).2.2 k hmem k List.mem_cons_self rfl
  have hlt : newer.length < n := by
    by_contra hle
    rw [List.take_append_of_le_length (Nat.not_lt.mp hle)] at h
    exact hnot (List.mem_of_mem_take h)
  obtain ⟨n, rfl⟩ : ∃ m, n = newer.length + (m + 1) := ⟨n - newer.length - 1, by omega⟩
  have hbefore : (newer ++ k :: older).take (newer.length + (n + 1)) = newer ++ k :: older.take n :=
    List.take_length_add_append (n + 1)
  have hafter : (newer ++ older).take (newer.length + n) = newer ++ older.take n :=
    List.take_length_add_append n
  rw [last_used, hsplit, hbefore, List.erase_append_right _ hnot, List.erase_append_right _ hnot,
    List.erase_cons_head, List.erase_cons_head, ← Nat.add_assoc, List.take_succ_cons, hafter]

/-- A use of something else pushes the last of them out, if they are `n` already. -/
theorem take_miss (h : k ∉ (last_used ks).take n) (hn : 0 < n) :
    (last_used (k :: ks)).take n = k ::
      if ((last_used ks).take n).length = n then ((last_used ks).take n).dropLast
      else (last_used ks).take n := by
  obtain ⟨n, rfl⟩ : ∃ m, n = m + 1 := Nat.exists_eq_add_one.mpr hn
  rw [last_used, List.take_succ_cons]
  congr 1
  by_cases hfull : ((last_used ks).take (n + 1)).length = n + 1
  · rw [List.length_take] at hfull
    have hlast : ((last_used ks).take (n + 1)).dropLast = (last_used ks).take n := by
      rw [List.dropLast_eq_take, List.length_take, hfull, List.take_take, Nat.add_sub_cancel,
        Nat.min_eq_left (Nat.le_succ n)]
    rw [if_pos (by rw [List.length_take]; exact hfull), hlast]
    have hnot : k ∉ (last_used ks).take n := fun hmem =>
      h (List.take_subset_take_left _ (Nat.le_succ n) hmem)
    conv_lhs => rw [← List.take_append_drop n (last_used ks)]
    rw [List.erase_append_right _ hnot, List.take_append_of_le_length (by rw [List.length_take]; omega),
      List.take_take, Nat.min_self]
  · rw [if_neg hfull]
    have hshort : (last_used ks).length < n + 1 := by
      rw [List.length_take] at hfull
      omega
    rw [List.take_of_length_le hshort.le] at h ⊢
    rw [List.erase_of_not_mem h, List.take_of_length_le (Nat.lt_succ_iff.mp hshort)]

/-- Before something used stands what was used since. -/
theorem last_used_split (h : k ∈ ks) : ∃ newer older, last_used ks = newer ++ k :: older ∧
    ∀ j, j ∈ newer ↔ j ∈ ks.takeWhile (· ≠ k) := by
  induction ks with
  | nil => cases h
  | cons x ks ih =>
    by_cases hx : x = k
    · subst hx
      exact ⟨[], _, rfl, fun j => by simp⟩
    · obtain ⟨newer, older, hsplit, hmem⟩ :=
        ih ((List.mem_cons.mp h).resolve_left (Ne.symm hx))
      have hwhile : (x :: ks).takeWhile (· ≠ k) = x :: ks.takeWhile (· ≠ k) :=
        List.takeWhile_cons_of_pos (by simpa using hx)
      by_cases hnewer : x ∈ newer
      · refine ⟨x :: newer.erase x, older, ?_, fun j => ?_⟩
        · rw [last_used, hsplit, List.erase_append_left _ hnewer]
          rfl
        · rw [hwhile, List.mem_cons, List.mem_cons, ← hmem]
          by_cases hj : j = x
          · simp [hj]
          · rw [List.mem_erase_of_ne hj]
      · refine ⟨x :: newer, older.erase x, ?_, fun j => ?_⟩
        · rw [last_used, hsplit, List.erase_append_right _ hnewer,
            List.erase_cons_tail (by simpa using Ne.symm hx)]
          rfl
        · rw [hwhile, List.mem_cons, List.mem_cons, hmem]

/-- Something used stays within the first `n` until `n` other things are used. -/
theorem mem_take_last_used (h : k ∈ ks)
    (hcard : (ks.takeWhile (· ≠ k)).toFinset.card < n) : k ∈ (last_used ks).take n := by
  obtain ⟨newer, older, hsplit, hmem⟩ := last_used_split h
  have hnodup := nodup_last_used ks
  rw [hsplit] at hnodup ⊢
  have hsame : newer.toFinset = (ks.takeWhile (· ≠ k)).toFinset := by
    ext j
    rw [List.mem_toFinset, List.mem_toFinset, hmem]
  rw [← hsame, List.toFinset_card_of_nodup (List.nodup_append.mp hnodup).1] at hcard
  obtain ⟨n, rfl⟩ : ∃ m, n = newer.length + (m + 1) := ⟨n - newer.length - 1, by omega⟩
  rw [List.take_length_add_append, List.take_succ_cons]
  exact List.mem_append_right _ List.mem_cons_self

end

end recency
