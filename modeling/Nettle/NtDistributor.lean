-- The distributor of packets over paths (nt_distributor.c): a table gives each
-- sequence number a row with the paths of its packet, -1 where there is none.
import Nettle.NtProcessor
import Nettle.Utils

open nettle.nt_processor nettle.utils

namespace nettle.nt_distributor

/-! ## Reading the table -/

/-- The loop over a row, `rest` places of it from place `j` on. -/
def parse_row (dup_num i : Nat) : Nat → Nat → List Int → List Char → List Int × List Char
  | 0, _, seq2addr, str => (seq2addr, str)
  | rest + 1, j, seq2addr, str =>
    match scan_int str with
    | some (n, str) =>
      let seq2addr := seq2addr.set (i * dup_num + j) n
      match skip_delimit [','] str with
      | some str => parse_row dup_num i rest (j + 1) seq2addr str
      | none => (seq2addr, str)
    | none => (seq2addr, str)

/-- The loop over the rows, `rest` of them from row `i` on. -/
def parse_rows (dup_num : Nat) : Nat → Nat → List Int → List Char → List Int × List Char
  | 0, _, seq2addr, str => (seq2addr, str)
  | rest + 1, i, seq2addr, str =>
    let (seq2addr, str) := parse_row dup_num i dup_num 0 seq2addr str
    match skip_delimit [';'] str with
    | some str => parse_rows dup_num rest (i + 1) seq2addr str
    | none => (seq2addr, str)

def parse_seq2addr (seq_num dup_num : Nat) (str : List Char) : List Int × List Char :=
  parse_rows dup_num seq_num 0 (List.replicate (seq_num * dup_num) (-1)) str

/-! ## The distributor -/

/-- The first row that holds no path, or the end of the table. A row before it that names a path
beyond `path_num` gives `none`. -/
def actual_seq_num (path_num : Int) (seq2addr : List Int) (dup_num : Nat) :
    Nat → Nat → Option Nat
  | 0, i => some i
  | rest + 1, i =>
    if seq2addr.getD (i * dup_num) 0 < 0 then some i
    else if (List.range dup_num).any fun j => seq2addr.getD (i * dup_num + j) 0 ≥ path_num then none
    else actual_seq_num path_num seq2addr dup_num rest (i + 1)

/-- `none` if it returns false. -/
def nt_distributor_init (paths : List nt_path_t) (path_num : Int) (seq2addr : List Int)
    (seq_num dup_num : Int) : Option nt_distributor_t :=
  if seq_num < 0 ∨ dup_num < 0 then none
  else do
    let seq_num ← actual_seq_num path_num seq2addr dup_num.toNat seq_num.toNat 0
    return { paths, seq2addr, seq_num, dup_num := dup_num.toNat }

/-- The paths that the loop of `on_encode` goes through, in at most `fuel` turns. -/
def select_loop (distributor : nt_distributor_t) (seq : Nat) : Nat → Nat → Option (List Nat)
  | 0, _ => none
  | fuel + 1, i => do
    match ← nt_distributor_select distributor seq i with
    | none => return []
    | some n => return n :: (← select_loop distributor seq fuel (i + 1))

/-! ## Distributors that can be used -/

/-- Each sequence number has a row, and its places name paths that there are. -/
structure Usable (distributor : nt_distributor_t) : Prop where
  rows : 0 < distributor.seq_num
  places : ∀ row < distributor.seq_num, ∀ j < distributor.dup_num, ∃ n,
    distributor.seq2addr[row * distributor.dup_num + j]? = some n ∧
      n < distributor.paths.length

theorem Usable.select {distributor : nt_distributor_t} (h : Usable distributor) (seq dup : Nat) :
    ∃ n, nt_distributor_select distributor seq dup = some n ∧
      ∀ i ∈ n, ∃ path, distributor.paths[i]? = some path := by
  unfold nt_distributor_select
  by_cases hdup : dup ≥ distributor.dup_num
  · rw [if_pos hdup]
    exact ⟨none, rfl, by simp⟩
  · obtain ⟨n, hn, hlt⟩ := h.places _ (Nat.mod_lt seq h.rows) dup (by omega)
    rw [if_neg hdup, if_neg h.rows.ne', hn]
    by_cases hneg : n < 0
    · exact ⟨none, by simp [hneg], by simp⟩
    · refine ⟨some n.toNat, by simp [hneg], ?_⟩
      intro i hi
      simp only [Option.mem_some_iff] at hi
      exact ⟨_, List.getElem?_eq_getElem (by omega)⟩

/-- A row before the end starts with a path and names only paths. -/
theorem actual_seq_num_spec {path_num : Int} {seq2addr : List Int} {dup_num rest i a : Nat}
    (h : actual_seq_num path_num seq2addr dup_num rest i = some a) :
    i ≤ a ∧ a ≤ i + rest ∧ (a = i ↔ rest = 0 ∨ seq2addr.getD (i * dup_num) 0 < 0) ∧
      ∀ k, i ≤ k → k < a → 0 ≤ seq2addr.getD (k * dup_num) 0 ∧
        ∀ j < dup_num, seq2addr.getD (k * dup_num + j) 0 < path_num := by
  induction rest generalizing i with
  | zero =>
    simp only [actual_seq_num, Option.some.injEq] at h
    refine ⟨h.le, h.ge, by simp [h], ?_⟩
    intro k hik hka
    omega
  | succ rest ih =>
    unfold actual_seq_num at h
    by_cases hneg : seq2addr.getD (i * dup_num) 0 < 0
    · rw [if_pos hneg, Option.some.injEq] at h
      refine ⟨h.le, by omega, iff_of_true h.symm (Or.inr hneg), ?_⟩
      intro k hik hka
      omega
    · rw [if_neg hneg] at h
      by_cases hbad : ((List.range dup_num).any fun j =>
          decide (seq2addr.getD (i * dup_num + j) 0 ≥ path_num)) = true
      · rw [if_pos hbad] at h
        simp at h
      · rw [if_neg hbad] at h
        obtain ⟨hle, hge, -, hrows⟩ := ih h
        refine ⟨by omega, by omega, ?_, ?_⟩
        · constructor
          · intro heq
            omega
          · rintro (hzero | hneg')
            · omega
            · exact absurd hneg' hneg
        · intro k hik hka
          rcases hik.eq_or_lt with rfl | hlt
          · refine ⟨not_lt.mp hneg, ?_⟩
            intro j hj
            simp only [List.any_eq_true, List.mem_range, decide_eq_true_eq, not_exists, not_and,
              not_le] at hbad
            exact hbad j hj
          · exact hrows k hlt hka

end nettle.nt_distributor
