-- The test of the syndromes (rscode.c). They are all zero exactly for a word
-- whose checks the encoder computes, so the test finds every error in as many
-- symbols as there are checks.
import Nettle.RsCode

open Polynomial binary_field erasure_code nettle.galois

namespace nettle.rscode

/-! ## Words that vanish -/

namespace Code

variable {m g T : Nat} {rscode : rscode_t} (h : Code m g T rscode)

include h

theorem check_syndromes_iff {c : Nat → Residue g} {ds l : List Nat} (hl : Syndromes m g T c ds l) :
    rscode_check_syndromes rscode l = true ↔ ∀ j < T, syndrome c (root g ^ (j + 1)) ds = 0 := by
  unfold rscode_check_syndromes
  simp only [h.checks_num, List.all_eq_true, List.mem_range, beq_iff_eq]
  constructor
  · intro hzero j hj
    rw [← hl.value j hj, hzero j hj, residue_zero]
  · intro hzero j hj
    apply h.tables.primitive.residue_inj (hl.words j) (by positivity)
    rw [hl.value j hj, hzero j hj, residue_zero]

/-- The symbols may be fed in any order. -/
theorem check_word_iff {word : Nat → Nat} (hword : ∀ d, word d < 2 ^ m) {n : Nat} {ds : List Nat}
    (hds : ds.Perm (List.range n)) (hfit : ∀ d ∈ ds, d * T < 2 ^ 32) :
    rscode_check_syndromes rscode (ds.foldl (fun l d => rscode_decode_syndromes rscode (word d) d l)
      (List.replicate T 0)) = true ↔ Vanishes g T n word := by
  rw [h.check_syndromes_iff (h.syndromes_foldl word hword ds hfit)]
  unfold Vanishes
  have hsame : ∀ x, syndrome (fun d => residue g (word d)) x ds.reverse =
      ∑ d ∈ Finset.range n, residue g (word d) * x ^ d := by
    intro x
    rw [syndrome_perm _ x (ds.reverse_perm.trans hds), syndrome_range]
  simp only [hsame]

/-- Two words that vanish are the same when they differ in no more symbols than there are
checks. -/
theorem vanishing_words_agree {word word' : Nat → Nat} (hword : ∀ d, word d < 2 ^ m)
    (hword' : ∀ d, word' d < 2 ^ m) {n : Nat} (hn : n ≤ 2 ^ m - 1)
    (hfit : ∀ d < n, d * T < 2 ^ 32) (hzero : Vanishes g T n word) (hzero' : Vanishes g T n word')
    (hfew : ((List.range n).filter fun d => word d ≠ word' d).length ≤ T) :
    ∀ d < n, word d = word' d := by
  intro d hd
  by_contra hne
  have hall : ((List.range n).filter (fun d => word d ≠ word' d) ++
      (List.range n).filter (fun d => ¬word d ≠ word' d)).Perm (List.range n) := by
    simpa using List.filter_append_perm (fun d => decide (word d ≠ word' d)) (List.range n)
  have hagree := h.missing_agree hword hword' hn hzero hzero' hall hfew
    (fun d hd => hfit d (List.mem_range.mp (List.mem_filter.mp hd).1))
    (fun d hd => by simpa using (List.mem_filter.mp hd).2)
  exact hne (hagree d (by simpa [hd] using hne))

/-- A message with checks behind it vanishes exactly if they are the encoder's. -/
theorem vanishes_iff_checks {message checks : List Nat} (hmsg : ∀ s ∈ message, s < 2 ^ m)
    (hchecks : checks.length = T) (hwords : ∀ s ∈ checks, s < 2 ^ m)
    (hn : message.length + T ≤ 2 ^ m - 1) (hfit : ∀ d < message.length + T, d * T < 2 ^ 32) :
    Vanishes g T (message.length + T) (fun d => (message ++ checks).reverse.getD d 0) ↔
      checks = checksOf rscode T message := by
  constructor
  · intro hzero
    have hword : ∀ d, (message ++ checks).reverse.getD d 0 < 2 ^ m := by
      apply words_of_mem
      intro s hs
      exact (List.mem_append.mp (List.mem_reverse.mp hs)).elim (hmsg s) (hwords s)
    have hmessage : ∀ d, T ≤ d → d < message.length + T →
        symbolAt rscode T message d = (message ++ checks).reverse.getD d 0 := by
      intro d hd hd'
      rw [h.symbolAt_message hmsg hd hd', List.getD_reverse _ (by simp; omega),
        List.length_append, hchecks, List.getD_append _ _ _ _ (by omega)]
    have hfew : ((List.range (message.length + T)).filter fun d =>
        symbolAt rscode T message d ≠ (message ++ checks).reverse.getD d 0).length ≤ T := by
      have hsub : ((List.range (message.length + T)).filter fun d =>
          symbolAt rscode T message d ≠ (message ++ checks).reverse.getD d 0) ⊆ List.range T := by
        intro d hd
        simp only [List.mem_filter, List.mem_range, decide_eq_true_eq] at hd
        by_contra hT
        exact hd.2 (hmessage d (by simpa using hT) hd.1)
      simpa using ((List.nodup_range.filter _).subperm hsub).length_le
    have hagree := h.vanishing_words_agree (h.symbolAt_lt hmsg) hword hn hfit
      (h.symbolAt_vanishes hmsg) hzero hfew
    have hchecks_of := (h.encode_message message hmsg).1
    apply List.ext_getElem (hchecks.trans hchecks_of.symm)
    intro i hi hi'
    have hsame := hagree (T - 1 - i) (by omega)
    rw [h.symbolAt_checks hmsg (by omega), List.getD_reverse _ (by simp; omega),
      List.length_append, List.getD_append_right _ _ _ _ (by omega),
      show T - 1 - (T - 1 - i) = i by omega,
      show message.length + checks.length - 1 - (T - 1 - i) - message.length = i by omega,
      List.getD_eq_getElem _ _ hi, List.getD_eq_getElem _ _ hi'] at hsame
    exact hsame.symm
  · rintro rfl
    exact h.symbolAt_vanishes hmsg

/-- A few wrong symbols are too few for another word of the code. -/
theorem wrong_word_does_not_vanish {message : List Nat} (hmsg : ∀ s ∈ message, s < 2 ^ m)
    {word : Nat → Nat} (hword : ∀ d, word d < 2 ^ m) (hn : message.length + T ≤ 2 ^ m - 1)
    (hfit : ∀ d < message.length + T, d * T < 2 ^ 32) {ds : List Nat}
    (hds : ds.Perm (List.range (message.length + T)))
    (hone : 1 ≤ (ds.filter fun d => symbolAt rscode T message d ≠ word d).length)
    (hmany : (ds.filter fun d => symbolAt rscode T message d ≠ word d).length ≤ T) :
    ¬Vanishes g T (message.length + T) word := by
  intro hzero
  rw [(hds.filter _).length_eq] at hone hmany
  have hagree := h.vanishing_words_agree (h.symbolAt_lt hmsg) hword hn hfit
    (h.symbolAt_vanishes hmsg) hzero hmany
  have hnone : ((List.range (message.length + T)).filter fun d =>
      symbolAt rscode T message d ≠ word d) = [] := by
    apply List.filter_eq_nil_iff.mpr
    intro d hd
    simpa using hagree d (List.mem_range.mp hd)
  rw [hnone] at hone
  simp at hone

end Code

/-! ## The law of the test -/

/-- A message with checks behind it passes the test exactly if they are the encoder's. A word of
the code with at least one wrong symbol, and no more of them than there are checks, does not
pass. -/
theorem the_test_finds_errors {m g T : Nat} (hm : m ≤ 16) (hp : Primitive m g)
    (hT : 1 ≤ T ∧ T ≤ 2 ^ m - 2) (message checks : List Nat)
    (hlen : message.length ≤ 2 ^ m - 1 - T) (hmsg : ∀ s ∈ message, s < 2 ^ m)
    (hchecks : checks.length = T) (hwords : ∀ s ∈ checks, s < 2 ^ m) (ds : List Nat)
    (hds : ds.Perm (List.range (message.length + T))) :
    let rscode := rscode_init (2 ^ m - 1 - T) (galois_init m g)
    let symbolAt := fun (word : List Nat) d => word.reverse.getD d 0
    let syndromes := fun word => ds.foldl
      (fun l d => rscode_decode_syndromes rscode (symbolAt word d) d l) (rscode_prepare rscode)
    let encoded := message.foldl (fun checks s => rscode_encode rscode s checks)
      (rscode_prepare rscode)
    (rscode_check_syndromes rscode (syndromes (message ++ checks)) = true ↔ checks = encoded) ∧
      ∀ word : List Nat, word.length = message.length + T → (∀ s ∈ word, s < 2 ^ m) →
        let errors := ds.filter fun d => symbolAt (message ++ encoded) d ≠ symbolAt word d
        1 ≤ errors.length → errors.length ≤ T →
          rscode_check_syndromes rscode (syndromes word) = false := by
  have hpow := Nat.pow_le_pow_right (n := 2) (by norm_num) hm
  have hcode : Code m g T (rscode_init (2 ^ m - 1 - T) (galois_init m g)) :=
    rscode_init_code (galois_init_tables hp (by omega)) (by omega) (by omega)
  generalize rscode_init (2 ^ m - 1 - T) (galois_init m g) = rscode at hcode
  have hprep : rscode_prepare rscode = List.replicate T 0 := by
    rw [rscode_prepare, hcode.checks_num]
  simp only [hprep]
  change (rscode_check_syndromes rscode _ = true ↔ checks = checksOf rscode T message) ∧
    ∀ word : List Nat, _ → _ →
      1 ≤ (ds.filter fun d => symbolAt rscode T message d ≠ word.reverse.getD d 0).length →
      (ds.filter fun d => symbolAt rscode T message d ≠ word.reverse.getD d 0).length ≤ T → _
  have hfit : ∀ d < message.length + T, d * T < 2 ^ 32 := by
    intro d hd
    exact degree_fits hm (by omega) (by omega)
  have hds_fit : ∀ d ∈ ds, d * T < 2 ^ 32 := fun d hd =>
    hfit d (List.mem_range.mp (hds.mem_iff.mp hd))
  have hlt : ∀ word : List Nat, (∀ s ∈ word, s < 2 ^ m) → ∀ d, word.reverse.getD d 0 < 2 ^ m := by
    intro word hword
    exact words_of_mem fun x hx => hword x (List.mem_reverse.mp hx)
  constructor
  · have hword : ∀ s ∈ message ++ checks, s < 2 ^ m := by
      intro s hs
      exact (List.mem_append.mp hs).elim (hmsg s) (hwords s)
    rw [hcode.check_word_iff (hlt _ hword) hds hds_fit]
    exact hcode.vanishes_iff_checks hmsg hchecks hwords (by omega) hfit
  · intro word hlength hword hone hmany
    rw [Bool.eq_false_iff, ne_eq, hcode.check_word_iff (hlt _ hword) hds hds_fit]
    exact hcode.wrong_word_does_not_vanish hmsg (hlt _ hword) (by omega) hfit hds hone hmany

/-- Three symbols with two checks. The checks pass the test, and two wrong symbols do not. -/
theorem the_test_finds_errors_in_three :
    let rscode := rscode_init 253 (galois_init 8 0b100011101)
    let symbolAt := fun (word : List Nat) d => word.reverse.getD d 0
    let syndromes := fun word => [4, 0, 1, 3, 2].foldl
      (fun l d => rscode_decode_syndromes rscode (symbolAt word d) d l) (rscode_prepare rscode)
    let encoded := [7, 0, 255].foldl (fun checks s => rscode_encode rscode s checks)
      (rscode_prepare rscode)
    (rscode_check_syndromes rscode (syndromes ([7, 0, 255] ++ [1, 2])) = true ↔
        [1, 2] = encoded) ∧
      ∀ word : List Nat, word.length = 5 → (∀ s ∈ word, s < 2 ^ 8) →
        let errors := [4, 0, 1, 3, 2].filter fun d =>
          symbolAt ([7, 0, 255] ++ encoded) d ≠ symbolAt word d
        1 ≤ errors.length → errors.length ≤ 2 →
          rscode_check_syndromes rscode (syndromes word) = false :=
  the_test_finds_errors (m := 8) (T := 2) (by norm_num) primitive_285 (by norm_num)
    [7, 0, 255] [1, 2] (by decide) (by decide) rfl (by decide) [4, 0, 1, 3, 2] (by decide)

end nettle.rscode
