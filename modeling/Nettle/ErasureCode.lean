-- The code whose generator has consecutive powers of one element as roots,
-- over a ring of characteristic two: the shift register leaves a word that
-- vanishes at every root, and a word that vanishes there is known from any
-- part of it that misses no more symbols than there are roots.
import Mathlib

open Polynomial Finset

namespace erasure_code

variable {R : Type*} [CommRing R]

/-! ## Words -/

/-- A word in its order of transmission as a polynomial: the last symbol is the constant. -/
noncomputable def wordPoly (w : List R) : R[X] := w.foldl (fun p s => p * X + C s) 0

theorem wordPoly_concat (w : List R) (s : R) : wordPoly (w ++ [s]) = wordPoly w * X + C s := by
  simp [wordPoly]

theorem wordPoly_append (w v : List R) :
    wordPoly (w ++ v) = wordPoly w * X ^ v.length + wordPoly v := by
  induction v using List.reverseRecOn with
  | nil => simp [wordPoly]
  | append_singleton v s ih =>
    rw [← List.append_assoc, wordPoly_concat, wordPoly_concat, ih, List.length_append]
    simp only [List.length_singleton]
    ring

/-- The symbol at degree `d`, its distance from the end of the word. -/
def symbol (w : List R) (d : Nat) : R := w.reverse.getD d 0

theorem coeff_wordPoly (w : List R) (d : Nat) : (wordPoly w).coeff d = symbol w d := by
  induction w using List.reverseRecOn generalizing d with
  | nil => simp [wordPoly, symbol]
  | append_singleton w s ih =>
    rw [wordPoly_concat, coeff_add]
    cases d with
    | zero => simp [symbol]
    | succ d =>
      rw [coeff_mul_X, coeff_C_succ, add_zero, ih]
      simp [symbol]

theorem degree_wordPoly_lt (w : List R) : (wordPoly w).degree < w.length := by
  rw [degree_lt_iff_coeff_zero]
  intro d hd
  rw [coeff_wordPoly, symbol, List.getD_eq_default _ _ (by simpa using hd)]

theorem symbol_concat_succ (w : List R) (s : R) (d : Nat) :
    symbol (w ++ [s]) (d + 1) = symbol w d := by
  simp [symbol]

theorem eval_wordPoly (w : List R) (x : R) :
    (wordPoly w).eval x = ∑ d ∈ range w.length, symbol w d * x ^ d := by
  induction w using List.reverseRecOn with
  | nil => simp [wordPoly]
  | append_singleton w s ih =>
    rw [wordPoly_concat, List.length_append, List.length_singleton, sum_range_succ']
    simp only [symbol_concat_succ, eval_add, eval_mul, eval_X, eval_C, ih, sum_mul, pow_succ,
      mul_assoc, pow_zero, mul_one]
    simp [symbol]

/-! ## The generator -/

/-- The generator with the roots `a`, `a ^ 2`, ..., `a ^ T` in characteristic two. -/
noncomputable def gen (a : R) (T : Nat) : R[X] := ∏ i ∈ range T, (X + C (a ^ (i + 1)))

theorem gen_zero (a : R) : gen a 0 = 1 := by simp [gen]

theorem gen_succ (a : R) (T : Nat) : gen a (T + 1) = gen a T * (X + C (a ^ (T + 1))) := by
  rw [gen, gen, prod_range_succ]

theorem gen_monic (a : R) (T : Nat) : (gen a T).Monic :=
  monic_prod_of_monic _ _ fun _ _ => monic_X_add_C _

theorem natDegree_gen [Nontrivial R] (a : R) (T : Nat) : (gen a T).natDegree = T := by
  rw [gen, natDegree_prod_of_monic _ _ fun _ _ => monic_X_add_C _]
  simp only [natDegree_X_add_C, sum_const, card_range, smul_eq_mul, mul_one]

theorem eval_gen [CharP R 2] (a : R) {T i : Nat} (hi : i < T) :
    (gen a T).eval (a ^ (i + 1)) = 0 := by
  rw [gen, eval_prod]
  apply prod_eq_zero (mem_range.mpr hi)
  simp [CharTwo.add_self_eq_zero]

/-! ## The shift register -/

/-- One step of the register of a monic generator of degree `T`: the register moves up by
one degree, the symbol enters at degree `T`, and the generator clears that degree. -/
noncomputable def feed (g : R[X]) (T : Nat) (r : R[X]) (s : R) : R[X] :=
  X * r + C s * X ^ T + C (s + r.coeff (T - 1)) * g

theorem coeff_feed_lt (g r : R[X]) (s : R) {T d : Nat} (hd : d < T) :
    (feed g T r s).coeff d = (X * r).coeff d + (s + r.coeff (T - 1)) * g.coeff d := by
  rw [feed, coeff_add, coeff_add, coeff_C_mul, coeff_C_mul, coeff_X_pow, if_neg (by omega),
    mul_zero, add_zero]

theorem degree_feed_lt [CharP R 2] {g r : R[X]} (s : R) {T : Nat} (hT : 0 < T) (hg : g.Monic)
    (hgT : g.natDegree = T) (hr : r.degree < T) : (feed g T r s).degree < T := by
  rw [degree_lt_iff_coeff_zero] at hr ⊢
  intro d hd
  obtain ⟨e, rfl⟩ : ∃ e, d = e + 1 := ⟨d - 1, by omega⟩
  simp only [feed, coeff_add, coeff_C_mul, coeff_X_mul, coeff_X_pow]
  rcases Nat.eq_or_lt_of_le hd with rfl | hlt
  · have hlead : g.coeff (e + 1) = 1 := by rw [← hgT]; exact hg
    rw [if_pos rfl, hlead, Nat.add_sub_cancel]
    linear_combination CharTwo.add_self_eq_zero (s + r.coeff e)
  · rw [hr e (by omega), if_neg (by omega),
      coeff_eq_zero_of_natDegree_lt (p := g) (by omega)]
    ring

theorem eval_feed {g : R[X]} {x : R} (hx : g.eval x = 0) (T : Nat) (r : R[X]) (s : R) :
    (feed g T r s).eval x = x * r.eval x + s * x ^ T := by
  simp [feed, hx]

/-- The register after a message, at a root of the generator. -/
theorem eval_foldl_feed {g : R[X]} {x : R} (hx : g.eval x = 0) (T : Nat) (w : List R) :
    (w.foldl (feed g T) 0).eval x = (wordPoly w).eval x * x ^ T := by
  induction w using List.reverseRecOn with
  | nil => simp [wordPoly]
  | append_singleton w s ih =>
    rw [List.foldl_append, List.foldl_cons, List.foldl_nil, eval_feed hx, ih, wordPoly_concat]
    simp only [eval_add, eval_mul, eval_X, eval_C]
    ring

/-- A message with the register behind it vanishes at every root of the generator. -/
theorem eval_codeword [CharP R 2] {g : R[X]} {x : R} (hx : g.eval x = 0) (w checks : List R)
    (hc : wordPoly checks = w.foldl (feed g checks.length) 0) :
    (wordPoly (w ++ checks)).eval x = 0 := by
  rw [wordPoly_append, eval_add, hc, eval_foldl_feed hx, eval_mul, eval_pow, eval_X,
    CharTwo.add_self_eq_zero]

/-! ## Erasures -/

/-- The syndrome at `x` of the symbols at the degrees of a list. -/
def syndrome (c : Nat → R) (x : R) (ds : List Nat) : R := (ds.map fun d => c d * x ^ d).sum

theorem syndrome_perm (c : Nat → R) (x : R) {ds es : List Nat} (h : ds.Perm es) :
    syndrome c x ds = syndrome c x es := (h.map _).sum_eq

theorem syndrome_append (c : Nat → R) (x : R) (ds es : List Nat) :
    syndrome c x (ds ++ es) = syndrome c x ds + syndrome c x es := by
  simp [syndrome]

theorem syndrome_range (c : Nat → R) (x : R) (n : Nat) :
    syndrome c x (List.range n) = ∑ d ∈ range n, c d * x ^ d := by
  induction n with
  | zero => simp [syndrome]
  | succ n ih => rw [List.range_succ, syndrome_append, ih, sum_range_succ]; simp [syndrome]

/-- Where the whole word vanishes, the received symbols have the syndrome of the missing ones. -/
theorem syndrome_missing [CharP R 2] {c : Nat → R} {x : R} {n : Nat}
    (h : ∑ d ∈ range n, c d * x ^ d = 0) {missing received : List Nat}
    (hp : (missing ++ received).Perm (List.range n)) :
    syndrome c x received = syndrome c x missing := by
  have hs := syndrome_perm c x hp
  rw [syndrome_append, syndrome_range, h] at hs
  exact (CharTwo.add_eq_zero.mp hs).symm

/-- The polynomial with the roots `a ^ d` for the degrees of a list, in characteristic two. -/
noncomputable def locator (a : R) (ds : List Nat) : R[X] := (ds.map fun d => X + C (a ^ d)).prod

theorem natDegree_locator_le (a : R) (ds : List Nat) : (locator a ds).natDegree ≤ ds.length := by
  refine (natDegree_list_prod_le _).trans ?_
  refine (List.sum_le_card_nsmul _ 1 ?_).trans (by simp)
  simp only [List.map_map, List.mem_map, Function.comp_apply, forall_exists_index, and_imp]
  rintro _ d _ rfl
  exact (natDegree_add_C.le).trans natDegree_X_le

theorem eval_locator (a x : R) (ds : List Nat) :
    (locator a ds).eval x = (ds.map fun d => x + a ^ d).prod := by
  rw [locator, eval_list_prod, List.map_map]
  congr 2
  funext d
  simp

theorem eval_locator_mem [CharP R 2] {a : R} {ds : List Nat} {d : Nat} (h : d ∈ ds) :
    (locator a ds).eval (a ^ d) = 0 := by
  rw [eval_locator]
  apply List.prod_eq_zero
  exact List.mem_map.mpr ⟨d, h, CharTwo.add_self_eq_zero _⟩

/-- The syndromes at the powers of `a`, weighted with the coefficients of a polynomial. -/
theorem sum_syndrome_mul_coeff (a : R) (c : Nat → R) (ds : List Nat) {p : R[X]} {v : Nat}
    (hp : p.natDegree < v) :
    ∑ j ∈ range v, syndrome c (a ^ (j + 1)) ds * p.coeff j =
      (ds.map fun d => c d * (a ^ d * p.eval (a ^ d))).sum := by
  induction ds with
  | nil => simp [syndrome]
  | cons d ds ih =>
    have hd : ∑ j ∈ range v, c d * (a ^ (j + 1)) ^ d * p.coeff j =
        c d * (a ^ d * p.eval (a ^ d)) := by
      rw [eval_eq_sum_range' hp, mul_sum, mul_sum]
      apply sum_congr rfl
      intro j _
      rw [← pow_mul, ← pow_mul]
      ring
    simp only [syndrome, List.map_cons, List.sum_cons, add_mul, sum_add_distrib] at ih ⊢
    rw [hd, ih]

/-- The symbol at one of the unknown degrees, out of the syndromes of all of them: what the
sum over the syndromes gives is the symbol times a factor that depends on the degrees alone. -/
theorem erasure_formula [CharP R 2] (a : R) (c : Nat → R) {ds others : List Nat} {d : Nat}
    (hp : ds.Perm (d :: others)) :
    ∑ j ∈ range ds.length, syndrome c (a ^ (j + 1)) ds * (locator a others).coeff j =
      c d * (a ^ d * (locator a others).eval (a ^ d)) := by
  have hdeg : (locator a others).natDegree < ds.length := by
    have := natDegree_locator_le a others
    rw [hp.length_eq, List.length_cons]
    omega
  rw [sum_syndrome_mul_coeff a c ds hdeg, (hp.map _).sum_eq, List.map_cons, List.sum_cons,
    List.sum_eq_zero, add_zero]
  intro x hx
  obtain ⟨e, he, rfl⟩ := List.mem_map.mp hx
  rw [eval_locator_mem he]
  ring

/-- A degree whose power is none of the listed powers is no root of their locator. -/
theorem eval_locator_ne_zero [CharP R 2] [IsDomain R] {a : R} {ds : List Nat} {d : Nat}
    (h : ∀ e ∈ ds, a ^ d ≠ a ^ e) : (locator a ds).eval (a ^ d) ≠ 0 := by
  rw [eval_locator]
  apply List.prod_ne_zero
  intro hz
  obtain ⟨e, he, hsum⟩ := List.mem_map.mp hz
  exact h e he (CharTwo.add_eq_zero.mp hsum)

end erasure_code
