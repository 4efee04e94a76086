-- Binary polynomials as the bits of a word, and the residues modulo one of
-- them. When the powers of X give every non-zero residue, the residues are
-- a domain, and each of them is the residue of exactly one short word.
import Mathlib

open Polynomial

namespace binary_field

/-! ## The polynomial of a word -/

/-- Bit `i` of the word is the coefficient of `X ^ i`. -/
noncomputable def bitPoly (a : Nat) : (ZMod 2)[X] :=
  ∑ i ∈ Finset.range a.size, if a.testBit i then X ^ i else 0

theorem testBit_of_size_le {a i : Nat} (h : a.size ≤ i) : a.testBit i = false :=
  Nat.testBit_lt_two_pow (lt_of_lt_of_le (Nat.lt_size_self a) (Nat.pow_le_pow_right (by omega) h))

@[simp] theorem coeff_bitPoly (a i : Nat) :
    (bitPoly a).coeff i = if a.testBit i then 1 else 0 := by
  have hterm : ∀ j, (if a.testBit j then (X : (ZMod 2)[X]) ^ j else 0).coeff i =
      if i = j then (if a.testBit i then 1 else 0) else 0 := by
    intro j
    by_cases hij : i = j
    · subst hij
      split <;> simp
    · split <;> simp [hij, coeff_X_pow]
  simp only [bitPoly, finsetSum_coeff, hterm]
  rw [Finset.sum_ite_eq]
  split
  · rfl
  · rename_i hout
    rw [testBit_of_size_le (by simpa using hout)]
    rfl

theorem bitPoly_zero : bitPoly 0 = 0 := by
  ext i
  simp

theorem bitPoly_two_pow (n : Nat) : bitPoly (2 ^ n) = X ^ n := by
  ext i
  simp only [coeff_bitPoly, Nat.testBit_two_pow, decide_eq_true_eq, coeff_X_pow]
  split <;> simp_all [eq_comm]

theorem bitPoly_xor (a b : Nat) : bitPoly (a ^^^ b) = bitPoly a + bitPoly b := by
  have hbit : ∀ x y : Bool, (if (x ^^ y) = true then (1 : ZMod 2) else 0) =
      (if x then 1 else 0) + (if y then 1 else 0) := by decide
  ext i
  simp only [coeff_bitPoly, coeff_add, Nat.testBit_xor, hbit]

theorem bitPoly_shiftLeft (a : Nat) : bitPoly (a <<< 1) = X * bitPoly a := by
  ext i
  cases i with
  | zero => simp
  | succ i => simp [Nat.testBit_shiftLeft, coeff_X_mul]

theorem bitPoly_injective : Function.Injective bitPoly := by
  intro a b h
  apply Nat.eq_of_testBit_eq
  intro i
  have hc := congrArg (fun p => p.coeff i) h
  simp only [coeff_bitPoly] at hc
  cases ha : a.testBit i <;> cases hb : b.testBit i <;> simp_all

theorem degree_bitPoly_lt {a m : Nat} (h : a < 2 ^ m) : (bitPoly a).degree < m := by
  rw [degree_lt_iff_coeff_zero]
  intro i hi
  simp [Nat.testBit_lt_two_pow (lt_of_lt_of_le h (Nat.pow_le_pow_right (by omega) hi))]

/-- Every polynomial of degree below `m` is the polynomial of a word of `m` bits. -/
theorem exists_bitPoly (m : Nat) (p : (ZMod 2)[X]) (h : p.degree < m) :
    ∃ a < 2 ^ m, bitPoly a = p := by
  have hbit : ∀ c : ZMod 2, c = if c = 1 then 1 else 0 := by decide
  refine ⟨Nat.ofBits fun i : Fin m => decide (p.coeff i = 1), Nat.ofBits_lt_two_pow _, ?_⟩
  ext i
  rw [coeff_bitPoly]
  by_cases hi : i < m
  · rw [Nat.testBit_ofBits_lt _ _ hi]
    simp [← hbit]
  · rw [Nat.testBit_ofBits_ge _ _ (by omega),
      (degree_lt_iff_coeff_zero p m).mp h i (by omega)]
    rfl

/-! ## Residues -/

abbrev Residue (g : Nat) := AdjoinRoot (bitPoly g)

/-- The residue of a word modulo the polynomial of `g`. -/
noncomputable def residue (g a : Nat) : Residue g := AdjoinRoot.mk (bitPoly g) (bitPoly a)

/-- The residue of `X`. -/
noncomputable def root (g : Nat) : Residue g := AdjoinRoot.root (bitPoly g)

variable (g : Nat)

@[simp] theorem residue_zero : residue g 0 = 0 := by simp [residue, bitPoly_zero]

@[simp] theorem residue_one : residue g 1 = 1 := by
  have := bitPoly_two_pow 0
  rw [pow_zero, pow_zero] at this
  rw [residue, this, map_one]

theorem residue_two : residue g 2 = root g := by
  have := bitPoly_two_pow 1
  rw [pow_one, pow_one] at this
  rw [residue, this]
  rfl

@[simp] theorem residue_xor (a b : Nat) : residue g (a ^^^ b) = residue g a + residue g b := by
  simp [residue, bitPoly_xor]

@[simp] theorem residue_self : residue g g = 0 := AdjoinRoot.mk_self

theorem residue_shiftLeft (a : Nat) : residue g (a <<< 1) = root g * residue g a := by
  simp [residue, bitPoly_shiftLeft, root]

/-- The addition of residues is its own inverse. -/
theorem add_self (x : Residue g) : x + x = 0 := by
  obtain ⟨p, rfl⟩ := AdjoinRoot.mk_surjective x
  rw [← map_add, CharTwo.add_self_eq_zero, map_zero]

/-! ## Polynomials of degree m -/

/-- Two words of the same highest bit leave a shorter one. -/
theorem xor_lt_two_pow_of_testBit {k a b : Nat} (ha : a < 2 ^ (k + 1)) (hb : b < 2 ^ (k + 1))
    (hbit : a.testBit k = b.testBit k) : a ^^^ b < 2 ^ k := by
  apply Nat.lt_pow_two_of_testBit
  intro i hi
  rw [Nat.testBit_xor]
  rcases Nat.eq_or_lt_of_le hi with rfl | hlt
  · rw [hbit, Bool.xor_self]
  · rw [Nat.testBit_lt_two_pow (lt_of_lt_of_le ha (Nat.pow_le_pow_right (by omega) hlt)),
      Nat.testBit_lt_two_pow (lt_of_lt_of_le hb (Nat.pow_le_pow_right (by omega) hlt)),
      Bool.xor_self]

theorem lt_two_pow_of_testBit {k a : Nat} (ha : a < 2 ^ (k + 1)) (hbit : a.testBit k = false) :
    a < 2 ^ k := by
  have hxor := xor_lt_two_pow_of_testBit ha (Nat.two_pow_pos (k + 1)) (by rw [hbit, Nat.zero_testBit])
  rwa [Nat.xor_zero] at hxor

/-- The word `g` is a polynomial of degree `m`. -/
structure OfDegree (m g : Nat) : Prop where
  lead : g.testBit m = true
  lt : g < 2 ^ (m + 1)

/-- One multiplication by `X` of a residue word of `m` bits. -/
def mulX (m g a : Nat) : Nat := if a.testBit (m - 1) then a <<< 1 ^^^ g else a <<< 1

namespace OfDegree

variable {m g : Nat} (h : OfDegree m g)

include h

theorem degree_eq : (bitPoly g).degree = m := by
  apply le_antisymm
  · have := degree_bitPoly_lt h.lt
    exact Order.lt_succ_iff.mp (by exact_mod_cast this)
  · apply le_degree_of_ne_zero
    simp [h.lead]

theorem monic : (bitPoly g).Monic := by
  rw [Monic, leadingCoeff, natDegree_eq_of_degree_eq_some h.degree_eq, coeff_bitPoly, if_pos h.lead]

theorem residue_eq_zero {a : Nat} (ha : a < 2 ^ m) (hz : residue g a = 0) : a = 0 := by
  by_contra hne
  have hp : bitPoly a ≠ 0 := fun he => hne (bitPoly_injective (he.trans bitPoly_zero.symm))
  refine h.monic.not_dvd_of_degree_lt hp ?_ (AdjoinRoot.mk_eq_zero.mp hz)
  rw [h.degree_eq]
  exact degree_bitPoly_lt ha

/-- Two words of `m` bits with one residue are equal. -/
theorem residue_inj {a b : Nat} (ha : a < 2 ^ m) (hb : b < 2 ^ m)
    (hab : residue g a = residue g b) : a = b := by
  have hz : a ^^^ b = 0 := by
    apply h.residue_eq_zero (Nat.xor_lt_two_pow ha hb)
    rw [residue_xor, hab, add_self]
  exact Nat.xor_eq_zero_iff.mp hz

theorem exists_residue (r : Residue g) : ∃ a < 2 ^ m, residue g a = r := by
  obtain ⟨p, rfl⟩ := AdjoinRoot.mk_surjective r
  have hdeg : (p %ₘ bitPoly g).degree < m := by
    rw [← h.degree_eq]
    exact degree_modByMonic_lt p h.monic
  obtain ⟨a, ha, hp⟩ := exists_bitPoly m _ hdeg
  refine ⟨a, ha, ?_⟩
  rw [residue, hp, AdjoinRoot.mk_eq_mk]
  exact ⟨-(p /ₘ bitPoly g), by linear_combination modByMonic_add_div p (bitPoly g)⟩

/-- The residues are the `2 ^ m` residues of the words of `m` bits. -/
theorem card : Nat.card (Residue g) = 2 ^ m := by
  have hb : Function.Bijective (fun a : Fin (2 ^ m) => residue g a) := by
    constructor
    · intro a b hab
      exact Fin.ext (h.residue_inj a.2 b.2 hab)
    · intro r
      obtain ⟨a, ha, hr⟩ := h.exists_residue r
      exact ⟨⟨a, ha⟩, hr⟩
  rw [← Nat.card_eq_of_bijective _ hb, Nat.card_fin]

omit h in
theorem residue_mulX (m g a : Nat) : residue g (mulX m g a) = root g * residue g a := by
  unfold mulX
  split
  · rw [residue_xor, residue_self, add_zero, residue_shiftLeft]
  · exact residue_shiftLeft g a

theorem mulX_lt (hm : 0 < m) {a : Nat} (ha : a < 2 ^ m) : mulX m g a < 2 ^ m := by
  have hshift : a <<< 1 < 2 ^ (m + 1) := by
    rw [Nat.shiftLeft_eq, pow_succ]
    omega
  have htop : (a <<< 1).testBit m = a.testBit (m - 1) := by
    simp [Nat.testBit_shiftLeft, show 1 ≤ m by omega]
  unfold mulX
  split
  · next hbit => exact xor_lt_two_pow_of_testBit hshift h.lt (by rw [htop, hbit, h.lead])
  · next hbit => exact lt_two_pow_of_testBit hshift (by rw [htop]; simpa using hbit)

end OfDegree

/-! ## Primitive polynomials -/

/-- The powers of `X` give every non-zero residue modulo the polynomial of degree `m`. -/
structure Primitive (m g : Nat) : Prop extends OfDegree m g where
  two_le : 2 ≤ m
  generates : ∀ r : Residue g, r ≠ 0 → ∃ k, r = root g ^ k

theorem residue_iterate_mulX (m g a k : Nat) :
    residue g ((mulX m g)^[k] a) = root g ^ k * residue g a := by
  induction k with
  | zero => simp
  | succ k ih =>
    rw [Function.iterate_succ_apply', OfDegree.residue_mulX, ih]
    ring

/-- A polynomial is primitive when its first `2 ^ m - 1` powers of `X` leave every
non-zero word of `m` bits. -/
theorem Primitive.of_orbit {m g : Nat} (hm : 2 ≤ m) (h : OfDegree m g)
    (hall : ∀ a < 2 ^ m, a ≠ 0 → a ∈ List.iterate (mulX m g) 1 (2 ^ m - 1)) : Primitive m g := by
  refine ⟨h, hm, fun r hr => ?_⟩
  obtain ⟨a, ha, rfl⟩ := h.exists_residue r
  have hne : a ≠ 0 := fun h0 => hr (by rw [h0, residue_zero])
  obtain ⟨k, _, rfl⟩ := List.mem_iterate.mp (hall a ha hne)
  exact ⟨k, by rw [residue_iterate_mulX, residue_one, mul_one]⟩

namespace Primitive

variable {m g : Nat} (h : Primitive m g)

include h

theorem one_lt_two_pow : 2 < 2 ^ m := by
  calc 2 < 2 ^ 2 := by norm_num
    _ ≤ 2 ^ m := Nat.pow_le_pow_right (by omega) h.two_le

theorem nontrivial : Nontrivial (Residue g) := by
  refine ⟨1, 0, fun h10 => ?_⟩
  have := h.residue_eq_zero (a := 1) (by have := h.one_lt_two_pow; omega) (by simpa using h10)
  omega

/-- `X` has an inverse: the non-zero residue `X + 1` is a power of `X`. -/
theorem isUnit_root : IsUnit (root g) := by
  have hlt := h.one_lt_two_pow
  have h4 : 4 ≤ 2 ^ m := Nat.pow_le_pow_right (n := 2) (by omega) h.two_le
  have h3 : residue g 3 = root g + 1 := by
    rw [show (3 : Nat) = 2 ^^^ 1 from rfl, residue_xor, residue_two, residue_one]
  obtain ⟨k, hk⟩ := h.generates (residue g 3) fun h0 => by
    have := h.residue_eq_zero (by omega) h0
    omega
  rw [h3] at hk
  cases k with
  | zero =>
    rw [pow_zero, add_eq_right, ← residue_two] at hk
    have := h.residue_eq_zero hlt hk
    omega
  | succ k =>
    apply IsUnit.of_mul_eq_one (root g ^ k - 1)
    linear_combination -hk

theorem isUnit_of_ne_zero {r : Residue g} (hr : r ≠ 0) : IsUnit r := by
  obtain ⟨k, rfl⟩ := h.generates r hr
  exact h.isUnit_root.pow k

theorem isDomain : IsDomain (Residue g) := by
  have := h.nontrivial
  have : NoZeroDivisors (Residue g) := by
    refine ⟨fun {a b} hab => or_iff_not_imp_left.mpr fun ha => ?_⟩
    exact (h.isUnit_of_ne_zero ha).mul_right_eq_zero.mp hab
  exact NoZeroDivisors.to_isDomain _

theorem charP : CharP (Residue g) 2 := by
  have := h.nontrivial
  exact charP_of_injective_algebraMap (algebraMap (ZMod 2) (Residue g)).injective 2

/-- The powers of `X` repeat after `2 ^ m - 1` steps, and no sooner. -/
theorem orderOf_root : orderOf (root g) = 2 ^ m - 1 := by
  have := h.isDomain
  have : Finite (Residue g) := Nat.finite_of_card_ne_zero (by rw [h.card]; positivity)
  obtain ⟨u, hu⟩ := h.isUnit_root
  have hall : Submonoid.powers u = ⊤ := by
    rw [eq_top_iff]
    intro v _
    obtain ⟨k, hk⟩ := h.generates v v.ne_zero
    exact ⟨k, Units.ext (by rw [hk, ← hu]; push_cast; rfl)⟩
  have hunits : Nat.card (Residue g)ˣ = 2 ^ m - 1 := by
    let _ : Field (Residue g) := (Finite.isDomain_to_isField (Residue g)).toField
    rw [← h.card]
    exact Nat.card_units (Residue g)
  rw [← hu, orderOf_units, ← Nat.card_submonoidPowers, hall, ← hunits]
  exact Nat.card_congr Submonoid.topEquiv.toEquiv

theorem pow_eq_pow_iff (i j : Nat) :
    root g ^ i = root g ^ j ↔ i ≡ j [MOD 2 ^ m - 1] := by
  obtain ⟨u, hu⟩ := h.isUnit_root
  have hord : orderOf u = 2 ^ m - 1 := by rw [← h.orderOf_root, ← hu, orderOf_units]
  rw [← hord, ← pow_eq_pow_iff_modEq, ← hu]
  norm_cast

/-- Exponents below the order name different residues. -/
theorem pow_inj {i j : Nat} (hi : i < 2 ^ m - 1) (hj : j < 2 ^ m - 1)
    (hij : root g ^ i = root g ^ j) : i = j := by
  have := (h.pow_eq_pow_iff i j).mp hij
  rwa [Nat.ModEq, Nat.mod_eq_of_lt hi, Nat.mod_eq_of_lt hj] at this

theorem pow_mod (i : Nat) : root g ^ (i % (2 ^ m - 1)) = root g ^ i :=
  (h.pow_eq_pow_iff _ _).mpr (Nat.mod_modEq i _)

theorem exists_pow_lt {r : Residue g} (hr : r ≠ 0) : ∃ k < 2 ^ m - 1, r = root g ^ k := by
  obtain ⟨k, rfl⟩ := h.generates r hr
  refine ⟨k % (2 ^ m - 1), Nat.mod_lt _ ?_, (h.pow_mod k).symm⟩
  have := h.one_lt_two_pow
  omega

theorem root_pow_ne_zero (k : Nat) : root g ^ k ≠ 0 := by
  have := h.nontrivial
  exact (h.isUnit_root.pow k).ne_zero

end Primitive

end binary_field
