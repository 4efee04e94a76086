-- Words multiplied without carries, and reduced modulo the polynomial of a word. A reduced
-- product is the word of the product of two residues.
import Nettle.BinaryField

open Polynomial

namespace binary_field

/-- The shifts of `a` to the bits of `b`, added without carries. -/
def clmul (a b : Nat) : Nat :=
  (List.range b.size).foldl (fun sum i => if b.testBit i then sum ^^^ a <<< i else sum) 0

/-- The word `a` of `m + n` bits, reduced by a multiple of `g` for each bit from `m` on, the highest
bit first. -/
def reduceBits (m g : Nat) : Nat → Nat → Nat
  | 0, a => a
  | n + 1, a => reduceBits m g n (if a.testBit (m + n) then a ^^^ g <<< n else a)

def reduce (m g a : Nat) : Nat := reduceBits m g (a.size - m) a

theorem bitPoly_shiftLeft_pow (a n : Nat) : bitPoly (a <<< n) = X ^ n * bitPoly a := by
  ext i
  rw [coeff_bitPoly, Nat.testBit_shiftLeft, coeff_X_pow_mul', coeff_bitPoly]
  by_cases hi : n ≤ i <;> simp [hi]

/-- The carry-less product is the product of the polynomials. -/
theorem bitPoly_clmul (a b : Nat) : bitPoly (clmul a b) = bitPoly a * bitPoly b := by
  have hloop : ∀ n, bitPoly ((List.range n).foldl
      (fun sum i => if b.testBit i then sum ^^^ a <<< i else sum) 0) =
        bitPoly a * ∑ i ∈ Finset.range n, if b.testBit i then X ^ i else 0 := by
    intro n
    induction n with
    | zero => simp [bitPoly_zero]
    | succ n ih =>
      rw [List.range_succ, List.foldl_append, List.foldl_cons, List.foldl_nil,
        Finset.sum_range_succ]
      split
      · rw [bitPoly_xor, ih, bitPoly_shiftLeft_pow]
        ring
      · rw [ih, add_zero]
  exact hloop b.size

theorem residue_clmul (g a b : Nat) : residue g (clmul a b) = residue g a * residue g b := by
  rw [residue, bitPoly_clmul, map_mul]
  rfl

theorem residue_reduceBits (m g n a : Nat) : residue g (reduceBits m g n a) = residue g a := by
  induction n generalizing a with
  | zero => rfl
  | succ n ih =>
    rw [reduceBits, ih]
    split
    · have hmultiple : residue g (g <<< n) = 0 := by
        rw [residue, bitPoly_shiftLeft_pow, map_mul, AdjoinRoot.mk_self, mul_zero]
      rw [residue_xor, hmultiple, add_zero]
    · rfl

namespace OfDegree

variable {m g : Nat} (h : OfDegree m g)

include h

theorem reduceBits_lt (n a : Nat) (ha : a < 2 ^ (m + n)) : reduceBits m g n a < 2 ^ m := by
  induction n generalizing a with
  | zero => exact ha
  | succ n ih =>
    rw [← Nat.add_assoc] at ha
    rw [reduceBits]
    apply ih
    split
    · next hbit =>
      apply xor_lt_two_pow_of_testBit ha
      · rw [Nat.shiftLeft_eq, show m + n + 1 = m + 1 + n by omega, pow_add]
        exact Nat.mul_lt_mul_of_pos_right h.lt (by positivity)
      · rw [hbit, Nat.testBit_shiftLeft]
        simp [h.lead]
    · next hbit => exact lt_two_pow_of_testBit ha (by simpa using hbit)

/-- The reduced word is the only one of `m` bits with the residue. -/
theorem eq_reduce {a r : Nat} (hr : r < 2 ^ m) (hres : residue g r = residue g a) :
    r = reduce m g a := by
  apply h.residue_inj hr
  · apply h.reduceBits_lt
    exact lt_of_lt_of_le (Nat.lt_size_self a) (Nat.pow_le_pow_right (by omega) (by omega))
  · rw [reduce, residue_reduceBits, hres]

end OfDegree

end binary_field
