-- The law of the tables of galois.c: reading them is the arithmetic of a field, whose product
-- is the product of words without carries, reduced.
import Nettle.CarrylessProduct
import Nettle.Galois

open binary_field

namespace nettle.galois

/-- The words of the non-zero elements. -/
def nonzero (m : Nat) : Set Nat := {a | a ≠ 0 ∧ a < 2 ^ m}

/-- Each step on `uint32_t` has the value it has on numbers. The mask of the reduction is 0 or,
where `0 - h` wraps, all ones. -/
structure NoOverflow (m g : Nat) (galois : galois_t) : Prop where
  order : 1 <<< m < 2 ^ 32
  gen_poly : g < 2 ^ 32
  shift : ∀ k < galois.order - 1, galois.exps.getD k 0 <<< 1 < 2 ^ 32
  mask : ∀ k < galois.order - 1, u32 (2 ^ 32 - galois.exps.getD k 0 >>> (m - 1)) =
    if (galois.exps.getD k 0).testBit (m - 1) then 2 ^ 32 - 1 else 0
  mul : ∀ a ∈ nonzero m, ∀ b ∈ nonzero m, galois_index galois a + galois_index galois b < 2 ^ 32
  div : ∀ a ∈ nonzero m, ∀ b ∈ nonzero m, galois.order - 1 + galois_index galois a < 2 ^ 32 ∧
    galois_index galois b ≤ galois.order - 1 + galois_index galois a
  inv : ∀ a ∈ nonzero m, galois_index galois a ≤ galois.order - 1

/-- The tables are those of the field of the binary polynomials modulo `g`. -/
structure FieldArithmetic (m g : Nat) (galois : galois_t) : Prop where
  exps_length : galois.exps.length = 2 ^ m
  logs_length : galois.logs.length = 2 ^ m
  exps_bijOn : Set.BijOn (galois.exps.getD · 0) (Set.Iio (2 ^ m - 1)) (nonzero m)
  logs_bijOn : Set.BijOn (galois_index galois) (nonzero m) (Set.Iio (2 ^ m - 1))
  invOn : Set.InvOn (galois_index galois) (galois.exps.getD · 0) (Set.Iio (2 ^ m - 1)) (nonzero m)
  mul : ∀ a < 2 ^ m, ∀ b < 2 ^ m, galois_mul galois a b = reduce m g (clmul a b)
  div : ∀ a < 2 ^ m, ∀ b < 2 ^ m, b ≠ 0 → ∃ c, galois_div galois a b = some c ∧ c < 2 ^ m ∧
    galois_mul galois c b = a ∧ ∀ c' < 2 ^ m, galois_mul galois c' b = a → c' = c
  inv : ∀ a ∈ nonzero m, galois_inv galois a < 2 ^ m ∧ galois_mul galois a (galois_inv galois a) = 1
  no_overflow : NoOverflow m g galois

namespace Tables

variable {m g : Nat} {galois : galois_t} (h : Tables m g galois)

include h

theorem exps_mapsTo : Set.MapsTo (galois.exps.getD · 0) (Set.Iio (2 ^ m - 1)) (nonzero m) := by
  intro k hk
  refine ⟨?_, h.exps_lt k hk⟩
  intro hzero
  have hres := h.residue_exps k hk
  change galois.exps.getD k 0 = 0 at hzero
  rw [hzero, residue_zero] at hres
  exact h.primitive.root_pow_ne_zero k hres.symm

theorem logs_mapsTo : Set.MapsTo (galois_index galois) (nonzero m) (Set.Iio (2 ^ m - 1)) :=
  fun _ ha => (h.index_spec ha.2 ha.1).1

theorem exps_logs {a : Nat} (ha : a ∈ nonzero m) :
    galois.exps.getD (galois_index galois a) 0 = a := by
  obtain ⟨hlt, hres⟩ := h.index_spec ha.2 ha.1
  apply h.primitive.residue_inj (h.exps_lt _ hlt) ha.2
  rw [h.residue_exps _ hlt, hres]

theorem exps_logs_invOn : Set.InvOn (galois_index galois) (galois.exps.getD · 0)
    (Set.Iio (2 ^ m - 1)) (nonzero m) :=
  ⟨fun k hk => h.logs_exps k hk, fun _ ha => h.exps_logs ha⟩

theorem mul_eq_reduce {a b : Nat} (ha : a < 2 ^ m) (hb : b < 2 ^ m) :
    galois_mul galois a b = reduce m g (clmul a b) := by
  apply h.primitive.eq_reduce (h.mul_lt a b)
  rw [h.residue_mul ha hb, residue_clmul]

theorem div_mul {a b : Nat} (ha : a < 2 ^ m) (hb : b < 2 ^ m) (h0 : b ≠ 0) :
    ∃ c, galois_div galois a b = some c ∧ c < 2 ^ m ∧ galois_mul galois c b = a ∧
      ∀ c' < 2 ^ m, galois_mul galois c' b = a → c' = c := by
  obtain ⟨c, hdiv, hc, hres⟩ := h.div_spec ha hb h0
  refine ⟨c, hdiv, hc, ?_, ?_⟩
  · apply h.primitive.residue_inj (h.mul_lt c b) ha
    rw [h.residue_mul hc hb, hres]
  · intro c' hc' hmul
    have hb0 : residue g b ≠ 0 := fun hz => h0 (h.primitive.residue_eq_zero hb hz)
    have hres' := h.residue_mul hc' hb
    rw [hmul, ← hres] at hres'
    exact h.primitive.residue_inj hc' hc
      ((h.primitive.isUnit_of_ne_zero hb0).mul_right_cancel hres'.symm)

theorem mul_inv {a : Nat} (ha : a ∈ nonzero m) :
    galois_inv galois a < 2 ^ m ∧ galois_mul galois a (galois_inv galois a) = 1 := by
  have hinv : galois_inv galois a < 2 ^ m := h.element_lt _
  have hone := h.primitive.one_lt_two_pow
  refine ⟨hinv, ?_⟩
  apply h.primitive.residue_inj (h.mul_lt _ _) (by omega)
  rw [h.residue_mul ha.2 hinv, h.inv_spec ha.2 ha.1, residue_one]

theorem no_overflow : NoOverflow m g galois := by
  have hle := h.two_pow_le
  have hindex : ∀ a ∈ nonzero m, galois_index galois a < 2 ^ m - 1 := fun _ ha => h.logs_mapsTo ha
  constructor
  · rw [Nat.one_shiftLeft]
    omega
  · exact lt_of_lt_of_le h.primitive.lt
      (Nat.pow_le_pow_right (by omega) (Nat.succ_le_succ h.degree_le))
  · intro k hk
    have hlt := h.exps_lt k (by rwa [h.order_eq] at hk)
    rw [Nat.shiftLeft_eq]
    omega
  · intro k hk
    exact mask_eq h.primitive (h.exps_lt k (by rwa [h.order_eq] at hk))
  · intro a ha b hb
    have := hindex a ha
    have := hindex b hb
    omega
  · intro a ha b hb
    have := hindex a ha
    have := hindex b hb
    rw [h.order_eq]
    omega
  · intro a ha
    rw [h.order_eq]
    exact (hindex a ha).le

end Tables

/-- After `galois_init` with a primitive polynomial of a degree from 2 to 31 the tables give the
arithmetic of its field. -/
theorem the_tables_are_a_field {m g : Nat} (hm : m ≤ 31) (hp : Primitive m g) :
    FieldArithmetic m g (galois_init m g) := by
  have h := galois_init_tables hp hm
  have hfilled := galois_init_filled hp hm
  exact {
    exps_length := hfilled.exps_len
    logs_length := hfilled.logs_len
    exps_bijOn := h.exps_logs_invOn.bijOn h.exps_mapsTo h.logs_mapsTo
    logs_bijOn := h.exps_logs_invOn.symm.bijOn h.logs_mapsTo h.exps_mapsTo
    invOn := h.exps_logs_invOn
    mul := fun _ ha _ hb => h.mul_eq_reduce ha hb
    div := fun _ ha _ hb h0 => h.div_mul ha hb h0
    inv := fun _ ha => h.mul_inv ha
    no_overflow := h.no_overflow }

theorem the_tables_are_a_field_of_256 : FieldArithmetic 8 0b100011101 (galois_init 8 0b100011101) :=
  the_tables_are_a_field (by norm_num) primitive_285

end nettle.galois
