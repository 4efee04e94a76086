-- The Galois field of galois.c: the tables that `galois_init` builds, and the
-- arithmetic that reads them. A `uint32_t` is a natural number here, and
-- `u32` is where the code can wrap around.
import Nettle.BinaryField
import Nettle.InPlace

open binary_field in_place

namespace nettle.galois

/-! ## The tables -/

/-- What a `uint32_t` keeps of a number. -/
def u32 (n : Nat) : Nat := n % 2 ^ 32

structure galois_t where
  degree : Nat
  order : Nat
  gen_poly : Nat
  exps : List Nat
  logs : List Nat

/-- One turn of the loop of `galois_init`, on `exps` and `logs`. -/
def galois_init_turn (degree gen_poly : Nat) (t : List Nat × List Nat) (i : Nat) :
    List Nat × List Nat :=
  let prev := t.1.getD (i - 1) 0
  let h := prev >>> (degree - 1) -- the sign
  let s := u32 (prev <<< 1)
  let e := s ^^^ (gen_poly &&& u32 (2 ^ 32 - h))
  (t.1.set i e, t.2.set e i)

def galois_init (degree gen_poly : Nat) : galois_t :=
  let order := u32 (1 <<< degree)
  let exps := (List.replicate order 0).set 0 1
  let exps := exps.set (order - 1) (exps.getD 0 0)
  let logs := ((List.replicate order 0).set 0 0).set 1 0
  let t := (List.range' 1 (order - 2)).foldl (galois_init_turn degree gen_poly) (exps, logs)
  { degree, order, gen_poly, exps := t.1, logs := t.2 }

def galois256_init : galois_t := galois_init 8 0b100011101

/-! ## The arithmetic -/

def galois_order (galois : galois_t) : Nat := galois.order

def galois_element (galois : galois_t) (i : Nat) : Nat := galois.exps.getD (i % (galois.order - 1)) 0

def galois_index (galois : galois_t) (i : Nat) : Nat := galois.logs.getD i 0

def galois_add (a b : Nat) : Nat := a ^^^ b

def galois_mul (galois : galois_t) (a b : Nat) : Nat :=
  if a = 0 ∨ b = 0 then 0
  else galois_element galois (u32 (galois_index galois a + galois_index galois b))

/-- `none` is the division by zero that the C code would trap on. -/
def galois_div (galois : galois_t) (a b : Nat) : Option Nat :=
  if a = 0 ∨ b = 0 then (if b = 0 then none else some (a / b))
  else some (galois_element galois
    (u32 (galois.order - 1 + galois_index galois a + (2 ^ 32 - galois_index galois b))))

def galois_inv (galois : galois_t) (a : Nat) : Nat :=
  galois_element galois (u32 (galois.order - 1 + (2 ^ 32 - galois_index galois a)))

/-- `dst` times `X + scale`, in place from the top down. -/
def shift_add_scale_loop (galois : galois_t) (scale : Nat) : Nat → List Nat → List Nat
  | 0, dst => dst
  | i + 1, dst => shift_add_scale_loop galois scale i
      (dst.set (i + 1) (galois_add (dst.getD i 0) (galois_mul galois (dst.getD (i + 1) 0) scale)))

def galois_poly_shift_add_scale (galois : galois_t) (dst : List Nat) (degree scale : Nat) :
    List Nat :=
  let degree_res := degree + 1
  let dst := shift_add_scale_loop galois scale degree_res (dst.set degree_res 0)
  dst.set 0 (galois_mul galois (dst.getD 0 0) scale)

/-! ## What the tables hold -/

/-- The tables of the field of a primitive polynomial: `exps` holds the words of the powers
of `X`, and `logs` their exponents. -/
structure Tables (m g : Nat) (galois : galois_t) : Prop where
  primitive : Primitive m g
  degree_le : m ≤ 31
  order_eq : galois.order = 2 ^ m
  exps_lt : ∀ k < 2 ^ m - 1, galois.exps.getD k 0 < 2 ^ m
  residue_exps : ∀ k < 2 ^ m - 1, residue g (galois.exps.getD k 0) = root g ^ k
  logs_exps : ∀ k < 2 ^ m - 1, galois.logs.getD (galois.exps.getD k 0) 0 = k

/-- The mask of the reduction: `0 - h` is all ones where the sign bit is set. -/
theorem mask_eq {m g prev : Nat} (h : Primitive m g) (hp : prev < 2 ^ m) :
    u32 (2 ^ 32 - prev >>> (m - 1)) = if prev.testBit (m - 1) then 2 ^ 32 - 1 else 0 := by
  have hhalf : 2 ^ m = 2 ^ (m - 1) * 2 := by
    rw [← pow_succ, show m - 1 + 1 = m from by have := h.two_le; omega]
  have hlt : prev >>> (m - 1) < 2 := by
    rw [Nat.shiftRight_eq_div_pow]
    exact Nat.div_lt_of_lt_mul (by omega)
  rcases Nat.le_one_iff_eq_zero_or_eq_one.mp (Nat.lt_succ_iff.mp hlt) with hq | hq
  · rw [hq, if_neg (by simp [Nat.testBit, hq])]
    decide
  · rw [hq, if_pos (by simp [Nat.testBit, hq])]
    decide

/-- The sign bit selects `gen_poly` in full, so one turn multiplies by `X`. -/
theorem turn_word {m g prev : Nat} (h : Primitive m g) (hm : m ≤ 31) (hp : prev < 2 ^ m) :
    u32 (prev <<< 1) ^^^ (g &&& u32 (2 ^ 32 - prev >>> (m - 1))) = mulX m g prev := by
  have h31 : 2 ^ m ≤ 2 ^ 31 := Nat.pow_le_pow_right (by omega) hm
  have hg : g < 2 ^ 32 := lt_of_lt_of_le h.lt (Nat.pow_le_pow_right (by omega) (by omega))
  have hshift : u32 (prev <<< 1) = prev <<< 1 := by
    unfold u32
    rw [Nat.shiftLeft_eq]
    omega
  rw [hshift, mask_eq h hp]
  unfold mulX
  split
  · rw [Nat.and_two_pow_sub_one_eq_mod, Nat.mod_eq_of_lt hg]
  · rw [Nat.and_zero, Nat.xor_zero]

/-- The tables after `n` turns of the loop of `galois_init`. -/
structure Filled (m g n : Nat) (t : List Nat × List Nat) : Prop where
  exps_len : t.1.length = 2 ^ m
  logs_len : t.2.length = 2 ^ m
  exps_lt : ∀ k ≤ n, t.1.getD k 0 < 2 ^ m
  residue_exps : ∀ k ≤ n, residue g (t.1.getD k 0) = root g ^ k
  logs_exps : ∀ k ≤ n, t.2.getD (t.1.getD k 0) 0 = k

theorem filled_turn {m g n : Nat} {t : List Nat × List Nat} (h : Primitive m g) (hm : m ≤ 31)
    (hn : n + 1 < 2 ^ m - 1) (hf : Filled m g n t) :
    Filled m g (n + 1) (galois_init_turn m g t (n + 1)) := by
  obtain ⟨f1, f2, f3, f4, f5⟩ := hf
  unfold galois_init_turn
  simp only [Nat.add_sub_cancel, turn_word h hm (f3 n (Nat.le_refl n))]
  have hword : residue g (mulX m g (t.1.getD n 0)) = root g ^ (n + 1) := by
    rw [OfDegree.residue_mulX, f4 n (Nat.le_refl n), pow_succ']
  have hlt := h.mulX_lt (by have := h.two_le; omega) (f3 n (Nat.le_refl n))
  generalize mulX m g (t.1.getD n 0) = e at hword hlt
  have hself : (t.1.set (n + 1) e).getD (n + 1) 0 = e := getD_set_self (by omega)
  have hold : ∀ k ≤ n, (t.1.set (n + 1) e).getD k 0 = t.1.getD k 0 := fun k hk =>
    getD_set_ne (by omega)
  refine ⟨by simp [f1], by simp [f2], ?_, ?_, ?_⟩
  · intro k hk
    rcases Nat.le_succ_iff.mp hk with hk | rfl
    · simp only [hold k hk]; exact f3 k hk
    · simp only [hself]; exact hlt
  · intro k hk
    rcases Nat.le_succ_iff.mp hk with hk | rfl
    · simp only [hold k hk]; exact f4 k hk
    · simp only [hself]; exact hword
  · intro k hk
    rcases Nat.le_succ_iff.mp hk with hk | rfl
    · simp only [hold k hk]
      -- The new word is no earlier power of X, so its log disturbs none of theirs.
      have hne : e ≠ t.1.getD k 0 := by
        intro he
        have := f4 k hk
        rw [← he, hword] at this
        have := h.pow_inj (by omega) (by omega) this
        omega
      rw [getD_set_ne hne]
      exact f5 k hk
    · simp only [hself]
      exact getD_set_self (by omega)

theorem filled_start {m g : Nat} (h : Primitive m g) :
    Filled m g 0 (((List.replicate (2 ^ m) 0).set 0 1).set (2 ^ m - 1) 1,
      ((List.replicate (2 ^ m) 0).set 0 0).set 1 0) := by
  have hlt := h.one_lt_two_pow
  have h0 : (((List.replicate (2 ^ m) 0).set 0 1).set (2 ^ m - 1) 1).getD 0 0 = 1 := by
    rw [getD_set_ne (by omega), getD_set_self (by simp)]
  refine ⟨by simp, by simp, ?_, ?_, ?_⟩
  · intro k hk
    rw [Nat.le_zero.mp hk]
    simp only [h0]
    omega
  · intro k hk
    rw [Nat.le_zero.mp hk]
    simp only [h0]
    simp
  · intro k hk
    rw [Nat.le_zero.mp hk]
    simp only [h0]
    exact getD_set_self (by rw [List.length_set, List.length_replicate]; omega)

theorem filled_loop {m g : Nat} {t : List Nat × List Nat} (h : Primitive m g) (hm : m ≤ 31)
    (h0 : Filled m g 0 t) (n : Nat) (hn : n < 2 ^ m - 1) :
    Filled m g n ((List.range' 1 n).foldl (galois_init_turn m g) t) := by
  induction n with
  | zero => exact h0
  | succ n ih =>
    rw [List.range'_1_concat, List.foldl_append, Nat.add_comm 1 n]
    exact filled_turn h hm hn (ih (by omega))

theorem galois_init_order {m : Nat} (hm : m ≤ 31) (g : Nat) : (galois_init m g).order = 2 ^ m := by
  have hlt : 2 ^ m < 2 ^ 32 := Nat.pow_lt_pow_right (by omega) (by omega)
  change u32 (1 <<< m) = 2 ^ m
  rw [Nat.one_shiftLeft]
  exact Nat.mod_eq_of_lt hlt

theorem galois_init_filled {m g : Nat} (h : Primitive m g) (hm : m ≤ 31) :
    Filled m g (2 ^ m - 2) ((galois_init m g).exps, (galois_init m g).logs) := by
  have hlt := h.one_lt_two_pow
  have horder : u32 (1 <<< m) = 2 ^ m := galois_init_order hm g
  have hone : ((List.replicate (2 ^ m) 0).set 0 1).getD 0 0 = 1 := getD_set_self (by simp)
  unfold galois_init
  simp only [horder, hone]
  exact filled_loop h hm (filled_start h) (2 ^ m - 2) (by omega)

/-- `galois_init` builds the tables of a primitive polynomial. -/
theorem galois_init_tables {m g : Nat} (h : Primitive m g) (hm : m ≤ 31) :
    Tables m g (galois_init m g) := by
  have hlt := h.one_lt_two_pow
  have hf := galois_init_filled h hm
  exact ⟨h, hm, galois_init_order hm g, fun k hk => hf.exps_lt k (by omega),
    fun k hk => hf.residue_exps k (by omega), fun k hk => hf.logs_exps k (by omega)⟩

/-! ## The arithmetic on the tables -/

namespace Tables

variable {m g : Nat} {galois : galois_t} (h : Tables m g galois)

include h

theorem two_pow_le : 2 ^ m ≤ 2 ^ 31 := Nat.pow_le_pow_right (by omega) h.degree_le

theorem element_lt (i : Nat) : galois_element galois i < 2 ^ m := by
  unfold galois_element
  rw [h.order_eq]
  have := h.primitive.one_lt_two_pow
  exact h.exps_lt _ (Nat.mod_lt _ (by omega))

/-- `galois_element` gives the word of a power of `X`. -/
@[simp] theorem residue_element (i : Nat) : residue g (galois_element galois i) = root g ^ i := by
  unfold galois_element
  rw [h.order_eq]
  have := h.primitive.one_lt_two_pow
  rw [h.residue_exps _ (Nat.mod_lt _ (by omega)), h.primitive.pow_mod]

/-- `galois_index` gives the exponent of a non-zero word. -/
theorem index_spec {a : Nat} (ha : a < 2 ^ m) (h0 : a ≠ 0) :
    galois_index galois a < 2 ^ m - 1 ∧ residue g a = root g ^ galois_index galois a := by
  have hne : residue g a ≠ 0 := fun hz => h0 (h.primitive.residue_eq_zero ha hz)
  obtain ⟨k, hk, hres⟩ := h.primitive.exists_pow_lt hne
  have hword : galois.exps.getD k 0 = a := by
    apply h.primitive.residue_inj (h.exps_lt k hk) ha
    rw [h.residue_exps k hk, hres]
  have hlog : galois_index galois a = k := by
    unfold galois_index
    rw [← hword]
    exact h.logs_exps k hk
  rw [hlog]
  exact ⟨hk, hres⟩

theorem mul_lt (a b : Nat) : galois_mul galois a b < 2 ^ m := by
  unfold galois_mul
  split
  · positivity
  · exact h.element_lt _

/-- `galois_mul` multiplies residues. -/
theorem residue_mul {a b : Nat} (ha : a < 2 ^ m) (hb : b < 2 ^ m) :
    residue g (galois_mul galois a b) = residue g a * residue g b := by
  unfold galois_mul
  split
  · rename_i hz
    rcases hz with rfl | rfl <;> simp
  · rename_i hz
    push Not at hz
    obtain ⟨hla, hra⟩ := h.index_spec ha hz.1
    obtain ⟨hlb, hrb⟩ := h.index_spec hb hz.2
    have hfit : u32 (galois_index galois a + galois_index galois b) =
        galois_index galois a + galois_index galois b := by
      have := h.two_pow_le
      unfold u32
      omega
    rw [h.residue_element, hfit, hra, hrb, pow_add]

/-- `galois_div` by a non-zero word never traps, and gives the quotient. -/
theorem div_spec {a b : Nat} (ha : a < 2 ^ m) (hb : b < 2 ^ m) (h0 : b ≠ 0) :
    ∃ c, galois_div galois a b = some c ∧ c < 2 ^ m ∧ residue g c * residue g b = residue g a := by
  unfold galois_div
  rcases Nat.eq_zero_or_pos a with rfl | hpos
  · refine ⟨0, by simp [h0], by positivity, by simp⟩
  · have hz : a ≠ 0 := by omega
    rw [if_neg (by tauto)]
    refine ⟨_, rfl, h.element_lt _, ?_⟩
    obtain ⟨hla, hra⟩ := h.index_spec ha hz
    obtain ⟨hlb, hrb⟩ := h.index_spec hb h0
    have hfit : u32 (galois.order - 1 + galois_index galois a + (2 ^ 32 - galois_index galois b)) =
        2 ^ m - 1 + galois_index galois a - galois_index galois b := by
      have := h.two_pow_le
      rw [h.order_eq]
      unfold u32
      omega
    rw [h.residue_element, hfit, hra, hrb, ← pow_add, h.primitive.pow_eq_pow_iff]
    rw [show 2 ^ m - 1 + galois_index galois a - galois_index galois b + galois_index galois b =
      galois_index galois a + (2 ^ m - 1) by omega]
    exact Nat.add_mod_right _ _

/-- `galois_inv` gives the inverse of a non-zero word. -/
theorem inv_spec {a : Nat} (ha : a < 2 ^ m) (h0 : a ≠ 0) :
    residue g a * residue g (galois_inv galois a) = 1 := by
  obtain ⟨hla, hra⟩ := h.index_spec ha h0
  have hfit : u32 (galois.order - 1 + (2 ^ 32 - galois_index galois a)) =
      2 ^ m - 1 - galois_index galois a := by
    have := h.two_pow_le
    rw [h.order_eq]
    unfold u32
    omega
  rw [galois_inv, h.residue_element, hfit, hra, ← pow_add, ← pow_zero (root g),
    h.primitive.pow_eq_pow_iff, Nat.add_sub_cancel' hla.le]
  exact Nat.mod_self _

end Tables

/-! ## The field of 256 elements -/

theorem primitive_285 : Primitive 8 0b100011101 := by
  apply Primitive.of_orbit (by omega) ⟨by decide, by decide⟩
  decide +kernel

theorem galois256_tables : Tables 8 0b100011101 galois256_init :=
  galois_init_tables primitive_285 (by omega)

end nettle.galois
