-- Words as their bytes in memory, lowest byte first.
import Mathlib

namespace little_endian

/-- The lowest `n` bytes of a number. -/
def bytes : Nat → Nat → List UInt8
  | 0, _ => []
  | n + 1, x => UInt8.ofNat x :: bytes n (x / 256)

/-- The number that bytes stand for. -/
def number : List UInt8 → Nat
  | [] => 0
  | b :: bs => b.toNat + 256 * number bs

@[simp] theorem length_bytes (n x : Nat) : (bytes n x).length = n := by
  induction n generalizing x with
  | zero => rfl
  | succ n ih => rw [bytes, List.length_cons, ih]

theorem number_lt (bs : List UInt8) : number bs < 256 ^ bs.length := by
  induction bs with
  | nil => simp [number]
  | cons b bs ih =>
    have := b.toNat_lt
    rw [number, List.length_cons, pow_succ]
    omega

@[simp] theorem number_bytes {n x : Nat} (h : x < 256 ^ n) : number (bytes n x) = x := by
  induction n generalizing x with
  | zero =>
    rw [pow_zero] at h
    rw [bytes, number]
    omega
  | succ n ih =>
    rw [pow_succ] at h
    rw [bytes, number, ih (by omega), UInt8.toNat_ofNat']
    omega

theorem bytes_number (bs : List UInt8) : bytes bs.length (number bs) = bs := by
  induction bs with
  | nil => rfl
  | cons b bs ih =>
    have hb := b.toNat_lt
    have hdiv : (b.toNat + 256 * number bs) / 256 = number bs := by omega
    rw [List.length_cons, number, bytes, hdiv, ih]
    congr 1
    apply UInt8.toNat_inj.mp
    rw [UInt8.toNat_ofNat']
    omega

/-- The number in the `n` bytes of a buffer from an offset on. -/
def field (offset n : Nat) (buf : List UInt8) : Nat := number ((buf.drop offset).take n)

/-- The number with the bytes turned around. -/
def swap (n x : Nat) : Nat := number (bytes n x).reverse

theorem swap_lt (n x : Nat) : swap n x < 256 ^ n := by
  have := number_lt (bytes n x).reverse
  rwa [List.length_reverse, length_bytes] at this

theorem swap_swap {n x : Nat} (h : x < 256 ^ n) : swap n (swap n x) = x := by
  have hback := bytes_number (bytes n x).reverse
  rw [List.length_reverse, length_bytes] at hback
  unfold swap
  rw [hback, List.reverse_reverse, number_bytes h]

end little_endian
