-- Strings (utils.h) and what sscanf makes of them. A string is the list of its characters, and
-- a position in it is what is left behind.
import Mathlib

namespace nettle.utils

def contains (c : Char) : List Char → Bool
  | [] => false
  | s :: str => if s = c then true else contains c str

def starts_with : List Char → List Char → Bool
  | [], _ => true
  | _ :: _, [] => false
  | p :: delimiter, s :: str => if p ≠ s then false else starts_with delimiter str

def skip (set : List Char) : List Char → List Char
  | [] => []
  | c :: str => if !contains c set then c :: str else skip set str

/-- `none` is NULL. -/
def skip_delimit (delimiter str : List Char) : Option (List Char) :=
  let str := skip [' ', '\t'] str
  if !starts_with delimiter str then none
  else some (skip [' ', '\t'] (str.drop delimiter.length))

/-! ## Formats -/

/-- The white space of `isspace`. -/
def is_space (c : Char) : Bool :=
  c == ' ' || c == '\t' || c == '\n' || c == '\x0b' || c == '\x0c' || c == '\r'

def skip_space (str : List Char) : List Char := str.dropWhile is_space

/-- The value of a string of digits. -/
def decimal (digits : List Char) : Nat :=
  digits.foldl (fun n c => 10 * n + (c.toNat - '0'.toNat)) 0

/-- A number read as a long that is stored in an int. -/
def to_int (n : Int) : Int := (max (-2 ^ 63) (min n (2 ^ 63 - 1))).bmod (2 ^ 32)

/-- `%d%n`: white space, an optional sign and the longest string of digits. -/
def scan_int (str : List Char) : Option (Int × List Char) :=
  let read (sign : Int) (str : List Char) : Option (Int × List Char) :=
    let digits := str.takeWhile Char.isDigit
    if digits = [] then none else some (to_int (sign * decimal digits), str.dropWhile Char.isDigit)
  match skip_space str with
  | '+' :: str => read 1 str
  | '-' :: str => read (-1) str
  | str => read 1 str

/-- A character of a format. -/
def scan_literal (c : Char) : List Char → Option (List Char)
  | [] => none
  | s :: str => if s = c then some str else none

/-- `%s` of at most `width` characters: white space and the word after it. -/
def scan_string (width : Nat) (str : List Char) : Option (List Char × List Char) :=
  let str := skip_space str
  let word := (str.takeWhile (!is_space ·)).take width
  if word = [] then none else some (word, str.drop word.length)

/-! ## Blanks -/

/-- Blanks and tabs. -/
def Blank (str : List Char) : Prop := ∀ c ∈ str, c = ' ' ∨ c = '\t'

theorem contains_iff (c : Char) (set : List Char) : contains c set = true ↔ c ∈ set := by
  induction set with
  | nil => simp [contains]
  | cons s set ih =>
    rw [contains, List.mem_cons]
    by_cases hs : s = c
    · simp [hs]
    · rw [if_neg hs, ih]
      exact ⟨Or.inr, fun h => h.resolve_left (Ne.symm hs)⟩

theorem skip_eq_dropWhile (set str : List Char) : skip set str = str.dropWhile (contains · set) := by
  induction str with
  | nil => rfl
  | cons c str ih =>
    rw [skip, List.dropWhile_cons]
    cases contains c set with
    | true => simpa using ih
    | false => rfl

/-- What is skipped at the front does not matter. -/
theorem skip_append {set blanks : List Char} (h : ∀ c ∈ blanks, c ∈ set) (str : List Char) :
    skip set (blanks ++ str) = skip set str := by
  rw [skip_eq_dropWhile, skip_eq_dropWhile,
    List.dropWhile_append_of_pos fun c hc => (contains_iff c set).mpr (h c hc)]

theorem skip_of_head {set str : List Char} (h : ∀ c ∈ str.head?, c ∉ set) : skip set str = str := by
  cases str with
  | nil => rfl
  | cons c str =>
    have hc : contains c set = false := by
      rw [Bool.eq_false_iff, ne_eq, contains_iff]
      exact h c rfl
    rw [skip, hc]
    rfl

theorem skip_blank_append {blanks : List Char} (h : Blank blanks) (str : List Char) :
    skip [' ', '\t'] (blanks ++ str) = skip [' ', '\t'] str :=
  skip_append (fun c hc => by simpa using h c hc) str

theorem starts_with_one (d : Char) (str : List Char) :
    starts_with [d] str = true ↔ str.head? = some d := by
  cases str with
  | nil => simp [starts_with]
  | cons s str =>
    simp only [starts_with, ne_eq, ite_not, List.head?_cons, Option.some.injEq]
    by_cases hd : d = s
    · simp [hd]
    · simp [hd, Ne.symm hd]

/-- A delimiter with blanks around it is skipped. -/
theorem skip_delimit_append {blanks blanks' str : List Char} {d : Char} (h : Blank blanks)
    (h' : Blank blanks') (hd : d ∉ [' ', '\t']) (hstr : ∀ c ∈ str.head?, c ∉ [' ', '\t']) :
    skip_delimit [d] (blanks ++ d :: (blanks' ++ str)) = some str := by
  unfold skip_delimit
  have hskip : skip [' ', '\t'] (d :: (blanks' ++ str)) = d :: (blanks' ++ str) := by
    apply skip_of_head
    intro c hc
    rw [List.head?_cons, Option.mem_some_iff] at hc
    exact hc ▸ hd
  simp only [skip_blank_append h, hskip]
  rw [if_neg (by simp [starts_with])]
  simp only [List.length_singleton, List.drop_one, List.tail_cons, skip_blank_append h']
  rw [skip_of_head hstr]

theorem skip_delimit_none {str : List Char} {d : Char}
    (h : (skip [' ', '\t'] str).head? ≠ some d) : skip_delimit [d] str = none := by
  unfold skip_delimit
  rw [if_pos]
  rw [Bool.not_eq_true', Bool.eq_false_iff, ne_eq, starts_with_one]
  exact h

/-! ## Numbers -/

/-- The digits write this number. -/
structure Writes (digits : List Char) (n : Nat) : Prop where
  nonempty : digits ≠ []
  all : ∀ c ∈ digits, c.isDigit = true
  value : decimal digits = n

theorem isDigit_plain {c : Char} (h : c.isDigit = true) :
    is_space c = false ∧ c ≠ '+' ∧ c ≠ '-' ∧ c ≠ ',' ∧ c ≠ ';' ∧ c ≠ ' ' ∧ c ≠ '\t' := by
  have hne : ∀ d : Char, d.isDigit = false → c ≠ d := by
    rintro d hd rfl
    simp [h] at hd
  refine ⟨?_, hne _ rfl, hne _ rfl, hne _ rfl, hne _ rfl, hne _ rfl, hne _ rfl⟩
  simp only [is_space, Bool.or_eq_false_iff, beq_eq_false_iff_ne]
  exact ⟨⟨⟨⟨⟨hne _ rfl, hne _ rfl⟩, hne _ rfl⟩, hne _ rfl⟩, hne _ rfl⟩, hne _ rfl⟩

theorem to_int_of_lt {n : Nat} (h : n < 2 ^ 31) : to_int n = n := by
  unfold to_int
  rw [show max (-2 ^ 63) (min (n : Int) (2 ^ 63 - 1)) = n by omega]
  rw [Int.bmod_eq_of_le (by omega) (by omega)]

/-- A number is read as far as its digits go. -/
theorem scan_int_append {digits str : List Char} {n : Nat} (h : Writes digits n) (hn : n < 2 ^ 31)
    (hstr : ∀ c ∈ str.head?, c.isDigit = false) : scan_int (digits ++ str) = some ((n : Int), str) := by
  obtain ⟨c, cs, rfl⟩ := List.exists_cons_of_ne_nil h.nonempty
  obtain ⟨hspace, hplus, hminus, -⟩ := isDigit_plain (h.all c List.mem_cons_self)
  have hskip : skip_space (c :: cs ++ str) = c :: (cs ++ str) := by
    simp [skip_space, hspace]
  have htail : str.takeWhile Char.isDigit = [] ∧ str.dropWhile Char.isDigit = str := by
    cases str with
    | nil => exact ⟨rfl, rfl⟩
    | cons s str =>
      have hs := hstr s rfl
      exact ⟨List.takeWhile_cons_of_neg (by simp [hs]), List.dropWhile_cons_of_neg (by simp [hs])⟩
  have htake : (c :: (cs ++ str)).takeWhile Char.isDigit = c :: cs := by
    rw [← List.cons_append, List.takeWhile_append_of_pos h.all, htail.1, List.append_nil]
  have hdrop : (c :: (cs ++ str)).dropWhile Char.isDigit = str := by
    rw [← List.cons_append, List.dropWhile_append_of_pos h.all, htail.2]
  unfold scan_int
  rw [hskip]
  split
  · next heq => exact absurd (List.cons.inj heq).1 hplus
  · next heq => exact absurd (List.cons.inj heq).1 hminus
  · simp only [htake, hdrop, reduceCtorEq, if_false, h.value, Int.one_mul, to_int_of_lt hn]

end nettle.utils
