-- The symbol code of rscode.c: the generator, the shift register of the
-- encoder, the syndromes and the sigma-product formula for one erasure. Each
-- of them is shown to compute the erasure code of `ErasureCode.lean` over
-- the residues that the field tables name.
import Nettle.ErasureCode
import Nettle.Galois

open Polynomial binary_field erasure_code in_place nettle.galois

namespace nettle.rscode

structure rscode_t where
  n : Nat
  k : Nat
  galois : galois_t
  gen_poly : List Nat

def rscode_checks_num (rscode : rscode_t) : Nat := rscode.n - rscode.k

def rscode_init (k : Nat) (galois : galois_t) : rscode_t :=
  let n := galois_order galois - 1
  let T := n - k
  let gen_poly := (List.replicate (T + 1) 0).set 0 (galois_element galois 0)
  let gen_poly := (List.range' 1 T).foldl (fun gen_poly i =>
    galois_poly_shift_add_scale galois gen_poly (i - 1) (galois_element galois i)) gen_poly
  { n, k, galois, gen_poly }

def rscode_prepare (rscode : rscode_t) : List Nat := List.replicate (rscode_checks_num rscode) 0

def rscode_encode (rscode : rscode_t) (input : Nat) (checks : List Nat) : List Nat :=
  let T := rscode_checks_num rscode
  let factor := galois_add input (checks.getD 0 0)
  let checks := (List.range (T - 1)).foldl (fun checks i => checks.set i
    (galois_add (checks.getD (i + 1) 0)
      (galois_mul rscode.galois (rscode.gen_poly.getD (T - 1 - i) 0) factor))) checks
  checks.set (T - 1) (galois_mul rscode.galois (rscode.gen_poly.getD 0 0) factor)

def rscode_decode_syndromes (rscode : rscode_t) (input input_degree : Nat)
    (syndromes : List Nat) : List Nat :=
  (List.range (rscode_checks_num rscode)).foldl (fun syndromes i => syndromes.set i
    (galois_add (syndromes.getD i 0) (galois_mul rscode.galois input
      (galois_element rscode.galois (u32 (input_degree * (i + 1))))))) syndromes

def rscode_check_syndromes (rscode : rscode_t) (syndromes : List Nat) : Bool :=
  (List.range (rscode_checks_num rscode)).all fun i => syndromes.getD i 0 == 0

/-- One turn of the sigma loop of `rscode_decode_erasure`, on `sigma`, its degree `d` and
`prod`. -/
def sigma_turn (galois : galois_t) (erasure_degrees : List Nat) (erasure_index : Nat)
    (t : List Nat × Nat × Nat) (j : Nat) : List Nat × Nat × Nat :=
  let z := fun i => galois_element galois (erasure_degrees.getD i 0)
  let (sigma, d, prod) := t
  if erasure_index ≠ j then
    (galois_poly_shift_add_scale galois sigma d (z j), d + 1,
      galois_mul galois prod (galois_add (z erasure_index) (z j)))
  else (sigma, d, prod)

/-- `none` when the last step divides by zero. -/
def rscode_decode_erasure (rscode : rscode_t) (syndromes erasure_degrees : List Nat)
    (erasure_num erasure_index : Nat) : Option Nat :=
  let galois := rscode.galois
  let z_i := galois_element galois (erasure_degrees.getD erasure_index 0)
  let sigma := (List.replicate erasure_num 0).set 0 (galois_element galois 0)
  let (sigma, _, prod) := (List.range erasure_num).foldl
    (sigma_turn galois erasure_degrees erasure_index) (sigma, 0, z_i)
  let sum := (List.range erasure_num).foldl (fun sum j => galois_add sum
    (galois_mul galois (syndromes.getD (erasure_num - 1 - j) 0)
      (sigma.getD (erasure_num - 1 - j) 0))) 0
  galois_div galois sum prod

def rscode_decode_erasures (rscode : rscode_t) (syndromes erasure_degrees : List Nat)
    (erasure_num : Nat) : Option (List Nat) :=
  (List.range erasure_num).mapM
    (rscode_decode_erasure rscode syndromes erasure_degrees erasure_num)

/-! ## Coefficients in an array -/

/-- The array holds the words of the coefficients of a polynomial, constant first. -/
def Coeffs (m g : Nat) (l : List Nat) (p : (Residue g)[X]) : Prop :=
  ∀ i, l.getD i 0 < 2 ^ m ∧ residue g (l.getD i 0) = p.coeff i

section

variable {m g : Nat} {galois : galois_t} (h : Tables m g galois)

include h

theorem coeffs_one (n : Nat) :
    Coeffs m g ((List.replicate (n + 1) 0).set 0 (galois_element galois 0)) 1 := by
  intro i
  cases i with
  | zero =>
    rw [getD_set_self (by simp)]
    exact ⟨h.element_lt 0, by simp [h.residue_element]⟩
  | succ i =>
    rw [getD_set_ne (by omega), getD_replicate]
    exact ⟨by positivity, by simp [coeff_one]⟩

omit h in
theorem length_shift_add_scale_loop (scale n : Nat) (l : List Nat) :
    (shift_add_scale_loop galois scale n l).length = l.length := by
  induction n generalizing l with
  | zero => rfl
  | succ n ih => rw [shift_add_scale_loop, ih, List.length_set]

omit h in
@[simp] theorem length_shift_add_scale (l : List Nat) (degree scale : Nat) :
    (galois_poly_shift_add_scale galois l degree scale).length = l.length := by
  simp [galois_poly_shift_add_scale, length_shift_add_scale_loop]

omit h in
theorem getD_shift_add_scale_loop (galois : galois_t) (scale n : Nat) (l : List Nat)
    (hn : n < l.length) (i : Nat) :
    (shift_add_scale_loop galois scale n l).getD i 0 =
      if 0 < i ∧ i ≤ n then
        galois_add (l.getD (i - 1) 0) (galois_mul galois (l.getD i 0) scale)
      else l.getD i 0 := by
  induction n generalizing l with
  | zero => rw [shift_add_scale_loop, if_neg (by omega)]
  | succ n ih =>
    rw [shift_add_scale_loop, ih _ (by rw [List.length_set]; omega)]
    by_cases hi : i = n + 1
    · subst hi
      rw [if_neg (by omega), if_pos (by omega), getD_set_self hn, Nat.add_sub_cancel]
    · by_cases hin : 0 < i ∧ i ≤ n
      · rw [if_pos hin, if_pos (by omega), getD_set_ne (by omega), getD_set_ne (by omega)]
      · rw [if_neg hin, if_neg (by omega), getD_set_ne (by omega)]

/-- `galois_poly_shift_add_scale` multiplies by `X + scale`. -/
theorem coeffs_shift_add_scale {l : List Nat} {p : (Residue g)[X]} {degree scale : Nat}
    (hl : Coeffs m g l p) (hp : p.natDegree ≤ degree) (hlen : degree + 1 < l.length)
    (hs : scale < 2 ^ m) :
    Coeffs m g (galois_poly_shift_add_scale galois l degree scale)
      (p * (X + C (residue g scale))) := by
  have htop : ∀ i, (l.set (degree + 1) 0).getD i 0 < 2 ^ m ∧
      residue g ((l.set (degree + 1) 0).getD i 0) = p.coeff i := by
    intro i
    by_cases hi : i = degree + 1
    · subst hi
      rw [getD_set_self hlen, coeff_eq_zero_of_natDegree_lt (by omega)]
      exact ⟨by positivity, residue_zero g⟩
    · rw [getD_set_ne (Ne.symm hi)]
      exact hl i
  unfold galois_poly_shift_add_scale
  simp only
  have hlen' : degree + 1 < (l.set (degree + 1) 0).length := by rwa [List.length_set]
  have hloop := getD_shift_add_scale_loop galois scale (degree + 1) _ hlen'
  have hpos : 0 < (shift_add_scale_loop galois scale (degree + 1) (l.set (degree + 1) 0)).length := by
    rw [length_shift_add_scale_loop]
    omega
  intro i
  rw [mul_add, coeff_add, coeff_mul_C]
  cases i with
  | zero =>
    rw [getD_set_self hpos, hloop, if_neg (by omega), coeff_mul_X_zero, zero_add,
      h.residue_mul (htop 0).1 hs, (htop 0).2]
    exact ⟨h.mul_lt _ _, rfl⟩
  | succ i =>
    rw [getD_set_ne (by omega), hloop, coeff_mul_X, Nat.add_sub_cancel]
    by_cases hi : i + 1 ≤ degree + 1
    · rw [if_pos ⟨by omega, hi⟩]
      unfold galois_add
      rw [residue_xor, h.residue_mul (htop (i + 1)).1 hs, (htop i).2, (htop (i + 1)).2]
      exact ⟨Nat.xor_lt_two_pow (htop i).1 (h.mul_lt _ _), rfl⟩
    · rw [if_neg (by omega), (htop (i + 1)).2, coeff_eq_zero_of_natDegree_lt (by omega),
        coeff_eq_zero_of_natDegree_lt (by omega)]
      exact ⟨(htop (i + 1)).1, by ring⟩

end

/-! ## The generator -/

section

variable {m g : Nat} {galois : galois_t} (h : Tables m g galois)

include h

/-- The generator polynomial in the making, after `n` turns of the loop of `rscode_init`. -/
theorem coeffs_gen_loop (T n : Nat) (hn : n ≤ T) :
    let l := (List.range' 1 n).foldl (fun gen_poly i =>
      galois_poly_shift_add_scale galois gen_poly (i - 1) (galois_element galois i))
      ((List.replicate (T + 1) 0).set 0 (galois_element galois 0))
    l.length = T + 1 ∧ Coeffs m g l (gen (root g) n) := by
  have := h.primitive.nontrivial
  induction n with
  | zero => exact ⟨by simp, by simpa [gen_zero] using coeffs_one h T⟩
  | succ n ih =>
    obtain ⟨hlen, hc⟩ := ih (by omega)
    simp only [List.range'_1_concat, List.foldl_append, List.foldl_cons, List.foldl_nil,
      length_shift_add_scale] at hlen hc ⊢
    refine ⟨hlen, ?_⟩
    rw [gen_succ, Nat.add_comm 1 n, Nat.add_sub_cancel, ← h.residue_element]
    exact coeffs_shift_add_scale h hc (natDegree_gen _ n).le (by omega) (h.element_lt _)

/-- A code over the field of the tables, with `T` checks. -/
structure Code (m g T : Nat) (rscode : rscode_t) : Prop where
  tables : Tables m g rscode.galois
  checks_num : rscode_checks_num rscode = T
  pos : 0 < T
  coeffs_gen : Coeffs m g rscode.gen_poly (gen (root g) T)

/-- `rscode_init` builds the code with the generator of `T` consecutive roots. -/
theorem rscode_init_code {T : Nat} (hpos : 0 < T) (hT : T ≤ 2 ^ m - 1) :
    Code m g T (rscode_init (2 ^ m - 1 - T) galois) := by
  have hsub : 2 ^ m - 1 - (2 ^ m - 1 - T) = T := by omega
  unfold rscode_init galois_order
  simp only [h.order_eq, hsub]
  exact ⟨h, by simp only [rscode_checks_num]; exact hsub, hpos, (coeffs_gen_loop h T T le_rfl).2⟩

end

/-! ## The encoder -/

/-- Every entry is a word of `m` bits. -/
def Words (m : Nat) (l : List Nat) : Prop := ∀ i, l.getD i 0 < 2 ^ m

theorem words_replicate (m n : Nat) : Words m (List.replicate n 0) := by
  intro i
  rw [getD_replicate]
  positivity

theorem words_of_mem {m : Nat} {l : List Nat} (h : ∀ x ∈ l, x < 2 ^ m) : Words m l := by
  intro i
  by_cases hi : i < l.length
  · rw [List.getD_eq_getElem _ _ hi]
    exact h _ (List.getElem_mem hi)
  · rw [List.getD_eq_default _ _ (by omega)]
    positivity

/-- The polynomial of an array of symbols in their order of transmission. -/
noncomputable def wordOf (g : Nat) (l : List Nat) : (Residue g)[X] := wordPoly (l.map (residue g))

theorem symbol_map_residue (g : Nat) (l : List Nat) (d : Nat) :
    symbol (l.map (residue g)) d = residue g (l.reverse.getD d 0) := by
  rw [symbol, ← List.map_reverse, ← residue_zero g, List.getD_map]

theorem coeff_wordOf (g : Nat) (l : List Nat) {d : Nat} (hd : d < l.length) :
    (wordOf g l).coeff d = residue g (l.getD (l.length - 1 - d) 0) := by
  rw [wordOf, coeff_wordPoly, symbol_map_residue, List.getD_reverse _ hd]

theorem degree_wordOf_lt (g : Nat) (l : List Nat) : (wordOf g l).degree < l.length := by
  simpa [wordOf] using degree_wordPoly_lt (l.map (residue g))

theorem wordOf_replicate (g n : Nat) : wordOf g (List.replicate n 0) = 0 := by
  ext d
  rw [wordOf, coeff_wordPoly, symbol_map_residue, List.reverse_replicate, getD_replicate]
  simp

/-- The register after a message. -/
def checksOf (rscode : rscode_t) (T : Nat) (message : List Nat) : List Nat :=
  message.foldl (fun checks s => rscode_encode rscode s checks) (List.replicate T 0)

/-- The symbol at a degree of the message with its checks. -/
def symbolAt (rscode : rscode_t) (T : Nat) (message : List Nat) (d : Nat) : Nat :=
  (message ++ checksOf rscode T message).reverse.getD d 0

namespace Code

variable {m g T : Nat} {rscode : rscode_t} (h : Code m g T rscode)

include h

omit h in
@[simp] theorem length_encode (input : Nat) (checks : List Nat) :
    (rscode_encode rscode input checks).length = checks.length := by
  unfold rscode_encode
  simp only
  rw [List.length_set, length_foldl_set (fun i checks => galois_add (checks.getD (i + 1) 0)
    (galois_mul rscode.galois (rscode.gen_poly.getD (rscode_checks_num rscode - 1 - i) 0) _))]

/-- The register after one step, entry by entry: the entries move up by one, and the
generator is added as many times as the symbol that leaves. -/
theorem getD_encode (input : Nat) {checks : List Nat} (hlen : checks.length = T) {i : Nat}
    (hi : i < T) :
    (rscode_encode rscode input checks).getD i 0 =
      galois_add (checks.getD (i + 1) 0) (galois_mul rscode.galois
        (rscode.gen_poly.getD (T - 1 - i) 0) (galois_add input (checks.getD 0 0))) := by
  have hpos := h.pos
  unfold rscode_encode
  simp only [h.checks_num]
  generalize galois_add input (checks.getD 0 0) = factor
  have hl := length_foldl_set (fun i checks => galois_add (checks.getD (i + 1) 0)
    (galois_mul rscode.galois (rscode.gen_poly.getD (T - 1 - i) 0) factor))
    (List.range (T - 1)) checks
  have hloop := getD_foldl_set (d := 0) (fun i checks => galois_add (checks.getD (i + 1) 0)
    (galois_mul rscode.galois (rscode.gen_poly.getD (T - 1 - i) 0) factor)) checks
    (fun i l' hl' => by rw [hl' (i + 1) (by omega)]) (T - 1) (by omega) i
  rcases Nat.lt_or_ge i (T - 1) with hlt | hge
  · rw [getD_set_ne (by omega), hloop, if_pos hlt]
  · obtain rfl : i = T - 1 := by omega
    rw [getD_set_self (by omega), Nat.sub_self,
      List.getD_eq_default (l := checks) (n := T - 1 + 1) _ (by omega)]
    exact (Nat.zero_xor _).symm

theorem words_encode (input : Nat) {checks : List Nat} (hc : Words m checks) (hlen : checks.length = T) :
    Words m (rscode_encode rscode input checks) := by
  intro i
  by_cases hi : i < T
  · rw [h.getD_encode input hlen hi]
    exact Nat.xor_lt_two_pow (hc _) (h.tables.mul_lt _ _)
  · rw [List.getD_eq_default _ _ (by rw [length_encode]; omega)]
    positivity

/-- `rscode_encode` is one step of the shift register of the generator. -/
theorem wordOf_encode {input : Nat} {checks : List Nat} (hin : input < 2 ^ m)
    (hc : Words m checks) (hlen : checks.length = T) :
    wordOf g (rscode_encode rscode input checks) =
      feed (gen (root g) T) T (wordOf g checks) (residue g input) := by
  have := h.tables.primitive.nontrivial
  have := h.tables.primitive.charP
  have hpos := h.pos
  have hfeed := degree_feed_lt (residue g input) hpos (gen_monic (root g) T)
    (natDegree_gen (root g) T) (r := wordOf g checks)
    (by have := degree_wordOf_lt g checks; rwa [hlen] at this)
  have hword := degree_wordOf_lt g (rscode_encode rscode input checks)
  rw [length_encode, hlen] at hword
  ext d
  rcases Nat.lt_or_ge d T with hd | hd
  · have hfactor : residue g (galois_add input (checks.getD 0 0)) =
        residue g input + (wordOf g checks).coeff (T - 1) := by
      rw [coeff_wordOf g checks (by omega), hlen, Nat.sub_self]
      exact residue_xor g _ _
    rw [coeff_feed_lt _ _ _ hd, coeff_wordOf _ _ (by rw [length_encode]; omega), length_encode,
      hlen, h.getD_encode input hlen (by omega), show T - 1 - (T - 1 - d) = d by omega]
    unfold galois_add at hfactor ⊢
    rw [residue_xor, h.tables.residue_mul (h.coeffs_gen d).1 (Nat.xor_lt_two_pow hin (hc 0)), hfactor,
      (h.coeffs_gen d).2, mul_comm ((gen (root g) T).coeff d)]
    congr 1
    cases d with
    | zero =>
      rw [coeff_X_mul_zero, List.getD_eq_default _ _ (by omega), residue_zero]
    | succ d =>
      rw [coeff_X_mul, coeff_wordOf g checks (by omega), hlen,
        show T - 1 - (d + 1) + 1 = T - 1 - d by omega]
  · rw [(degree_lt_iff_coeff_zero _ T).mp hword d hd, (degree_lt_iff_coeff_zero _ T).mp hfeed d hd]

theorem encode_message (message : List Nat) (hmsg : ∀ s ∈ message, s < 2 ^ m) :
    (checksOf rscode T message).length = T ∧ Words m (checksOf rscode T message) ∧
      wordOf g (checksOf rscode T message) =
        (message.map (residue g)).foldl (feed (gen (root g) T) T) 0 := by
  unfold checksOf
  induction message using List.reverseRecOn with
  | nil => exact ⟨by simp, words_replicate m T, wordOf_replicate g T⟩
  | append_singleton message s ih =>
    obtain ⟨h1, h2, h3⟩ := ih fun x hx => hmsg x (by simp [hx])
    have hs := hmsg s (by simp)
    simp only [List.foldl_append, List.foldl_cons, List.foldl_nil, List.map_append, List.map_cons,
      List.map_nil]
    exact ⟨by rw [length_encode, h1], h.words_encode s h2 h1, by rw [h.wordOf_encode hs h2 h1, h3]⟩

/-- The register behind the message makes a word that vanishes at every root. -/
theorem eval_message_checks {message : List Nat} (hmsg : ∀ s ∈ message, s < 2 ^ m) {i : Nat}
    (hi : i < T) :
    (wordOf g (message ++ checksOf rscode T message)).eval (root g ^ (i + 1)) = 0 := by
  have := h.tables.primitive.charP
  obtain ⟨hlen, _, hpoly⟩ := h.encode_message message hmsg
  rw [wordOf, List.map_append]
  apply eval_codeword (eval_gen (root g) hi)
  rw [List.length_map, hlen]
  exact hpoly

theorem symbolAt_lt {message : List Nat} (hmsg : ∀ s ∈ message, s < 2 ^ m) (d : Nat) :
    symbolAt rscode T message d < 2 ^ m := by
  obtain ⟨-, hwords, -⟩ := h.encode_message message hmsg
  apply words_of_mem
  intro x hx
  rw [List.mem_reverse, List.mem_append] at hx
  rcases hx with hx | hx
  · exact hmsg x hx
  · obtain ⟨i, hi, rfl⟩ := List.getElem_of_mem hx
    rw [← List.getD_eq_getElem _ 0 hi]
    exact hwords i

theorem sum_symbolAt {message : List Nat} (hmsg : ∀ s ∈ message, s < 2 ^ m) {j : Nat}
    (hj : j < T) :
    ∑ d ∈ Finset.range (message.length + T),
      residue g (symbolAt rscode T message d) * (root g ^ (j + 1)) ^ d = 0 := by
  have hsum := h.eval_message_checks hmsg hj
  rw [wordOf, eval_wordPoly, List.length_map, List.length_append,
    (h.encode_message message hmsg).1] at hsum
  simpa only [symbol_map_residue, symbolAt] using hsum

end Code

/-! ## The syndromes -/

/-- The array holds the syndromes of the symbols `c` at the degrees `ds`. -/
structure Syndromes (m g T : Nat) (c : Nat → Residue g) (ds : List Nat) (l : List Nat) : Prop where
  len : l.length = T
  words : Words m l
  value : ∀ j < T, residue g (l.getD j 0) = syndrome c (root g ^ (j + 1)) ds

theorem syndromes_nil (m g T : Nat) (c : Nat → Residue g) :
    Syndromes m g T c [] (List.replicate T 0) := by
  refine ⟨by simp, words_replicate m T, fun j _ => ?_⟩
  rw [getD_replicate]
  simp [syndrome]

/-- A zero symbol need not be fed. -/
theorem Syndromes.skip {m g T : Nat} {c : Nat → Residue g} {ds l : List Nat} {d : Nat}
    (hs : Syndromes m g T c ds l) (hd : c d = 0) : Syndromes m g T c (d :: ds) l := by
  refine ⟨hs.len, hs.words, fun j hj => ?_⟩
  rw [hs.value j hj]
  simp [syndrome, hd]

namespace Code

variable {m g T : Nat} {rscode : rscode_t} (h : Code m g T rscode)

include h

omit h in
@[simp] theorem length_decode_syndromes (input input_degree : Nat) (l : List Nat) :
    (rscode_decode_syndromes rscode input input_degree l).length = l.length :=
  length_foldl_set (fun i l => galois_add (l.getD i 0) (galois_mul rscode.galois input
    (galois_element rscode.galois (u32 (input_degree * (i + 1)))))) _ _

theorem getD_decode_syndromes (input input_degree : Nat) {l : List Nat} (hlen : l.length = T)
    (i : Nat) :
    (rscode_decode_syndromes rscode input input_degree l).getD i 0 =
      if i < T then galois_add (l.getD i 0) (galois_mul rscode.galois input
        (galois_element rscode.galois (u32 (input_degree * (i + 1)))))
      else l.getD i 0 := by
  unfold rscode_decode_syndromes
  rw [h.checks_num]
  exact getD_foldl_set (fun i l => galois_add (l.getD i 0) (galois_mul rscode.galois input
    (galois_element rscode.galois (u32 (input_degree * (i + 1)))))) l
    (fun i l' hl' => by rw [hl' i le_rfl]) T (by omega) i

theorem words_decode_syndromes (input input_degree : Nat) {l : List Nat} (hlen : l.length = T)
    (hl : Words m l) : Words m (rscode_decode_syndromes rscode input input_degree l) := by
  intro i
  rw [h.getD_decode_syndromes input input_degree hlen]
  split
  · exact Nat.xor_lt_two_pow (hl i) (h.tables.mul_lt _ _)
  · exact hl i

/-- `rscode_decode_syndromes` adds one symbol, while the exponents fit 32 bits. -/
theorem syndromes_cons {c : Nat → Residue g} {ds l : List Nat} {input input_degree : Nat}
    (hs : Syndromes m g T c ds l) (hin : input < 2 ^ m) (hc : c input_degree = residue g input)
    (hfit : input_degree * T < 2 ^ 32) :
    Syndromes m g T c (input_degree :: ds)
      (rscode_decode_syndromes rscode input input_degree l) := by
  refine ⟨by rw [length_decode_syndromes, hs.len],
    h.words_decode_syndromes input input_degree hs.len hs.words, fun j hj => ?_⟩
  have hexp : u32 (input_degree * (j + 1)) = input_degree * (j + 1) := by
    have : input_degree * (j + 1) ≤ input_degree * T := Nat.mul_le_mul_left _ hj
    unfold u32
    omega
  rw [h.getD_decode_syndromes input input_degree hs.len, if_pos hj, hexp]
  unfold galois_add
  rw [residue_xor, h.tables.residue_mul hin (h.tables.element_lt _), h.tables.residue_element,
    hs.value j hj, ← hc]
  simp only [syndrome, List.map_cons, List.sum_cons]
  rw [← pow_mul, Nat.mul_comm (j + 1) input_degree, add_comm]

end Code

/-- No product of a degree with the number of checks leaves a word of 32 bits. -/
theorem degree_fits {m d T : Nat} (hm : m ≤ 16) (hd : d < 2 ^ m) (hT : T < 2 ^ m) :
    d * T < 2 ^ 32 := by
  calc d * T < 2 ^ m * 2 ^ m := Nat.mul_lt_mul'' hd hT
    _ = 2 ^ (m + m) := (Nat.pow_add 2 m m).symm
    _ ≤ 2 ^ 32 := Nat.pow_le_pow_right (by norm_num) (by omega)

/-- The word vanishes at the roots of the code. -/
def Vanishes (g T n : Nat) (word : Nat → Nat) : Prop :=
  ∀ j < T, ∑ d ∈ Finset.range n, residue g (word d) * (root g ^ (j + 1)) ^ d = 0

/-! ## One erasure -/

/-- The degrees that the sigma loop has met in `n` turns, the erased one left out. -/
def others (ds : List Nat) (i n : Nat) : List Nat :=
  ((List.range n).filter (fun j => i ≠ j)).map fun j => ds.getD j 0

theorem others_succ_self (ds : List Nat) (i : Nat) : others ds i (i + 1) = others ds i i := by
  simp [others, List.range_succ]

theorem others_succ_ne (ds : List Nat) {i n : Nat} (h : i ≠ n) :
    others ds i (n + 1) = others ds i n ++ [ds.getD n 0] := by
  simp [others, List.range_succ, h]

theorem length_others (ds : List Nat) (i n : Nat) :
    (others ds i n).length = if n ≤ i then n else n - 1 := by
  induction n with
  | zero => simp [others]
  | succ n ih =>
    by_cases h : i = n
    · subst h
      rw [others_succ_self, ih]
      split <;> split <;> omega
    · rw [others_succ_ne ds h, List.length_append, ih, List.length_singleton]
      split <;> split <;> omega

theorem take_eq_map_getD (ds : List Nat) {n : Nat} (hn : n ≤ ds.length) :
    ds.take n = (List.range n).map fun j => ds.getD j 0 := by
  apply List.ext_getElem
  · simp [hn]
  · intro j h1 h2
    simp only [List.length_take] at h1
    rw [List.getElem_take, List.getElem_map, List.getElem_range,
      List.getD_eq_getElem _ _ (by omega)]

theorem perm_others (ds : List Nat) {i n : Nat} (hi : i < n) (hn : n ≤ ds.length) :
    (ds.take n).Perm (ds.getD i 0 :: others ds i n) := by
  have hrange : (List.range n).Perm (i :: (List.range n).filter (fun j => i ≠ j)) := by
    have hmem : i ∈ List.range n := by simpa using hi
    have := List.perm_cons_erase hmem
    have hne : (fun j : Nat => j != i) = fun j => decide (i ≠ j) := by
      funext j
      by_cases hj : i = j
      · simp [hj]
      · simp [hj, Ne.symm hj]
    rwa [List.Nodup.erase_eq_filter List.nodup_range, hne] at this
  rw [take_eq_map_getD ds hn]
  exact hrange.map _

theorem locator_append {R : Type*} [CommRing R] (a : R) (ds es : List Nat) :
    locator a (ds ++ es) = locator a ds * locator a es := by
  simp [locator]

namespace Code

variable {m g T : Nat} {rscode : rscode_t} (h : Code m g T rscode)

include h

/-- The state of the sigma loop after `n` turns: `sigma` is the locator of the degrees met,
and `prod` is the power of the erased degree times the locator there. -/
structure Sigma (m g : Nat) (ds : List Nat) (v i n : Nat) (t : List Nat × Nat × Nat) : Prop where
  len : t.1.length = v
  sigma : Coeffs m g t.1 (locator (root g) (others ds i n))
  degree : t.2.1 = (others ds i n).length
  prod_lt : t.2.2 < 2 ^ m
  prod : residue g t.2.2 = root g ^ ds.getD i 0 *
    (locator (root g) (others ds i n)).eval (root g ^ ds.getD i 0)

theorem sigma_turn_spec {ds : List Nat} {v i n : Nat} {t : List Nat × Nat × Nat} (hi : i < v)
    (hn : n < v) (ht : Sigma m g ds v i n t) :
    Sigma m g ds v i (n + 1) (sigma_turn rscode.galois ds i t n) := by
  obtain ⟨sigma, d, prod⟩ := t
  obtain ⟨t1, t2, t3, t4, t5⟩ := ht
  simp only at t1 t2 t3 t4 t5
  unfold sigma_turn
  by_cases hin : i = n
  · subst hin
    simp only [ne_eq, not_true_eq_false, if_false]
    exact ⟨t1, by rw [others_succ_self]; exact t2, by rw [others_succ_self]; exact t3, t4,
      by rw [others_succ_self]; exact t5⟩
  · simp only [ne_eq, hin, not_false_eq_true, if_true]
    have hz := h.tables.element_lt (ds.getD n 0)
    have hroom : d + 1 < sigma.length := by
      rw [t3, t1, length_others]
      split <;> omega
    have hloc : locator (root g) (others ds i (n + 1)) =
        locator (root g) (others ds i n) * (X + C (root g ^ ds.getD n 0)) := by
      rw [others_succ_ne ds hin, locator_append]
      simp [locator]
    have hdeg := natDegree_locator_le (root g) (others ds i n)
    rw [← t3] at hdeg
    refine ⟨by simpa using t1, ?_, ?_, h.tables.mul_lt _ _, ?_⟩
    · rw [hloc, ← h.tables.residue_element]
      exact coeffs_shift_add_scale h.tables t2 hdeg hroom hz
    · rw [others_succ_ne ds hin, List.length_append, List.length_singleton, t3]
    · unfold galois_add
      rw [h.tables.residue_mul t4 (Nat.xor_lt_two_pow (h.tables.element_lt _) hz), residue_xor,
        h.tables.residue_element, h.tables.residue_element, t5, hloc, eval_mul]
      simp only [eval_add, eval_X, eval_C]
      ring

theorem sigma_loop_spec (ds : List Nat) {v i : Nat} (hi : i < v) (n : Nat) (hn : n ≤ v) :
    Sigma m g ds v i n ((List.range n).foldl (sigma_turn rscode.galois ds i)
      ((List.replicate v 0).set 0 (galois_element rscode.galois 0), 0,
        galois_element rscode.galois (ds.getD i 0))) := by
  induction n with
  | zero =>
    obtain ⟨w, rfl⟩ : ∃ w, v = w + 1 := ⟨v - 1, by omega⟩
    exact ⟨by simp, by simpa [others, locator] using coeffs_one h.tables w, by simp [others],
      h.tables.element_lt _, by simp [others, locator, h.tables.residue_element]⟩
  | succ n ih =>
    rw [List.range_succ, List.foldl_append]
    exact h.sigma_turn_spec hi (by omega) (ih (by omega))

/-- The sum over the syndromes, from the highest down, after `n` turns. -/
theorem sum_loop_spec {l sigma : List Nat} {p : (Residue g)[X]} (hl : Words m l)
    (hs : Coeffs m g sigma p) (v n : Nat) :
    let sum := (List.range n).foldl (fun sum j => galois_add sum (galois_mul rscode.galois
      (l.getD (v - 1 - j) 0) (sigma.getD (v - 1 - j) 0))) 0
    sum < 2 ^ m ∧ residue g sum =
      ∑ j ∈ Finset.range n, residue g (l.getD (v - 1 - j) 0) * p.coeff (v - 1 - j) := by
  induction n with
  | zero => exact ⟨by simp, by simp⟩
  | succ n ih =>
    simp only [List.range_succ, List.foldl_append, List.foldl_cons, List.foldl_nil]
    refine ⟨Nat.xor_lt_two_pow ih.1 (h.tables.mul_lt _ _), ?_⟩
    unfold galois_add at ih ⊢
    rw [residue_xor, h.tables.residue_mul (hl _) (hs _).1, ih.2, (hs _).2, Finset.sum_range_succ]

/-- `rscode_decode_erasure` never divides by zero when the erased degree has a power of its
own among the listed degrees, and it solves one equation in the syndromes. -/
theorem decode_erasure_spec {l ds : List Nat} {v i : Nat} (hl : Words m l) (hi : i < v)
    (hdis : ∀ e ∈ others ds i v, root g ^ ds.getD i 0 ≠ root g ^ e) :
    ∃ r < 2 ^ m, rscode_decode_erasure rscode l ds v i = some r ∧
      residue g r * (root g ^ ds.getD i 0 *
        (locator (root g) (others ds i v)).eval (root g ^ ds.getD i 0)) =
      ∑ j ∈ Finset.range v, residue g (l.getD j 0) *
        (locator (root g) (others ds i v)).coeff j := by
  have := h.tables.primitive.isDomain
  have := h.tables.primitive.charP
  have hsig := h.sigma_loop_spec ds hi v le_rfl
  unfold rscode_decode_erasure
  simp only
  generalize (List.range v).foldl (sigma_turn rscode.galois ds i) _ = t at hsig
  obtain ⟨sigma, d, prod⟩ := t
  obtain ⟨s1, s2, s3, s4, s5⟩ := hsig
  obtain ⟨hsum, hval⟩ := h.sum_loop_spec hl s2 v v
  have hprod : prod ≠ 0 := by
    rintro rfl
    simp only [residue_zero] at s5
    exact mul_ne_zero (h.tables.primitive.root_pow_ne_zero _) (eval_locator_ne_zero hdis) s5.symm
  obtain ⟨r, hr, hlt, hmul⟩ := h.tables.div_spec hsum s4 hprod
  refine ⟨r, hlt, hr, ?_⟩
  rw [← s5, hmul, hval]
  exact Finset.sum_range_reflect (fun j => residue g (l.getD j 0) *
    (locator (root g) (others ds i v)).coeff j) v

omit h in
theorem pow_ne_of_others {ds : List Nat} {v i : Nat} (hp : Primitive m g) (hnd : (ds.take v).Nodup)
    (hlt : ∀ d ∈ ds.take v, d < 2 ^ m - 1) (hv : v ≤ ds.length) (hi : i < v) :
    ∀ e ∈ others ds i v, root g ^ ds.getD i 0 ≠ root g ^ e := by
  have hperm := perm_others ds hi hv
  have hcons := hperm.nodup_iff.mp hnd
  intro e he heq
  have he' : e ∈ ds.take v := hperm.mem_iff.mpr (List.mem_cons_of_mem _ he)
  have hi' : ds.getD i 0 ∈ ds.take v := hperm.mem_iff.mpr List.mem_cons_self
  have := hp.pow_inj (hlt _ hi') (hlt _ he') heq
  exact (List.nodup_cons.mp hcons).1 (this ▸ he)

/-- One erasure out of the syndromes of all of them. -/
theorem decode_erasure_eq {c : Nat → Residue g} {l ds : List Nat} {v i : Nat} (hl : Words m l)
    (hnd : (ds.take v).Nodup) (hlt : ∀ d ∈ ds.take v, d < 2 ^ m - 1) (hv : v ≤ ds.length)
    (hi : i < v)
    (hval : ∀ j < v, residue g (l.getD j 0) = syndrome c (root g ^ (j + 1)) (ds.take v)) :
    ∃ r < 2 ^ m, rscode_decode_erasure rscode l ds v i = some r ∧
      residue g r = c (ds.getD i 0) := by
  have := h.tables.primitive.isDomain
  have := h.tables.primitive.charP
  have hdis := pow_ne_of_others h.tables.primitive hnd hlt hv hi
  obtain ⟨r, hr, heq, hmul⟩ := h.decode_erasure_spec hl hi hdis
  refine ⟨r, hr, heq, ?_⟩
  have hsum : ∑ j ∈ Finset.range v, residue g (l.getD j 0) *
      (locator (root g) (others ds i v)).coeff j = c (ds.getD i 0) * (root g ^ ds.getD i 0 *
        (locator (root g) (others ds i v)).eval (root g ^ ds.getD i 0)) := by
    rw [← erasure_formula (root g) c (perm_others ds hi hv), List.length_take_of_le hv]
    apply Finset.sum_congr rfl
    intro j hj
    rw [hval j (Finset.mem_range.mp hj)]
  rw [hsum] at hmul
  exact mul_right_cancel₀ (mul_ne_zero (h.tables.primitive.root_pow_ne_zero _)
    (eval_locator_ne_zero hdis)) hmul

/-- The syndromes of the symbols at a list of degrees, fed in its order. -/
theorem syndromes_foldl (word : Nat → Nat) (hword : ∀ d, word d < 2 ^ m) (ds : List Nat)
    (hfit : ∀ d ∈ ds, d * T < 2 ^ 32) :
    Syndromes m g T (fun d => residue g (word d)) ds.reverse
      (ds.foldl (fun l d => rscode_decode_syndromes rscode (word d) d l)
        (List.replicate T 0)) := by
  induction ds using List.reverseRecOn with
  | nil => exact syndromes_nil m g T _
  | append_singleton ds d ih =>
    rw [List.foldl_append, List.foldl_cons, List.foldl_nil, List.reverse_append]
    exact h.syndromes_cons (ih fun e he => hfit e (by simp [he])) (hword d) rfl
      (hfit d (by simp))

/-- Any symbol of a word that vanishes at the roots, out of the syndromes of the others. -/
theorem decode_erasure_codeword {word : Nat → Nat} (hword : ∀ d, word d < 2 ^ m) {n : Nat}
    (hn : n ≤ 2 ^ m - 1)
    (hzero : ∀ j < T, ∑ d ∈ Finset.range n, residue g (word d) * (root g ^ (j + 1)) ^ d = 0)
    {ds received l : List Nat} {v : Nat} (hv : v ≤ ds.length)
    (hall : (ds.take v ++ received).Perm (List.range n)) (hfew : v ≤ T)
    (hl : Syndromes m g T (fun d => residue g (word d)) received l) {i : Nat} (hi : i < v) :
    rscode_decode_erasure rscode l ds v i = some (word (ds.getD i 0)) := by
  have := h.tables.primitive.charP
  have hnd : (ds.take v).Nodup := (hall.nodup_iff.mpr List.nodup_range).of_append_left
  have hlt : ∀ d ∈ ds.take v, d < 2 ^ m - 1 := by
    intro d hd
    have : d < n := by simpa using hall.mem_iff.mp (List.mem_append_left _ hd)
    omega
  have hval : ∀ j < v, residue g (l.getD j 0) =
      syndrome (fun d => residue g (word d)) (root g ^ (j + 1)) (ds.take v) := by
    intro j hj
    rw [hl.value j (by omega)]
    exact syndrome_missing (hzero j (by omega)) hall
  obtain ⟨r, hr, heq, hres⟩ := h.decode_erasure_eq (c := fun d => residue g (word d)) hl.words hnd
    hlt hv hi hval
  rw [heq, h.tables.primitive.residue_inj hr (hword _) hres]

/-! ## Free symbols -/

theorem symbolAt_message {message : List Nat} (hmsg : ∀ s ∈ message, s < 2 ^ m) {d : Nat}
    (hT : T ≤ d) (hd : d < message.length + T) :
    symbolAt rscode T message d = message.getD (message.length + T - 1 - d) 0 := by
  have hlen := (h.encode_message message hmsg).1
  unfold symbolAt
  rw [List.getD_reverse _ (by rwa [List.length_append, hlen]), List.length_append, hlen,
    List.getD_append _ _ _ _ (by omega)]

theorem symbolAt_checks {message : List Nat} (hmsg : ∀ s ∈ message, s < 2 ^ m) {d : Nat}
    (hd : d < T) :
    symbolAt rscode T message d = (checksOf rscode T message).getD (T - 1 - d) 0 := by
  have hlen := (h.encode_message message hmsg).1
  unfold symbolAt
  rw [List.getD_reverse _ (by rw [List.length_append, hlen]; omega), List.length_append, hlen,
    List.getD_append_right _ _ _ _ (by omega)]
  congr 1
  omega

theorem symbolAt_vanishes {message : List Nat} (hmsg : ∀ s ∈ message, s < 2 ^ m) :
    Vanishes g T (message.length + T) (symbolAt rscode T message) := by
  intro j hj
  exact h.sum_symbolAt hmsg hj

/-- Two words that vanish agree where symbols are missing, if they agree in the others. -/
theorem missing_agree {word word' : Nat → Nat} (hword : ∀ d, word d < 2 ^ m)
    (hword' : ∀ d, word' d < 2 ^ m) {n : Nat} (hn : n ≤ 2 ^ m - 1) (hzero : Vanishes g T n word)
    (hzero' : Vanishes g T n word') {known rest : List Nat}
    (hall : (rest ++ known).Perm (List.range n)) (hfew : rest.length ≤ T)
    (hfit : ∀ d ∈ known, d * T < 2 ^ 32) (heq : ∀ d ∈ known, word d = word' d) :
    ∀ d ∈ rest, word d = word' d := by
  intro d hd
  obtain ⟨i, hi, rfl⟩ := List.getElem_of_mem hd
  have hsame : known.foldl (fun l d => rscode_decode_syndromes rscode (word d) d l)
        (List.replicate T 0) =
      known.foldl (fun l d => rscode_decode_syndromes rscode (word' d) d l)
        (List.replicate T 0) :=
    List.foldl_ext _ _ _ fun l d hd => by rw [heq d hd]
  have hall' : (rest.take rest.length ++ known.reverse).Perm (List.range n) := by
    rw [List.take_length]
    exact (known.reverse_perm.append_left rest).trans hall
  have h1 := h.decode_erasure_codeword hword hn hzero le_rfl hall' hfew
    (h.syndromes_foldl word hword known hfit) hi
  have h2 := h.decode_erasure_codeword hword' hn hzero' le_rfl hall' hfew
    (h.syndromes_foldl word' hword' known hfit) hi
  rw [hsame, h2, Option.some.injEq, List.getD_eq_getElem _ _ hi] at h1
  exact h1.symm

/-- As many symbols of a word as the message has determine the message. -/
theorem message_eq_of_symbolAt {a b : List Nat} (ha : ∀ s ∈ a, s < 2 ^ m)
    (hb : ∀ s ∈ b, s < 2 ^ m) (hlen : a.length = b.length) (hn : a.length + T ≤ 2 ^ m - 1)
    (hm : m ≤ 16) {known rest : List Nat}
    (hall : (rest ++ known).Perm (List.range (a.length + T))) (hfew : rest.length ≤ T)
    (heq : ∀ d ∈ known, symbolAt rscode T a d = symbolAt rscode T b d) : a = b := by
  have hfit : ∀ d ∈ known, d * T < 2 ^ 32 := by
    intro d hd
    have hd' : d < a.length + T := by simpa using hall.mem_iff.mp (List.mem_append_right _ hd)
    exact degree_fits hm (by omega) (by omega)
  have hrest := h.missing_agree (h.symbolAt_lt ha) (h.symbolAt_lt hb) hn (h.symbolAt_vanishes ha)
    (hlen ▸ h.symbolAt_vanishes hb) hall hfew hfit heq
  apply List.ext_getElem hlen
  intro i h1 h2
  have hd : a.length + T - 1 - i ∈ rest ++ known :=
    hall.mem_iff.mpr (List.mem_range.mpr (by omega))
  have hsym : symbolAt rscode T a (a.length + T - 1 - i) =
      symbolAt rscode T b (a.length + T - 1 - i) := by
    rcases List.mem_append.mp hd with hd | hd
    · exact hrest _ hd
    · exact heq _ hd
  rw [h.symbolAt_message ha (by omega) (by omega), h.symbolAt_message hb (by omega) (by omega),
    ← hlen, show a.length + T - 1 - (a.length + T - 1 - i) = i by omega,
    List.getD_eq_getElem _ _ h1, List.getD_eq_getElem _ _ h2] at hsym
  exact hsym

/-- As many symbols of a word as the message has can be given any values. -/
theorem exists_message {n : Nat} (hn : n + T ≤ 2 ^ m - 1) (hm : m ≤ 16) (known : List Nat)
    (hnd : known.Nodup) (hlen : known.length = n) (hlt : ∀ d ∈ known, d < n + T) {t : Nat → Nat}
    (ht : ∀ d, t d < 2 ^ m) :
    ∃ message, message.length = n ∧ (∀ s ∈ message, s < 2 ^ m) ∧
      ∀ d ∈ known, symbolAt rscode T message d = t d := by
  subst hlen
  let listOf : (Fin known.length → Fin (2 ^ m)) → List Nat := fun b => List.ofFn fun i => (b i).val
  have hlist : ∀ b, ∀ s ∈ listOf b, s < 2 ^ m := by
    intro b s hs
    obtain ⟨i, rfl⟩ := (List.mem_ofFn' _ _).mp hs
    exact (b i).isLt
  let f : (Fin known.length → Fin (2 ^ m)) → Fin known.length → Fin (2 ^ m) := fun b j =>
    ⟨symbolAt rscode T (listOf b) known[j], h.symbolAt_lt (hlist b) _⟩
  have hinj : Function.Injective f := by
    intro b b' hbb
    obtain ⟨rest, hrest⟩ : ∃ rest, (rest ++ known).Perm (List.range (known.length + T)) := by
      refine ⟨(List.range (known.length + T)).filter fun d => d ∉ known, ?_⟩
      apply (List.perm_ext_iff_of_nodup _ List.nodup_range).mpr
      · intro d
        simp only [List.mem_append, List.mem_filter, List.mem_range, decide_eq_true_eq]
        constructor
        · rintro (hd | hd)
          · exact hd.1
          · exact hlt d hd
        · intro hd
          by_cases hk : d ∈ known
          · exact Or.inr hk
          · exact Or.inl ⟨hd, hk⟩
      · rw [List.nodup_append]
        refine ⟨List.nodup_range.filter _, hnd, ?_⟩
        rintro d hd _ hk rfl
        simp [hk] at hd
    have hfew := hrest.length_eq
    rw [List.length_append, List.length_range] at hfew
    have heq : listOf b = listOf b' := by
      apply h.message_eq_of_symbolAt (hlist b) (hlist b') (by simp [listOf]) (by simpa [listOf]) hm
        (by simpa [listOf] using hrest) (by omega)
      intro d hd
      obtain ⟨i, hi, rfl⟩ := List.getElem_of_mem hd
      exact congrArg Fin.val (congrFun hbb ⟨i, hi⟩)
    funext i
    exact Fin.ext (congrFun (List.ofFn_injective heq) i)
  obtain ⟨b, hb⟩ := (Finite.injective_iff_surjective.mp hinj) fun j => ⟨t known[j], ht _⟩
  refine ⟨listOf b, by simp [listOf], hlist b, fun d hd => ?_⟩
  obtain ⟨i, hi, rfl⟩ := List.getElem_of_mem hd
  exact congrArg Fin.val (congrFun hb ⟨i, hi⟩)

end Code

/-! ## The law of the code -/

theorem mapM_eq_some_map {α β : Type*} {f : α → Option β} (f' : α → β) {l : List α}
    (h : ∀ a ∈ l, f a = some (f' a)) : l.mapM f = some (l.map f') := by
  induction l with
  | nil => rfl
  | cons a l ih =>
    rw [List.mapM_cons, h a List.mem_cons_self, ih fun b hb => h b (List.mem_cons_of_mem _ hb)]
    rfl

/-- Every word of a message with its checks comes back from any of its symbols, as long as no
more symbols are missing than there are checks. The known symbols may come in any order, and
so may the missing degrees; no division by zero occurs. -/
theorem the_missing_symbols_come_back {m g T : Nat} (hm : m ≤ 16) (hp : Primitive m g)
    (hT : 1 ≤ T ∧ T ≤ 2 ^ m - 2) (message : List Nat) (hlen : message.length ≤ 2 ^ m - 1 - T)
    (hmsg : ∀ s ∈ message, s < 2 ^ m) (erased received : List Nat)
    (hfew : erased.length ≤ T) (hall : (erased ++ received).Perm (List.range (message.length + T))) :
    let rscode := rscode_init (2 ^ m - 1 - T) (galois_init m g)
    let checks := message.foldl (fun checks s => rscode_encode rscode s checks)
      (rscode_prepare rscode)
    let symbolAt := fun d => (message ++ checks).reverse.getD d 0
    let syndromes := received.foldl (fun l d => rscode_decode_syndromes rscode (symbolAt d) d l)
      (rscode_prepare rscode)
    rscode_decode_erasures rscode syndromes erased erased.length =
      some (erased.map symbolAt) := by
  have hpow := Nat.pow_le_pow_right (n := 2) (by norm_num) hm
  have hcode : Code m g T (rscode_init (2 ^ m - 1 - T) (galois_init m g)) :=
    rscode_init_code (galois_init_tables hp (by omega)) (by omega) (by omega)
  generalize rscode_init (2 ^ m - 1 - T) (galois_init m g) = rscode at hcode
  have hprep : rscode_prepare rscode = List.replicate T 0 := by
    rw [rscode_prepare, hcode.checks_num]
  simp only [hprep]
  change rscode_decode_erasures rscode (received.foldl (fun l d =>
    rscode_decode_syndromes rscode (symbolAt rscode T message d) d l) (List.replicate T 0))
    erased erased.length = some (erased.map (symbolAt rscode T message))
  have hword := hcode.symbolAt_lt hmsg
  have hfit : ∀ d ∈ received, d * T < 2 ^ 32 := by
    intro d hd
    have hd' : d < message.length + T := by simpa using hall.mem_iff.mp (by simp [hd])
    exact degree_fits hm (by omega) (by omega)
  have hsyn := hcode.syndromes_foldl _ hword received hfit
  have hmap := take_eq_map_getD erased le_rfl
  rw [List.take_length] at hmap
  have hall' : (erased.take erased.length ++ received.reverse).Perm
      (List.range (message.length + T)) := by
    rw [List.take_length]
    exact (received.reverse_perm.append_left erased).trans hall
  rw [rscode_decode_erasures]
  rw [mapM_eq_some_map (fun i => symbolAt rscode T message (erased.getD i 0))]
  · conv_rhs => rw [hmap]
    rw [List.map_map]
    rfl
  · intro i hi
    exact hcode.decode_erasure_codeword hword (by omega) (fun j hj => hcode.sum_symbolAt hmsg hj)
      le_rfl hall' hfew hsyn (List.mem_range.mp hi)

/-- Three symbols of the code with two checks, whose first symbol and last check are lost. -/
theorem the_missing_symbols_come_back_from_three :
    let rscode := rscode_init 253 (galois_init 8 0b100011101)
    let checks := [7, 0, 255].foldl (fun checks s => rscode_encode rscode s checks)
      (rscode_prepare rscode)
    let symbolAt := fun d => ([7, 0, 255] ++ checks).reverse.getD d 0
    let syndromes := [1, 3, 2].foldl (fun l d =>
      rscode_decode_syndromes rscode (symbolAt d) d l) (rscode_prepare rscode)
    rscode_decode_erasures rscode syndromes [4, 0] 2 = some ([4, 0].map symbolAt) :=
  the_missing_symbols_come_back (m := 8) (T := 2) (by norm_num) primitive_285 (by norm_num)
    [7, 0, 255] (by decide) (by decide) [4, 0] [1, 3, 2] (by decide) (by decide)

end nettle.rscode
