-- The law of the table (nt_distributor.c): rows of numbers with ',' and ';' between them are
-- read number by number, and reading stops behind the last one.
import Nettle.NtDistributor

open nettle.utils

namespace nettle.nt_distributor

/-! ## The text of a table -/

/-- Numbers with ',' between them. -/
inductive RowText : List Nat → List Char → Prop where
  | last {n digits} : Writes digits n → RowText [n] digits
  | more {n digits blanks blanks' row text} : Writes digits n → Blank blanks → Blank blanks' →
      RowText row text → RowText (n :: row) (digits ++ (blanks ++ ',' :: (blanks' ++ text)))

/-- Rows with ';' between them. -/
inductive TableText : List (List Nat) → List Char → Prop where
  | last {row text} : RowText row text → TableText [row] text
  | more {row text blanks blanks' rows rest} : RowText row text → Blank blanks → Blank blanks' →
      TableText rows rest → TableText (row :: rows) (text ++ (blanks ++ ';' :: (blanks' ++ rest)))

/-- Behind the text there is no digit, and behind blanks no delimiter. -/
structure Ends (delimiters : List Char) (str : List Char) : Prop where
  digit : ∀ c ∈ str.head?, c.isDigit = false
  delimiter : ∀ c ∈ (skip [' ', '\t'] str).head?, c ∉ delimiters

theorem RowText.head {row : List Nat} {text : List Char} (h : RowText row text) (str : List Char) :
    ∀ c ∈ (text ++ str).head?, c.isDigit = true := by
  have hdigits : ∀ {digits : List Char} {n : Nat} (more : List Char), Writes digits n →
      ∀ c ∈ (digits ++ more).head?, c.isDigit = true := by
    intro digits n more hwrites c hc
    rw [List.head?_append_of_ne_nil _ hwrites.nonempty] at hc
    exact hwrites.all c (List.mem_of_mem_head? hc)
  cases h with
  | last hwrites => exact hdigits str hwrites
  | more hwrites =>
    rw [List.append_assoc]
    exact hdigits _ hwrites

theorem TableText.head {rows : List (List Nat)} {text : List Char} (h : TableText rows text)
    (str : List Char) : ∀ c ∈ (text ++ str).head?, c.isDigit = true := by
  cases h with
  | last hrow => exact hrow.head str
  | more hrow =>
    rw [List.append_assoc]
    exact hrow.head _

/-- Behind a row comes another one. -/
theorem ends_of_blank {blanks : List Char} (h : Blank blanks) {d : Char} (hd : d.isDigit = false)
    (hblank : d ∉ [' ', '\t']) (delimiters : List Char) (hne : d ∉ delimiters) (str : List Char) :
    Ends delimiters (blanks ++ d :: str) where
  digit := by
    intro c hc
    cases blanks with
    | nil =>
      rw [List.nil_append, List.head?_cons, Option.mem_some_iff] at hc
      exact hc ▸ hd
    | cons b blanks =>
      rw [List.cons_append, List.head?_cons, Option.mem_some_iff] at hc
      rcases h b List.mem_cons_self with hb | hb
      · rw [← hc, hb]
        rfl
      · rw [← hc, hb]
        rfl
  delimiter := by
    intro c hc
    rw [skip_blank_append h, skip_of_head (by
      intro c hc
      rw [List.head?_cons, Option.mem_some_iff] at hc
      exact hc ▸ hblank), List.head?_cons, Option.mem_some_iff] at hc
    exact hc ▸ hne

theorem Ends.none {delimiters str : List Char} (h : Ends delimiters str) {d : Char}
    (hd : d ∈ delimiters) : skip_delimit [d] str = none := by
  apply skip_delimit_none
  intro hhead
  exact h.delimiter d hhead hd

/-! ## Writing the table -/

/-- The row is written from this place of the table on. -/
def put_row (seq2addr : List Int) : Nat → List Nat → List Int
  | _, [] => seq2addr
  | k, n :: row => put_row (seq2addr.set k n) (k + 1) row

/-- The rows are written from row `i` on. -/
def put_rows (dup_num : Nat) (seq2addr : List Int) : Nat → List (List Nat) → List Int
  | _, [] => seq2addr
  | i, row :: rows => put_rows dup_num (put_row seq2addr (i * dup_num) row) (i + 1) rows

/-- The loop over a row reads all its numbers. -/
theorem parse_row_spec (dup_num i : Nat) {row : List Nat} {text : List Char} (h : RowText row text)
    (hfit : ∀ n ∈ row, n < 2 ^ 31) (rest j : Nat) (hrest : row.length ≤ rest) (seq2addr : List Int)
    {str : List Char} (hends : Ends [','] str) :
    parse_row dup_num i rest j seq2addr (text ++ str) =
      (put_row seq2addr (i * dup_num + j) row, str) := by
  induction h generalizing rest j seq2addr with
  | @last n digits hwrites =>
    obtain ⟨rest, rfl⟩ : ∃ rest', rest = rest' + 1 := ⟨rest - 1, by simp at hrest; omega⟩
    unfold parse_row
    rw [scan_int_append hwrites (hfit n (by simp)) hends.digit]
    simp only [hends.none (List.mem_singleton_self ',')]
    rfl
  | @more n digits blanks blanks' row text hwrites hblanks hblanks' hrow ih =>
    obtain ⟨rest, rfl⟩ : ∃ rest', rest = rest' + 1 := ⟨rest - 1, by simp at hrest; omega⟩
    have hcomma := ends_of_blank (d := ',') hblanks rfl (by decide) []
      List.not_mem_nil (blanks' ++ text ++ str)
    have hskip : skip_delimit [','] (blanks ++ ',' :: (blanks' ++ text ++ str)) =
        some (text ++ str) := by
      rw [List.append_assoc]
      apply skip_delimit_append hblanks hblanks' (by decide)
      intro c hc
      obtain ⟨-, -, -, -, -, hspace, htab⟩ := isDigit_plain (hrow.head str c hc)
      simp [hspace, htab]
    unfold parse_row
    rw [List.append_assoc, List.append_assoc, List.cons_append,
      scan_int_append hwrites (hfit n (by simp)) hcomma.digit]
    simp only [hskip]
    rw [ih (fun n hn => hfit n (List.mem_cons_of_mem _ hn)) rest (j + 1) (by simpa using hrest),
      put_row, Nat.add_assoc]

/-- The loop over the rows reads all of them. -/
theorem parse_rows_spec (dup_num : Nat) {rows : List (List Nat)} {text : List Char}
    (h : TableText rows text) (hfit : ∀ row ∈ rows, ∀ n ∈ row, n < 2 ^ 31)
    (hdup : ∀ row ∈ rows, row.length ≤ dup_num) (rest i : Nat) (hrest : rows.length ≤ rest)
    (seq2addr : List Int) {str : List Char} (hends : Ends [',', ';'] str) :
    parse_rows dup_num rest i seq2addr (text ++ str) = (put_rows dup_num seq2addr i rows, str) := by
  induction h generalizing rest i seq2addr with
  | @last row text hrow =>
    obtain ⟨rest, rfl⟩ : ∃ rest', rest = rest' + 1 := ⟨rest - 1, by simp at hrest; omega⟩
    have hcomma : Ends [','] str := ⟨hends.digit, by
      intro c hc hmem
      exact hends.delimiter c hc (by simp_all)⟩
    unfold parse_rows
    rw [parse_row_spec dup_num i hrow (hfit row (by simp)) dup_num 0 (hdup row (by simp)) seq2addr
      hcomma]
    simp only [hends.none (d := ';') (by simp)]
    rfl
  | @more row text blanks blanks' rows text' hrow hblanks hblanks' hrows ih =>
    obtain ⟨rest, rfl⟩ : ∃ rest', rest = rest' + 1 := ⟨rest - 1, by simp at hrest; omega⟩
    have hcomma := ends_of_blank (d := ';') hblanks rfl (by decide) [','] (by decide)
      (blanks' ++ text' ++ str)
    have hskip : skip_delimit [';'] (blanks ++ ';' :: (blanks' ++ text' ++ str)) =
        some (text' ++ str) := by
      rw [List.append_assoc]
      apply skip_delimit_append hblanks hblanks' (by decide)
      intro c hc
      obtain ⟨-, -, -, -, -, hspace, htab⟩ := isDigit_plain (hrows.head str c hc)
      simp [hspace, htab]
    unfold parse_rows
    rw [List.append_assoc, List.append_assoc, List.cons_append,
      parse_row_spec dup_num i hrow (hfit row (by simp)) dup_num 0 (hdup row (by simp)) seq2addr
        hcomma]
    simp only [hskip]
    rw [ih (fun row hmem => hfit row (List.mem_cons_of_mem _ hmem))
      (fun row hmem => hdup row (List.mem_cons_of_mem _ hmem)) rest (i + 1) (by simpa using hrest)]
    rfl

/-! ## The law of the table -/

@[simp] theorem put_row_length (seq2addr : List Int) (k : Nat) (row : List Nat) :
    (put_row seq2addr k row).length = seq2addr.length := by
  induction row generalizing seq2addr k with
  | nil => rfl
  | cons n row ih =>
    rw [put_row, ih, List.length_set]

@[simp] theorem put_rows_length (dup_num : Nat) (seq2addr : List Int) (i : Nat)
    (rows : List (List Nat)) : (put_rows dup_num seq2addr i rows).length = seq2addr.length := by
  induction rows generalizing seq2addr i with
  | nil => rfl
  | cons row rows ih =>
    rw [put_rows, ih, put_row_length]

theorem put_row_before (seq2addr : List Int) {k m : Nat} (hm : m < k) (row : List Nat) :
    (put_row seq2addr k row)[m]? = seq2addr[m]? := by
  induction row generalizing seq2addr k with
  | nil => rfl
  | cons n row ih =>
    rw [put_row, ih _ (by omega), List.getElem?_set_ne (by omega)]

/-- The places of the row hold its numbers, the places behind it what they held. -/
theorem put_row_from (seq2addr : List Int) (k j : Nat) (row : List Nat)
    (hk : k + j < seq2addr.length) :
    (put_row seq2addr k row)[k + j]? =
      some ((row[j]?.map Int.ofNat).getD (seq2addr.getD (k + j) 0)) := by
  induction row generalizing seq2addr k j with
  | nil => simp [put_row, hk]
  | cons n row ih =>
    rw [put_row]
    cases j with
    | zero =>
      simp only [Nat.add_zero] at hk ⊢
      rw [put_row_before _ (by omega), List.getElem?_set_self hk]
      rfl
    | succ j =>
      rw [show k + (j + 1) = k + 1 + j by omega,
        ih _ (k + 1) j (by simp only [List.length_set]; omega)]
      congr 2
      simp [List.getD_eq_getElem?_getD, List.getElem?_set_ne (show k ≠ k + 1 + j by omega)]

theorem put_row_behind (seq2addr : List Int) {k m : Nat} (row : List Nat)
    (hm : k + row.length ≤ m) : (put_row seq2addr k row)[m]? = seq2addr[m]? := by
  induction row generalizing seq2addr k with
  | nil => rfl
  | cons n row ih =>
    rw [List.length_cons] at hm
    rw [put_row, ih _ (by omega), List.getElem?_set_ne (by omega)]

theorem put_rows_before (dup_num : Nat) (seq2addr : List Int) {i m : Nat} (hm : m < i * dup_num)
    (rows : List (List Nat)) : (put_rows dup_num seq2addr i rows)[m]? = seq2addr[m]? := by
  induction rows generalizing seq2addr i with
  | nil => rfl
  | cons row rows ih =>
    have hle : i * dup_num ≤ (i + 1) * dup_num := Nat.mul_le_mul_right _ (by omega)
    rw [put_rows, ih _ (by omega), put_row_before _ hm]

/-- A place of row `i + a` holds the number that the rows have there, or what it held. -/
theorem put_rows_from (dup_num seq_num : Nat) (seq2addr : List Int)
    (hlength : seq2addr.length = seq_num * dup_num) (i a j : Nat) (rows : List (List Nat))
    (hdup : ∀ row ∈ rows, row.length ≤ dup_num) (ha : i + a < seq_num) (hj : j < dup_num) :
    (put_rows dup_num seq2addr i rows)[(i + a) * dup_num + j]? =
      some (((rows[a]?.bind (·[j]?)).map Int.ofNat).getD
        (seq2addr.getD ((i + a) * dup_num + j) 0)) := by
  have hlt : ∀ b < seq_num, b * dup_num + j < seq2addr.length := by
    intro b hb
    rw [hlength, Nat.mul_comm b]
    exact Nat.mul_add_lt_mul_of_lt_of_lt hb hj
  induction rows generalizing seq2addr i a with
  | nil =>
    rw [put_rows, List.getElem?_eq_getElem (hlt _ ha)]
    simp [hlt _ ha]
  | cons row rows ih =>
    rw [put_rows]
    cases a with
    | zero =>
      have hnext : (i + 1) * dup_num = i * dup_num + dup_num := by rw [Nat.add_mul, Nat.one_mul]
      simp only [Nat.add_zero] at ha ⊢
      rw [put_rows_before _ _ (by omega), put_row_from _ _ _ _ (hlt i ha)]
      rfl
    | succ a =>
      rw [show i + (a + 1) = i + 1 + a by omega,
        ih (put_row seq2addr (i * dup_num) row) (by rw [put_row_length, hlength]) (i + 1) a
          (fun row hmem => hdup row (List.mem_cons_of_mem _ hmem)) (by omega)
          (by simpa using hlt)]
      have hnext : (i + 1 + a) * dup_num = i * dup_num + dup_num + a * dup_num := by
        rw [Nat.add_mul, Nat.add_mul, Nat.one_mul]
      have hrow := hdup row List.mem_cons_self
      rw [List.getD_eq_getElem?_getD, put_row_behind _ _ (by omega), ← List.getD_eq_getElem?_getD,
        List.getElem?_cons_succ]

/-- Every table that fits is read number by number; the other places hold -1, and what is behind
the last number is left. -/
theorem the_table_is_read (seq_num dup_num : Nat) {rows : List (List Nat)} {text str : List Char}
    (htext : TableText rows text) (hrows : rows.length ≤ seq_num)
    (hdup : ∀ row ∈ rows, row.length ≤ dup_num) (hfit : ∀ row ∈ rows, ∀ n ∈ row, n < 2 ^ 31)
    (hends : Ends [',', ';'] str) :
    (parse_seq2addr seq_num dup_num (text ++ str)).2 = str ∧
      (parse_seq2addr seq_num dup_num (text ++ str)).1.length = seq_num * dup_num ∧
      ∀ i < seq_num, ∀ j < dup_num,
        (parse_seq2addr seq_num dup_num (text ++ str)).1[i * dup_num + j]? =
          some (((rows[i]?.bind (·[j]?)).map Int.ofNat).getD (-1)) := by
  unfold parse_seq2addr
  rw [parse_rows_spec dup_num htext hfit hdup seq_num 0 hrows _ hends]
  refine ⟨rfl, by simp, ?_⟩
  intro i hi j hj
  have hlt : i * dup_num + j < seq_num * dup_num := by
    rw [Nat.mul_comm i]
    exact Nat.mul_add_lt_mul_of_lt_of_lt hi hj
  have hread := put_rows_from dup_num seq_num (List.replicate (seq_num * dup_num) (-1))
    List.length_replicate 0 i j rows hdup (by omega) hj
  rw [Nat.zero_add, List.getD_replicate _ hlt] at hread
  exact hread

/-- Two rows for a table of three rows of two places, and a comment behind them. -/
theorem the_table_is_read_two :
    let text := ['1', ',', '2'] ++ [' ', ';', '\t', '0', '3']
    (parse_seq2addr 3 2 (text ++ [' ', '#'])).2 = [' ', '#'] ∧
      (parse_seq2addr 3 2 (text ++ [' ', '#'])).1.length = 3 * 2 ∧
      ∀ i < 3, ∀ j < 2, (parse_seq2addr 3 2 (text ++ [' ', '#'])).1[i * 2 + j]? =
        some ((([[1, 2], [3]][i]?.bind (·[j]?)).map Int.ofNat).getD (-1)) := by
  have hrow : RowText [1, 2] (['1'] ++ ([] ++ ',' :: ([] ++ ['2']))) :=
    .more ⟨by simp, by simp, by decide⟩ (by simp [Blank]) (by simp [Blank])
      (.last ⟨by simp, by simp, by decide⟩)
  have htext : TableText [[1, 2], [3]]
      (['1'] ++ ([] ++ ',' :: ([] ++ ['2'])) ++ ([' '] ++ ';' :: (['\t'] ++ ['0', '3']))) :=
    .more hrow (by simp [Blank]) (by simp [Blank]) (.last (.last ⟨by simp, by simp, by decide⟩))
  exact the_table_is_read 3 2 htext (by simp) (by simp) (by simp)
    ⟨by simp, by simp [skip, contains]⟩

end nettle.nt_distributor
