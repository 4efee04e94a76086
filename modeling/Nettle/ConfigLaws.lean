-- What is left of a text once it is loaded. A line that does not fit the
-- format ends the load, so all that stands below it is lost, and no caller
-- is told.
import Nettle.Config
import Nettle.HashmapRuns

open nettle.utils nettle.linked finite_map
open nettle.hashmap (str_hash_func str_equal_func Lawful)

namespace nettle.config

/-! ## What the lines of a text say -/

/-- A line with nothing on it, or a comment. -/
def ignored (line : List Char) : Bool :=
  (skip SPACES line).head? == some '#' || skip SPACES line == []

/-- What a line binds, where it is no comment and fits the format. -/
def setting (line : List Char) : Option (List Char × List Char) :=
  if ignored line then none
  else
    match scan_pair (skip SPACES line) with
    | [key, value] => some (key, value)
    | _ => none

/-- A line that should bind something, but does not fit the format. -/
def malformed (line : List Char) : Bool := !ignored line && (setting line).isNone

def settings (lines : List (List Char)) : List (List Char × List Char) := lines.filterMap setting

/-- The value of the last line that binds the key. -/
def last_value (lines : List (List Char)) (key : List Char) : Option (List Char) :=
  (settings lines).reverse.lookup key

def above_malformed (lines : List (List Char)) : List (List Char) :=
  lines.takeWhile (!malformed ·)

def below_malformed (lines : List (List Char)) : List (List Char) :=
  lines.dropWhile (!malformed ·)

/-- From the first malformed line on, no key gets a last value other than the one it has above. -/
def NothingLost (lines : List (List Char)) : Prop :=
  ∀ key value, last_value (below_malformed lines) key = some value →
    last_value (above_malformed lines) key = some value

theorem last_value_append (lines lines' : List (List Char)) (key : List Char) :
    last_value (lines ++ lines') key = (last_value lines' key).or (last_value lines key) := by
  simp only [last_value, settings, List.filterMap_append, List.reverse_append, List.lookup_append]

theorem last_value_split (lines : List (List Char)) (key : List Char) :
    last_value lines key =
      (last_value (below_malformed lines) key).or (last_value (above_malformed lines) key) := by
  rw [← last_value_append, above_malformed, below_malformed, List.takeWhile_append_dropWhile]

/-- What is above says it all exactly when nothing is lost. -/
theorem above_complete_iff (lines : List (List Char)) :
    (∀ key, last_value (above_malformed lines) key = last_value lines key) ↔ NothingLost lines := by
  constructor
  · intro h key value hvalue
    rw [h, last_value_split, hvalue, Option.some_or]
  · intro h key
    rw [last_value_split lines]
    cases hvalue : last_value (below_malformed lines) key with
    | none => rw [Option.none_or]
    | some value => rw [h key value hvalue, Option.some_or]

/-! ## A newline at the end of a line -/

/-- The same text, or the same with a newline behind it. -/
def Ended (str str' : List Char) : Prop := str' = str ∨ str' = str ++ ['\n']

theorem Ended.dropWhile {str str' : List Char} (h : Ended str str') (p : Char → Bool) :
    Ended (str.dropWhile p) (str'.dropWhile p) := by
  rcases h with rfl | rfl
  · exact Or.inl rfl
  · rw [List.dropWhile_append]
    split
    · next hempty =>
      rw [List.isEmpty_iff] at hempty
      rw [hempty]
      cases hp : p '\n' with
      | true => exact Or.inl (by simp [hp])
      | false => exact Or.inr (by simp [hp])
    · exact Or.inr rfl

/-- Once it is skipped, a newline is no first character. -/
theorem Ended.head {str str' : List Char} (h : Ended str str') {p : Char → Bool} (hp : p '\n' = true) :
    (str'.dropWhile p).head? = (str.dropWhile p).head? := by
  rcases h with rfl | rfl
  · rfl
  · rw [List.dropWhile_append]
    split
    · next hempty =>
      rw [List.isEmpty_iff] at hempty
      rw [hempty]
      simp [hp]
    · next hempty =>
      rw [List.head?_append_of_ne_nil]
      simpa using hempty

theorem Ended.takeWhile {str str' : List Char} (h : Ended str str') {p : Char → Bool}
    (hp : p '\n' = false) : str'.takeWhile p = str.takeWhile p := by
  rcases h with rfl | rfl
  · rfl
  · rw [List.takeWhile_append]
    split
    · next hall =>
      rw [(List.takeWhile_sublist p).eq_of_length hall, List.takeWhile_cons_of_neg (by simp [hp]),
        List.append_nil]
    · rfl

theorem Ended.drop {str str' : List Char} (h : Ended str str') {n : Nat} (hn : n ≤ str.length) :
    Ended (str.drop n) (str'.drop n) := by
  rcases h with rfl | rfl
  · exact Or.inl rfl
  · exact Or.inr (List.drop_append_of_le_length hn)

theorem Ended.scan_literal {str str' : List Char} (h : Ended str str')
    (hhead : str'.head? = str.head?) (c : Char) :
    (utils.scan_literal c str = none ∧ utils.scan_literal c str' = none) ∨
      ∃ rest rest', utils.scan_literal c str = some rest ∧
        utils.scan_literal c str' = some rest' ∧ Ended rest rest' := by
  cases str with
  | nil =>
    rw [List.head?_nil, List.head?_eq_none_iff] at hhead
    exact Or.inl ⟨rfl, by rw [hhead]; rfl⟩
  | cons s str =>
    obtain ⟨str', rfl⟩ := List.head?_eq_some_iff.mp hhead
    have hrest : Ended str str' := by
      rcases h with heq | heq
      · exact Or.inl (List.cons.inj heq).2
      · exact Or.inr (List.cons.inj heq).2
    simp only [utils.scan_literal]
    by_cases hs : s = c
    · rw [if_pos hs, if_pos hs]
      exact Or.inr ⟨_, _, rfl, rfl, hrest⟩
    · rw [if_neg hs, if_neg hs]
      exact Or.inl ⟨rfl, rfl⟩

theorem Ended.scan_string {str str' : List Char} (h : Ended str str') (width : Nat) :
    (utils.scan_string width str = none ∧ utils.scan_string width str' = none) ∨
      ∃ word rest rest', utils.scan_string width str = some (word, rest) ∧
        utils.scan_string width str' = some (word, rest') ∧ Ended rest rest' := by
  have hskip : Ended (skip_space str) (skip_space str') := h.dropWhile is_space
  have hword : (skip_space str').takeWhile (!is_space ·) = (skip_space str).takeWhile (!is_space ·) :=
    hskip.takeWhile (by decide)
  unfold utils.scan_string
  simp only [hword]
  split
  · exact Or.inl ⟨rfl, rfl⟩
  · refine Or.inr ⟨_, _, _, rfl, rfl, hskip.drop ?_⟩
    exact (List.length_take_le' _ _).trans (List.takeWhile_sublist _).length_le

theorem Ended.scan_pair {str str' : List Char} (h : Ended str str') :
    config.scan_pair str' = config.scan_pair str := by
  unfold config.scan_pair
  rcases h.scan_string 1024 with ⟨hkey, hkey'⟩ | ⟨key, rest, rest', hkey, hkey', hrest⟩
  · rw [hkey, hkey']
  · rw [hkey, hkey']
    have hskip : Ended (skip_space rest) (skip_space rest') := hrest.dropWhile is_space
    rcases hskip.scan_literal (hrest.head (by decide)) '=' with
      ⟨heq, heq'⟩ | ⟨str, str', heq, heq', hstr⟩
    · simp only [heq, heq']
    · have hspace : Ended (skip_space str) (skip_space str') := hstr.dropWhile is_space
      simp only [heq, heq']
      rcases hspace.scan_string 1024 with ⟨hval, hval'⟩ | ⟨value, _, _, hval, hval', -⟩
      · simp only [hval, hval']
      · simp only [hval, hval']

theorem Ended.skip {str str' : List Char} (h : Ended str str') :
    Ended (utils.skip SPACES str) (utils.skip SPACES str') := by
  rw [skip_eq_dropWhile, skip_eq_dropWhile]
  exact h.dropWhile _

/-- The newline of a line says nothing. -/
theorem Ended.ignored {line line' : List Char} (h : Ended line line') :
    config.ignored line' = config.ignored line := by
  have hhead : (utils.skip SPACES line').head? = (utils.skip SPACES line).head? := by
    rw [skip_eq_dropWhile, skip_eq_dropWhile]
    exact h.head (by decide)
  have hempty : utils.skip SPACES line' = [] ↔ utils.skip SPACES line = [] := by
    rw [← List.head?_eq_none_iff, hhead, List.head?_eq_none_iff]
  unfold config.ignored
  rw [hhead]
  congr 1
  rw [Bool.eq_iff_iff, beq_iff_eq, beq_iff_eq]
  exact hempty

theorem Ended.setting {line line' : List Char} (h : Ended line line') :
    config.setting line' = config.setting line := by
  unfold config.setting
  rw [h.ignored, h.skip.scan_pair]

theorem Ended.malformed {line line' : List Char} (h : Ended line line') :
    config.malformed line' = config.malformed line := by
  unfold config.malformed
  rw [h.ignored, h.setting]

/-! ## One line after the other -/

/-- A text, with lines that fit the buffer. -/
structure Text (file : List Char) : Prop where
  plain : '\x00' ∉ file
  short : ∀ line ∈ file.splitOn '\n', line.length < 1023

theorem read_line_append {line : List Char} (h : '\n' ∉ line) {room : Nat}
    (hroom : line.length < room) (rest : List Char) :
    read_line room (line ++ '\n' :: rest) = (line ++ ['\n'], rest) := by
  induction line generalizing room with
  | nil =>
    obtain ⟨room, rfl⟩ := Nat.exists_eq_add_one.mpr hroom
    rfl
  | cons c line ih =>
    obtain ⟨room, rfl⟩ := Nat.exists_eq_add_one.mpr (Nat.zero_lt_of_lt hroom)
    rw [List.mem_cons, not_or] at h
    rw [List.cons_append, read_line, if_neg (Ne.symm h.1),
      ih h.2 (Nat.lt_of_succ_lt_succ hroom)]
    rfl

theorem read_line_all {line : List Char} (h : '\n' ∉ line) {room : Nat}
    (hroom : line.length ≤ room) : read_line room line = (line, []) := by
  induction line generalizing room with
  | nil => cases room <;> rfl
  | cons c line ih =>
    obtain ⟨room, rfl⟩ := Nat.exists_eq_add_one.mpr (Nat.zero_lt_of_lt hroom)
    rw [List.mem_cons, not_or] at h
    rw [read_line, if_neg (Ne.symm h.1), ih h.2 (Nat.le_of_succ_le_succ hroom)]

theorem takeWhile_plain {str : List Char} (h : '\x00' ∉ str) :
    str.takeWhile (· ≠ '\x00') = str := by
  rw [List.takeWhile_eq_self_iff]
  intro c hc
  rw [decide_eq_true_iff]
  rintro rfl
  exact h hc

/-- Each line is read as a whole, and the lines that follow are the ones of what is left. -/
theorem fgets_line {f : List Char} (h : Text f) (hf : f ≠ []) :
    ∃ line line' rest lines, fgets 1024 f = some (line', rest) ∧ Ended line line' ∧
      f.splitOn '\n' = line :: lines ∧ rest.length < f.length ∧ Text rest ∧
      (lines = rest.splitOn '\n' ∨ lines = [] ∧ rest = []) := by
  by_cases hnewline : '\n' ∈ f
  · obtain ⟨line, rest, rfl, hline⟩ := List.eq_append_cons_of_mem hnewline
    have hsplit := List.splitOn_append_cons_self_of_not_mem hline rest
    have hshort := h.short
    rw [hsplit] at hshort
    have hplain : '\x00' ∉ line ++ ['\n'] ∧ '\x00' ∉ rest := by
      have := h.plain
      simp only [List.mem_append, List.mem_cons, not_or] at this ⊢
      exact ⟨⟨this.1, this.2.1, List.not_mem_nil⟩, this.2.2⟩
    refine ⟨line, line ++ ['\n'], rest, _, ?_, Or.inr rfl, hsplit, ?_, ?_, Or.inl rfl⟩
    · unfold fgets
      rw [if_neg hf, read_line_append hline (hshort line List.mem_cons_self)]
      simp only [takeWhile_plain hplain.1]
    · rw [List.length_append, List.length_cons]
      omega
    · exact ⟨hplain.2, fun line hline => hshort line (List.mem_cons_of_mem _ hline)⟩
  · have hsplit := List.splitOn_eq_singleton hnewline
    have hshort := h.short
    rw [hsplit] at hshort
    refine ⟨f, f, [], [], ?_, Or.inl rfl, hsplit, List.length_pos_iff.mpr hf, ?_, Or.inr ⟨rfl, rfl⟩⟩
    · unfold fgets
      rw [if_neg hf, read_line_all hnewline (hshort f List.mem_cons_self).le]
      simp only [takeWhile_plain h.plain]
    · exact ⟨List.not_mem_nil, by simp⟩

/-- One turn of the loop. -/
theorem config_load_loop_line {f line rest : List Char} (h : fgets 1024 f = some (line, rest))
    (fuel turns : Nat) (map : hashmap_t (List Char) (List Char)) :
    config_load_loop fuel (turns + 1) map f =
      if malformed line then some map
      else
        match setting line with
        | none => config_load_loop fuel turns map rest
        | some (key, value) =>
          (hashmap_put fuel map key value).bind fun put => config_load_loop fuel turns put.2 rest := by
  have hignored : ((skip SPACES line).head? = some '#' ∨ skip SPACES line = []) ↔
      ignored line = true := by
    unfold ignored
    rw [Bool.or_eq_true, beq_iff_eq, beq_iff_eq]
  rw [config_load_loop, h]
  simp only [hignored, malformed, setting]
  by_cases hline : ignored line = true
  · simp [hline]
  · simp only [hline, Bool.false_eq_true, if_false, Bool.not_false, Bool.true_and]
    rcases scan_pair (skip SPACES line) with _ | ⟨key, _ | ⟨value, _ | _⟩⟩ <;> rfl

/-! ## The load -/

theorem last_value_malformed {line : List Char} (h : malformed line = true)
    (lines : List (List Char)) (key : List Char) :
    last_value (above_malformed (line :: lines)) key = none := by
  rw [above_malformed, List.takeWhile_cons_of_neg (by simp [h])]
  rfl

theorem above_malformed_cons {line : List Char} (h : malformed line = false)
    (lines : List (List Char)) :
    above_malformed (line :: lines) = line :: above_malformed lines :=
  List.takeWhile_cons_of_pos (by simp [h])

theorem last_value_silent {line : List Char} (h : setting line = none)
    (lines : List (List Char)) (key : List Char) :
    last_value (line :: lines) key = last_value lines key := by
  unfold last_value settings
  rw [List.filterMap_cons_none h]

theorem last_value_setting {line k v : List Char} (h : setting line = some (k, v))
    (lines : List (List Char)) (key : List Char) : last_value (line :: lines) key =
      (last_value lines key).or (if str_equal_func key k then some v else none) := by
  unfold last_value settings
  rw [List.filterMap_cons_some h, List.reverse_cons, List.lookup_append]
  congr 1
  unfold nettle.hashmap.str_equal_func
  by_cases hkey : (key == k) = true
  · simp [List.lookup, hkey]
  · simp [List.lookup, hkey]

/-- The values that a table has for its keys. -/
def value (map : FiniteMap (List Char) (List Char) str_equal_func) (key : List Char) :
    Option (List Char) :=
  (find map key).map Prod.snd

/-- The last value above a malformed line wins, then the one that was there before. -/
theorem config_load_loop_spec (fuel : Nat) {turns : Nat} {f : List Char} (hturns : f.length < turns)
    (htext : Text f) {table : hashmap_t (List Char) (List Char)}
    {map : FiniteMap (List Char) (List Char) str_equal_func} (h : Stands table map) :
    ∃ table' map', config_load_loop (fuel + 2) turns table f = some table' ∧ Stands table' map' ∧
      ∀ key, value map' key =
        (last_value (above_malformed (f.splitOn '\n')) key).or (value map key) := by
  induction turns generalizing f table map with
  | zero => exact absurd hturns (Nat.not_lt_zero _)
  | succ turns ih =>
    by_cases hf : f = []
    · subst hf
      exact ⟨table, map, rfl, h, fun key => rfl⟩
    obtain ⟨line, line', rest, lines, hfgets, hended, hsplit, hrest, htext', hlines⟩ :=
      fgets_line htext hf
    have hlast : ∀ key, last_value (above_malformed lines) key =
        last_value (above_malformed (rest.splitOn '\n')) key := by
      intro key
      rcases hlines with rfl | ⟨rfl, rfl⟩
      · rfl
      · rfl
    rw [config_load_loop_line hfgets, hended.malformed, hended.setting, hsplit]
    have hturns' : rest.length < turns := hrest.trans_le (Nat.lt_succ_iff.mp hturns)
    cases hmalformed : malformed line with
    | true =>
      refine ⟨table, map, rfl, h, fun key => ?_⟩
      rw [last_value_malformed hmalformed, Option.none_or]
    | false =>
      simp only [above_malformed_cons hmalformed, Bool.false_eq_true, if_false]
      cases hsetting : setting line with
      | none =>
        obtain ⟨table', map', hload, hstands, hvalue⟩ := ih hturns' htext' h
        refine ⟨table', map', hload, hstands, fun key => ?_⟩
        rw [last_value_silent hsetting, hlast, hvalue]
      | some b =>
        obtain ⟨k, v⟩ := b
        obtain ⟨table₁, hput, hstands₁⟩ := h.put k v fuel
        obtain ⟨table', map', hload, hstands, hvalue⟩ := ih hturns' htext' hstands₁
        refine ⟨table', map', ?_, hstands, fun key => ?_⟩
        · simp only [hput, Option.bind_some]
          exact hload
        · rw [hvalue, last_value_setting hsetting, hlast, Option.or_assoc]
          congr 1
          rw [value, value_put h.equivalence]
          split <;> rfl

theorem str_lawful : Lawful str_hash_func str_equal_func where
  refl k := beq_self_eq_true k
  symm h := by
    rw [str_equal_func, beq_iff_eq] at h ⊢
    exact h.symm
  trans h h' := by
    rw [str_equal_func, beq_iff_eq] at h h' ⊢
    exact h.trans h'
  hash h := by
    rw [str_equal_func, beq_iff_eq] at h
    rw [h]

/-- A text is always loaded, and what is bound is what stands above a malformed line. -/
theorem config_load_from_file_spec {file : List Char} (h : Text file) (fuel : Nat) :
    ∃ config config', config_init = some config ∧
      config_load_from_file (fuel + 2) config (some file) = some (true, config') ∧
      ∀ key, config_get config' key =
        some (last_value (above_malformed (file.splitOn '\n')) key) := by
  obtain ⟨table, hinit, hstands⟩ := init1_stands (β := List Char) str_lawful
    (by norm_num : 2 ≤ 8)
  obtain ⟨table', map', hload, hstands', hvalue⟩ :=
    config_load_loop_spec fuel (Nat.lt_succ_self file.length) h hstands
  refine ⟨⟨table⟩, ⟨table'⟩, ?_, ?_, fun key => ?_⟩
  · unfold config_init
    rw [hinit]
    rfl
  · unfold config_load_from_file
    simp only [hload]
    rfl
  · have hkey := hvalue key
    rw [show value (empty : FiniteMap _ _ str_equal_func) key = none from rfl, Option.or_none] at hkey
    rw [← hkey, config_get, config_get_default, hstands'.get, value]
    cases find map' key <;> rfl

/-- The load of a text says true, and the configuration is complete exactly when no line after the
first malformed one has a say. -/
theorem the_configuration_is_complete_iff {file : List Char} (h : Text file) (fuel : Nat) :
    ∃ config config', config_init = some config ∧
      config_load_from_file (fuel + 2) config (some file) = some (true, config') ∧
      ((∀ key, config_get config' key = some (last_value (file.splitOn '\n') key)) ↔
        NothingLost (file.splitOn '\n')) := by
  obtain ⟨config, config', hinit, hload, hget⟩ := config_load_from_file_spec h fuel
  refine ⟨config, config', hinit, hload, ?_⟩
  rw [← above_complete_iff]
  simp only [hget, Option.some.injEq]

/-- A comment, a key bound twice and a malformed line at the end. -/
theorem the_configuration_is_complete_twice : ∃ config config', config_init = some config ∧
    config_load_from_file 2 config (some ['#', 'N', '\n', 'N', ' ', '=', ' ', '1', '\n', '\n',
      'N', ' ', '=', '2', '\n', 'K', '=']) = some (true, config') ∧
    config_get config' ['N'] = some (some ['2']) := by
  have htext : Text ['#', 'N', '\n', 'N', ' ', '=', ' ', '1', '\n', '\n',
      'N', ' ', '=', '2', '\n', 'K', '='] := by
    constructor <;> decide
  obtain ⟨config, config', hinit, hload, hcomplete⟩ := the_configuration_is_complete_iff htext 0
  refine ⟨config, config', hinit, hload, hcomplete.mpr ?_ ['N']⟩
  intro key value hvalue
  cases hvalue

/-- A malformed line hides the line below it. -/
theorem a_malformed_line_ends_the_load : ∃ file config config', Text file ∧
    config_init = some config ∧
    config_load_from_file 2 config (some file) = some (true, config') ∧
    config_get config' ['c'] = some none ∧ last_value (file.splitOn '\n') ['c'] = some ['3'] := by
  have htext : Text ['a', ' ', '=', ' ', '1', '\n', 'b', ' ', '=', '\n', 'c', ' ', '=', ' ', '3', '\n'] := by
    constructor <;> decide
  obtain ⟨config, config', hinit, hload, hget⟩ := config_load_from_file_spec htext 0
  exact ⟨_, config, config', htext, hinit, hload, hget ['c'], by decide⟩

end nettle.config
