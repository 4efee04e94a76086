-- The string builder of sbuilder.c. A string ends before the first `\0` of its array. The text
-- of an append is what `vsnprintf` makes of the message and its arguments.
import Mathlib.Data.List.Induction
import Mathlib.Data.List.Infix
import Mathlib.Data.List.TakeDrop

namespace nettle.sbuilder

structure sbuilder_t where
  len : Nat
  capacity : Nat
  buf : List Char
  deriving DecidableEq, Repr

def sbuilder_init (buf : List Char) (capacity : Nat) : sbuilder_t where
  len := 0
  capacity
  buf

def sbuilder_len (builder : sbuilder_t) : Nat := builder.len

def sbuilder_reset (builder : sbuilder_t) : sbuilder_t :=
  { builder with
    len := 0
    buf := builder.buf.set 0 '\x00' }

/-- What fits before a terminator is written from `start` on; the answer is the length of all of
the text. -/
def vsnprintf (buf : List Char) (start size : Nat) (text : List Char) : List Char × Nat :=
  let written := text.take (size - 1) ++ ['\x00']
  (buf.take start ++ (written ++ buf.drop (start + written.length)), text.length)

def sbuilder_format (builder : sbuilder_t) (text : List Char) : Bool × sbuilder_t :=
  let left := builder.capacity - builder.len
  if left ≤ 1 then (false, builder)
  else
    let (buf, count) := vsnprintf builder.buf builder.len left text
    (true, { builder with
      buf
      len := if count ≥ left then builder.capacity else builder.len + count })

def sbuilder_format_all (builder : sbuilder_t) (texts : List (List Char)) : sbuilder_t :=
  texts.foldl (fun builder text => (sbuilder_format builder text).2) builder

/-! ## The string in the array -/

def strlen (buf : List Char) : Nat := buf.idxOf '\x00'

/-- What stands before the length of the builder, which is also what the reporter sends. -/
def sbuilder_t.string (builder : sbuilder_t) : List Char := builder.buf.take (sbuilder_len builder)

/-- The builder has a terminated string as long as it says, which begins the text, and which is
all of the text if that is shorter than the capacity. -/
structure Holds (builder : sbuilder_t) (text : List Char) : Prop where
  terminated : builder.buf[sbuilder_len builder]? = some '\x00'
  strlen : '\x00' ∉ text → strlen builder.buf = sbuilder_len builder
  begins : builder.string <+: text
  whole : text.length < builder.capacity → builder.string = text

/-- No text is cut: if there is room for a character at all, there is room for the text. -/
def NeverCut (capacity : Nat) (texts : List (List Char)) : Prop :=
  ∀ begun text rest, texts = begun ++ text :: rest → begun.flatten.length + 1 < capacity →
    begun.flatten.length + text.length < capacity

/-- The length is within the array. -/
structure Sized (capacity : Nat) (builder : sbuilder_t) : Prop where
  capacity_eq : builder.capacity = capacity
  length : builder.buf.length = capacity
  len_le : sbuilder_len builder ≤ capacity

/-- The builder has as much of the text as fits before a terminator. -/
structure Kept (capacity : Nat) (builder : sbuilder_t) (text : List Char) : Prop
    extends Sized capacity builder where
  string_eq : builder.string = text.take (capacity - 1)
  terminated : builder.buf[sbuilder_len builder]? = some '\x00'

section

variable {capacity : Nat} {builder : sbuilder_t} {text : List Char}

theorem strlen_eq {buf : List Char} {n : Nat} (hnul : buf[n]? = some '\x00')
    (hfree : '\x00' ∉ buf.take n) : strlen buf = n := by
  obtain ⟨hn, hget⟩ := List.getElem?_eq_some_iff.mp hnul
  have hsplit : buf = buf.take n ++ '\x00' :: buf.drop (n + 1) := by
    conv_lhs => rw [← List.take_append_drop n buf, List.drop_eq_getElem_cons hn, hget]
  unfold strlen
  rw [hsplit, List.idxOf_append_of_notMem hfree, List.idxOf_cons_self, List.length_take]
  omega

theorem Kept.holds (h : Kept capacity builder text) (hpos : 1 ≤ capacity) :
    Holds builder text where
  terminated := h.terminated
  strlen := by
    intro hfree
    apply strlen_eq h.terminated
    intro hmem
    change '\x00' ∈ builder.string at hmem
    rw [h.string_eq] at hmem
    exact hfree (List.mem_of_mem_take hmem)
  begins := by
    rw [h.string_eq]
    exact List.take_prefix _ _
  whole := by
    intro hshort
    rw [h.capacity_eq] at hshort
    rw [h.string_eq]
    exact List.take_of_length_le (by omega)

theorem Sized.string_length (h : Sized capacity builder) :
    builder.string.length = sbuilder_len builder := by
  have hle := h.len_le
  unfold sbuilder_t.string
  rw [List.length_take, h.length]
  omega

theorem sbuilder_reset_kept (builder : sbuilder_t) (hpos : 1 ≤ builder.capacity)
    (hbuf : builder.buf.length = builder.capacity) :
    Kept builder.capacity (sbuilder_reset builder) [] where
  capacity_eq := rfl
  length := by simpa [sbuilder_reset] using hbuf
  len_le := Nat.zero_le _
  string_eq := by rw [List.take_nil]; rfl
  terminated := List.getElem?_set_self (by omega)

/-! ## One append -/

theorem sbuilder_format_refused (h : Sized capacity builder)
    (hfull : capacity ≤ sbuilder_len builder + 1) (text : List Char) :
    sbuilder_format builder text = (false, builder) := by
  unfold sbuilder_len at hfull
  unfold sbuilder_format
  rw [h.capacity_eq]
  exact if_pos (by omega)

/-- With room for a character the text is taken, and as much of it as fits is written. -/
theorem sbuilder_format_taken (h : Sized capacity builder)
    (hroom : sbuilder_len builder + 1 < capacity) (text : List Char) :
    ∃ builder', sbuilder_format builder text = (true, builder') ∧ Sized capacity builder' ∧
      sbuilder_len builder' =
        (if sbuilder_len builder + text.length < capacity then sbuilder_len builder + text.length
          else capacity) ∧
      ∃ behind, builder'.buf =
        builder.string ++ (text.take (capacity - sbuilder_len builder - 1) ++ '\x00' :: behind) := by
  have hcapacity := h.capacity_eq
  have hlength := h.length
  unfold sbuilder_len at hroom
  unfold sbuilder_format
  refine ⟨_, if_neg (by omega), ⟨hcapacity, ?_, ?_⟩, ?_, builder.buf.drop (builder.len +
    (text.take (capacity - builder.len - 1) ++ ['\x00']).length), ?_⟩
  · simp only [List.length_append, List.length_take, List.length_drop, List.length_singleton]
    omega
  · simp only [sbuilder_len, hcapacity]
    split <;> omega
  · by_cases hfits : sbuilder_len builder + text.length < capacity
    · rw [if_pos hfits]
      unfold sbuilder_len at hfits
      exact if_neg (by rw [hcapacity]; omega)
    · rw [if_neg hfits, ← hcapacity]
      unfold sbuilder_len at hfits
      exact if_pos (by rw [hcapacity]; omega)
  · simp only [hcapacity, List.append_assoc, List.singleton_append]
    rfl

theorem string_after {builder' : sbuilder_t} {str behind : List Char}
    (hbuf : builder'.buf = str ++ '\x00' :: behind) (hlen : sbuilder_len builder' = str.length) :
    builder'.string = str ∧ builder'.buf[sbuilder_len builder']? = some '\x00' := by
  unfold sbuilder_t.string
  rw [hbuf, hlen]
  simp

/-- A text that is not cut is added to what the builder keeps. -/
theorem Kept.format (h : Kept capacity builder text) {more : List Char}
    (hfits : text.length + 1 < capacity → text.length + more.length < capacity) :
    Kept capacity (sbuilder_format builder more).2 (text ++ more) := by
  have hstring := congrArg List.length h.string_eq
  rw [h.string_length, List.length_take] at hstring
  by_cases hroom : text.length + 1 < capacity
  · have hlen : sbuilder_len builder = text.length := by omega
    have hfits := hfits hroom
    obtain ⟨builder', hformat, hsized, hlen', behind, hbuf⟩ :=
      sbuilder_format_taken h.toSized (by omega) more
    rw [hlen, if_pos hfits] at hlen'
    rw [h.string_eq, List.take_of_length_le (by omega), List.take_of_length_le (by omega),
      ← List.append_assoc] at hbuf
    obtain ⟨hstring', hterminated⟩ := string_after hbuf (by rw [hlen', List.length_append])
    rw [hformat]
    refine ⟨hsized, ?_, hterminated⟩
    rw [hstring', List.take_of_length_le (by rw [List.length_append]; omega)]
  · rw [sbuilder_format_refused h.toSized (by omega)]
    refine ⟨h.toSized, ?_, h.terminated⟩
    rw [h.string_eq, List.take_append_of_le_length (by omega)]

/-- A text that is cut leaves the builder with a length behind the terminator. -/
theorem Holds.format_cut (h : Holds builder text) (hsized : Sized capacity builder)
    {more : List Char} (hroom : text.length + 1 < capacity)
    (hcut : capacity ≤ text.length + more.length) :
    sbuilder_len (sbuilder_format builder more).2 = capacity := by
  have hlen : sbuilder_len builder = text.length := by
    rw [← hsized.string_length, h.whole (by rw [hsized.capacity_eq]; omega)]
  obtain ⟨builder', hformat, hsized', hlen', -⟩ :=
    sbuilder_format_taken hsized (by omega) more
  rw [hformat, hlen', if_neg (by omega)]

theorem Sized.format (h : Sized capacity builder) (more : List Char) :
    Sized capacity (sbuilder_format builder more).2 := by
  by_cases hroom : sbuilder_len builder + 1 < capacity
  · obtain ⟨builder', hformat, hsized, -⟩ := sbuilder_format_taken h hroom more
    rwa [hformat]
  · rwa [sbuilder_format_refused h (by omega)]

end

/-! ## Sequences of appends -/

theorem sbuilder_format_all_sized {capacity : Nat} {builder : sbuilder_t}
    (h : Sized capacity builder) (texts : List (List Char)) :
    Sized capacity (sbuilder_format_all builder texts) := by
  induction texts generalizing builder with
  | nil => exact h
  | cons text texts ih => exact ih (h.format text)

theorem sbuilder_format_all_snoc (builder : sbuilder_t) (texts : List (List Char))
    (text : List Char) :
    sbuilder_format_all builder (texts ++ [text]) =
      (sbuilder_format (sbuilder_format_all builder texts) text).2 := by
  unfold sbuilder_format_all
  rw [List.foldl_append, List.foldl_cons, List.foldl_nil]

theorem sbuilder_format_all_kept {capacity : Nat} {builder : sbuilder_t}
    (h : Kept capacity builder []) (texts rest : List (List Char))
    (hcut : NeverCut capacity (texts ++ rest)) :
    Kept capacity (sbuilder_format_all builder texts) texts.flatten := by
  induction texts using List.reverseRecOn generalizing rest with
  | nil => exact h
  | append_singleton texts text ih =>
    rw [List.append_assoc] at hcut
    rw [sbuilder_format_all_snoc, List.flatten_append, List.flatten_singleton]
    exact (ih _ hcut).format (hcut texts text rest rfl)

/-- After all appends the builder has a string as long as it says, exactly if none of them is cut. -/
theorem the_builder_holds_its_text_iff (builder : sbuilder_t) (texts : List (List Char))
    (hpos : 1 ≤ builder.capacity) (hbuf : builder.buf.length = builder.capacity) :
    (∀ begun rest, texts = begun ++ rest →
        Holds (sbuilder_format_all (sbuilder_reset builder) begun) begun.flatten) ↔
      NeverCut builder.capacity texts := by
  have hreset := sbuilder_reset_kept builder hpos hbuf
  constructor
  · rintro hholds begun text rest rfl hroom
    by_contra hcut
    have hsized := sbuilder_format_all_sized hreset.toSized begun
    have hbegun := hholds begun (text :: rest) rfl
    have hlen := hbegun.format_cut hsized hroom (not_lt.mp hcut)
    have hlater := (hholds (begun ++ [text]) rest (by simp)).terminated
    rw [sbuilder_format_all_snoc, hlen] at hlater
    obtain ⟨hlt, -⟩ := List.getElem?_eq_some_iff.mp hlater
    rw [(hsized.format text).length] at hlt
    exact lt_irrefl _ hlt
  · rintro hcut begun rest rfl
    exact (sbuilder_format_all_kept hreset begun rest hcut).holds hpos

/-- The second text takes the last place, and the third is refused. -/
theorem the_builder_holds_its_text_three :
    (∀ begun rest, [['a'], ['b', 'c'], ['d']] = begun ++ rest →
        Holds (sbuilder_format_all (sbuilder_reset (sbuilder_init ['?', '?', '?', '?'] 4)) begun)
          begun.flatten) ↔ NeverCut 4 [['a'], ['b', 'c'], ['d']] :=
  the_builder_holds_its_text_iff (sbuilder_init ['?', '?', '?', '?'] 4) _ (by decide) (by decide)

/-- The array holds one character and its terminator, and the builder says two. -/
theorem a_cut_text_is_one_too_long :
    let builder := (sbuilder_format (sbuilder_reset (sbuilder_init ['?', '?'] 2)) ['a', 'b']).2
    builder.buf = ['a', '\x00'] ∧ strlen builder.buf = 1 ∧ sbuilder_len builder = 2 ∧
      ¬Holds builder ['a', 'b'] := by
  refine ⟨by decide, by decide, by decide, ?_⟩
  intro h
  exact absurd h.terminated (by decide)

end nettle.sbuilder
