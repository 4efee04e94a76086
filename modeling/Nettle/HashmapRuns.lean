-- The hash table is a finite map: over any calls it gives what the map gives,
-- however its chains, its entries and its growth bring that about.
import Nettle.FiniteMap
import Nettle.LinkedHashmapLaws

open slots nettle.hashmap finite_map

namespace nettle.linked

variable {κ β : Type}

/-! ## Calls, on the table and on the map -/

inductive operation (κ β : Type) where
  | put (key : κ) (value : β)
  | put_if_absent (key : κ) (value : β)
  | get (key : κ)
  | remove (key : κ)
  | clear

/-- What a call gives back. -/
inductive outcome (κ β : Type) where
  | replaced (old_value : Option β)
  | absent (added : Bool)
  | found (key_value : Option (κ × β))
  | removed (key_value : Option (κ × β))
  | cleared
deriving DecidableEq

def hashmap_call (fuel : Nat) (map : hashmap_t κ β) :
    operation κ β → Option (outcome κ β × hashmap_t κ β)
  | .put key value => do
    let (old_value, map) ← hashmap_put fuel map key value
    return (.replaced old_value, map)
  | .put_if_absent key value => do
    let (added, map) ← hashmap_put_if_absent fuel map key value
    return (.absent added, map)
  | .get key => do
    let key_value ← hashmap_get map key
    return (.found key_value, map)
  | .remove key => do
    let (key_value, map) ← hashmap_remove map key
    return (.removed key_value, map)
  | .clear => some (.cleared, hashmap_clear map)

/-- Call after call: what each gives back, and the size after it. -/
def hashmap_run (fuel : Nat) : List (operation κ β) → hashmap_t κ β →
    Option (List (outcome κ β × Nat) × hashmap_t κ β)
  | [], map => some ([], map)
  | call :: calls, map => do
    let (outcome, map') ← hashmap_call fuel map call
    let (outcomes, map'') ← hashmap_run fuel calls map'
    return ((outcome, map'.size) :: outcomes, map'')

section

variable {equal : κ → κ → Bool}

def map_call (map : FiniteMap κ β equal) : operation κ β → outcome κ β × FiniteMap κ β equal
  | .put key value => (.replaced (put map key value).1, (put map key value).2)
  | .put_if_absent key value =>
    (.absent (put_if_absent map key value).1, (put_if_absent map key value).2)
  | .get key => (.found (find map key), map)
  | .remove key => (.removed (remove map key).1, (remove map key).2)
  | .clear => (.cleared, empty)

def map_run : List (operation κ β) → FiniteMap κ β equal →
    List (outcome κ β × Nat) × FiniteMap κ β equal
  | [], map => ([], map)
  | call :: calls, map =>
    let (outcome, map') := map_call map call
    let (outcomes, map'') := map_run calls map'
    ((outcome, size map') :: outcomes, map'')

/-! ## What the table of lists does, as a map -/

structure Refines (m : hashmap.hashmap_t κ β) (map : FiniteMap κ β equal) : Prop where
  sound : Sound m
  equal_func : m.equal_func = equal
  bindings : (hashmap.bindings m).Perm map.bindings

variable {m : hashmap.hashmap_t κ β} {map : FiniteMap κ β equal}

theorem Refines.size (h : Refines m map) : m.size = size map :=
  h.sound.size.trans h.bindings.length_eq

theorem Refines.absent (h : Refines m map) {key : κ} (hfind : find map key = none) :
    Absent m.equal_func key (hashmap.bindings m) := fun b hb => by
  rw [h.equal_func]
  exact find_eq_none.mp hfind b (h.bindings.mem_iff.mp hb)

theorem Refines.present (h : Refines m map) {key : κ} {b : κ × β} (hfind : find map key = some b) :
    b ∈ hashmap.bindings m ∧ m.equal_func key b.1 := by
  obtain ⟨before, after, hsplit, hequal, -⟩ := find_split hfind
  refine ⟨h.bindings.mem_iff.mpr ?_, h.equal_func ▸ hequal⟩
  rw [hsplit]
  exact List.mem_append_right _ List.mem_cons_self

theorem Refines.equivalence (h : Refines m map) : Equivalence fun k k' => equal k k' = true := by
  obtain ⟨hsound, rfl, -⟩ := h
  exact ⟨hsound.lawful.refl, hsound.lawful.symm, hsound.lawful.trans⟩

theorem Refines.get (h : Refines m map) (key : κ) :
    hashmap.hashmap_get m key = some (find map key) := by
  cases hfind : find map key with
  | none => exact hashmap_get_absent h.sound (h.absent hfind)
  | some b =>
    obtain ⟨hmem, hequal⟩ := h.present hfind
    exact hashmap_get_present h.sound hmem hequal

theorem Refines.put (h : Refines m map) (key : κ) (value : β) (fuel : Nat) :
    ∃ m', hashmap.hashmap_put (fuel + 2) m key value = some ((put map key value).1, m') ∧
      Refines m' (put map key value).2 := by
  cases hfind : find map key with
  | none =>
    obtain ⟨m', hput, hadded⟩ := hashmap_put_absent h.sound (h.absent hfind) value fuel
    rw [put_absent hfind]
    exact ⟨m', hput, hadded.sound, hadded.equal_func.trans h.equal_func,
      hadded.bindings.trans (h.bindings.cons _)⟩
  | some b =>
    obtain ⟨hmem, hequal⟩ := h.present hfind
    obtain ⟨m', rest, hput, hsound, hold, hnew, -, hfunc⟩ :=
      hashmap_put_present h.sound hmem hequal value (fuel + 1)
    obtain ⟨rest', hold', hnew'⟩ := revalue_present h.equivalence hfind value
    rw [put_present hfind]
    refine ⟨m', hput, hsound, hfunc.trans h.equal_func, hnew.trans ?_⟩
    refine List.Perm.trans (List.Perm.cons _ ?_) hnew'.symm
    exact (hold.symm.trans (h.bindings.trans hold')).cons_inv

theorem Refines.put_if_absent (h : Refines m map) (key : κ) (value : β) (fuel : Nat) :
    ∃ m', hashmap.hashmap_put_if_absent (fuel + 1) m key value =
        some ((put_if_absent map key value).1, m') ∧
      Refines m' (put_if_absent map key value).2 := by
  cases hfind : find map key with
  | none =>
    obtain ⟨m', hput, hadded⟩ := hashmap_put_if_absent_spec h.sound (h.absent hfind) value fuel
    rw [put_if_absent_absent hfind]
    exact ⟨m', hput, hadded.sound, hadded.equal_func.trans h.equal_func,
      hadded.bindings.trans (h.bindings.cons _)⟩
  | some b =>
    obtain ⟨hmem, hequal⟩ := h.present hfind
    rw [put_if_absent_present hfind]
    exact ⟨m, hashmap_put_if_absent_present h.sound hmem hequal value (fuel + 1), h⟩

theorem Refines.remove (h : Refines m map) (key : κ) :
    ∃ m', hashmap.hashmap_remove m key = some ((remove map key).1, m') ∧
      Refines m' (remove map key).2 := by
  cases hfind : find map key with
  | none =>
    rw [remove_absent hfind]
    exact ⟨m, hashmap_remove_absent h.sound (h.absent hfind), h⟩
  | some b =>
    obtain ⟨hmem, hequal⟩ := h.present hfind
    obtain ⟨m', hremove, hsound, hperm, -, hfunc⟩ :=
      hashmap_remove_present h.sound hmem hequal
    obtain ⟨hremoved, hperm'⟩ := remove_present hfind
    rw [hremoved]
    exact ⟨m', hremove, hsound, hfunc.trans h.equal_func,
      (hperm.symm.trans (h.bindings.trans hperm')).cons_inv⟩

theorem Refines.clear (h : Refines m map) :
    Refines (hashmap.hashmap_clear m) (empty : FiniteMap κ β equal) := by
  obtain ⟨htidy, hempty⟩ := tidy_clear h.sound.tidy
  have hsame : (hashmap.hashmap_clear m).hash_func = m.hash_func ∧
      (hashmap.hashmap_clear m).equal_func = m.equal_func := by
    unfold hashmap.hashmap_clear
    split <;> exact ⟨rfl, rfl⟩
  refine ⟨htidy.sound (by rw [hsame.1, hsame.2]; exact h.sound.lawful) fun {i _ k v _ _} hi => ?_,
    hsame.2.trans h.equal_func, hempty ▸ List.Perm.refl _⟩
  have hmem := mem_bindings.mpr ⟨i, hi⟩
  rw [hempty] at hmem
  cases hmem

/-! ## What the table with pointers does -/

/-- The table stands for the map. -/
def Stands (table : hashmap_t κ β) (map : FiniteMap κ β equal) : Prop :=
  ∃ m, Mirrors table m ∧ Refines m map

variable {table : hashmap_t κ β}

theorem Stands.equivalence (h : Stands table map) :
    Equivalence fun k k' => equal k k' = true := by
  obtain ⟨m, -, hrefines⟩ := h
  exact hrefines.equivalence

theorem Stands.put (h : Stands table map) (key : κ) (value : β) (fuel : Nat) :
    ∃ table', hashmap_put (fuel + 2) table key value = some ((finite_map.put map key value).1, table') ∧
      Stands table' (finite_map.put map key value).2 := by
  obtain ⟨m, hmirrors, hrefines⟩ := h
  obtain ⟨old, table', m', hput, hput', hmirrors'⟩ :=
    mirror_put hmirrors hrefines.sound.tidy key value fuel
  obtain ⟨m'', hput'', hrefines'⟩ := hrefines.put key value fuel
  obtain ⟨rfl, rfl⟩ := Prod.mk.inj (Option.some.inj (hput'.symm.trans hput''))
  exact ⟨table', hput, m', hmirrors', hrefines'⟩

theorem Stands.put_if_absent (h : Stands table map) (key : κ) (value : β) (fuel : Nat) :
    ∃ table', hashmap_put_if_absent (fuel + 1) table key value =
        some ((finite_map.put_if_absent map key value).1, table') ∧
      Stands table' (finite_map.put_if_absent map key value).2 := by
  obtain ⟨m, hmirrors, hrefines⟩ := h
  obtain ⟨added, table', m', hput, hput', hmirrors'⟩ :=
    mirror_put_if_absent hmirrors hrefines.sound.tidy key value fuel
  obtain ⟨m'', hput'', hrefines'⟩ := hrefines.put_if_absent key value fuel
  obtain ⟨rfl, rfl⟩ := Prod.mk.inj (Option.some.inj (hput'.symm.trans hput''))
  exact ⟨table', hput, m', hmirrors', hrefines'⟩

theorem Stands.get (h : Stands table map) (key : κ) :
    hashmap_get table key = some (find map key) := by
  obtain ⟨m, hmirrors, hrefines⟩ := h
  exact (mirror_get hmirrors hrefines.sound.tidy key).trans (hrefines.get key)

theorem Stands.remove (h : Stands table map) (key : κ) :
    ∃ table', hashmap_remove table key = some ((finite_map.remove map key).1, table') ∧
      Stands table' (finite_map.remove map key).2 := by
  obtain ⟨m, hmirrors, hrefines⟩ := h
  obtain ⟨removed, table', m', hremove, hremove', hmirrors'⟩ :=
    mirror_remove hmirrors hrefines.sound.tidy key
  obtain ⟨m'', hremove'', hrefines'⟩ := hrefines.remove key
  obtain ⟨rfl, rfl⟩ := Prod.mk.inj (Option.some.inj (hremove'.symm.trans hremove''))
  exact ⟨table', hremove, m', hmirrors', hrefines'⟩

theorem Stands.clear (h : Stands table map) :
    Stands (hashmap_clear table) (empty : FiniteMap κ β equal) := by
  obtain ⟨m, hmirrors, hrefines⟩ := h
  exact ⟨_, mirror_clear hmirrors hrefines.sound.tidy, hrefines.clear⟩

theorem call_stands (h : Stands table map) (fuel : Nat) (call : operation κ β) :
    ∃ table', hashmap_call (fuel + 2) table call = some ((map_call map call).1, table') ∧
      Stands table' (map_call map call).2 := by
  cases call with
  | put key value =>
    obtain ⟨table', hput, hstands⟩ := h.put key value fuel
    refine ⟨table', ?_, hstands⟩
    unfold hashmap_call
    simp only [hput, Option.bind_eq_bind, Option.bind_some]
    rfl
  | put_if_absent key value =>
    obtain ⟨table', hput, hstands⟩ := h.put_if_absent key value (fuel + 1)
    refine ⟨table', ?_, hstands⟩
    unfold hashmap_call
    simp only [hput, Option.bind_eq_bind, Option.bind_some]
    rfl
  | get key =>
    refine ⟨table, ?_, h⟩
    unfold hashmap_call
    simp only [h.get, Option.bind_eq_bind, Option.bind_some]
    rfl
  | remove key =>
    obtain ⟨table', hremove, hstands⟩ := h.remove key
    refine ⟨table', ?_, hstands⟩
    unfold hashmap_call
    simp only [hremove, Option.bind_eq_bind, Option.bind_some]
    rfl
  | clear => exact ⟨_, rfl, h.clear⟩

theorem Stands.size (h : Stands table map) : table.size = finite_map.size map := by
  obtain ⟨m, hmirrors, hrefines⟩ := h
  exact hmirrors.size.trans hrefines.size

theorem run_stands (h : Stands table map) (fuel : Nat) (calls : List (operation κ β)) :
    ∃ table', hashmap_run (fuel + 2) calls table = some ((map_run calls map).1, table') ∧
      Stands table' (map_run calls map).2 := by
  induction calls generalizing table map with
  | nil => exact ⟨table, rfl, h⟩
  | cons call calls ih =>
    obtain ⟨table₁, hcall, hstands⟩ := call_stands h fuel call
    obtain ⟨table', hrun, hstands'⟩ := ih hstands
    refine ⟨table', ?_, hstands'⟩
    unfold hashmap_run
    simp only [hcall, hrun, hstands.size, Option.bind_eq_bind, Option.bind_some]
    rfl

/-- What is seen of a table: its size, its bindings in a loop over it, the same bindings after
it has grown, and an unused entry once room is made for a new key. -/
structure Shows (table : hashmap_t κ β) (map : FiniteMap κ β equal) : Prop where
  size : table.size = finite_map.size map
  visits : ∃ visited, hashmap_iterate table table.size (hashmap_begin table) = some visited ∧
    visited.Perm map.bindings
  grows : ∀ fuel, ∃ grown visited, hashmap_grow (hashmap_put (fuel + 1)) table = some grown ∧
    hashmap_iterate grown grown.size (hashmap_begin grown) = some visited ∧
    visited.Perm map.bindings
  room : ∀ fuel, ∃ ready, hashmap_ensure (hashmap_put (fuel + 1)) (fuel + 1) table = some ready ∧
    ∃ entry ∈ ready.entries, entry.used = false

theorem Stands.shows (h : Stands table map) : Shows table map := by
  have hsize := h.size
  obtain ⟨m, hmirrors, hrefines⟩ := h
  have htidy := hrefines.sound.tidy
  constructor
  case size => exact hsize
  case visits => exact ⟨_, mirror_iterate hmirrors htidy hmirrors.size.ge, hrefines.bindings⟩
  case grows =>
    intro fuel
    obtain ⟨grown, m', hgrow, hgrow', hmirrors'⟩ := mirror_grow hmirrors htidy fuel
    obtain ⟨m'', hgrow'', hsound, hperm, -⟩ := hashmap_grow_spec hrefines.sound fuel
    obtain rfl := Option.some.inj (hgrow'.symm.trans hgrow'')
    exact ⟨grown, _, hgrow, mirror_iterate hmirrors' hsound.tidy hmirrors'.size.ge,
      hperm.trans hrefines.bindings⟩
  case room =>
    intro fuel
    obtain ⟨ready, m', hensure, hensure', hmirrors'⟩ := mirror_ensure hmirrors htidy fuel
    obtain ⟨m'', hensure'', htidy', -, hroom⟩ := tidy_ensure htidy fuel
    obtain rfl := Option.some.inj (hensure'.symm.trans hensure'')
    have hle := htidy'.bucket_num_le
    obtain ⟨j, -, hj, hfree⟩ := probe_finds htidy'.entries
      (by rw [← htidy'.size]; exact hroom.trans_le hle) (htidy'.pos.trans_le hle)
    obtain ⟨entry, hentry, hunused⟩ := hmirrors'.free (htidy'.entries.symm ▸ hj) hfree
    exact ⟨ready, hensure, entry, List.mem_of_getElem? hentry, hunused⟩

end

theorem init_stands {hash_func : κ → Nat} {equal_func : κ → κ → Bool}
    (hlawful : Lawful hash_func equal_func) {capacity : Nat} {factor : factor_t}
    (hfactor : 0 < factor.value ∧ factor.value ≤ 1) (hfits : factor.times capacity ≤ capacity)
    (hfloor : 1 ≤ (factor.times capacity).floor) :
    ∃ table, hashmap_init capacity factor hash_func equal_func = some table ∧
      Stands table (empty : FiniteMap κ β equal_func) := by
  obtain ⟨hsound, hempty⟩ := sound_empty (β := β)
    ⟨0, factor, hash_func, equal_func, 0, 0, [], []⟩ hlawful hfits
    (by change 0 < (factor.times capacity).floor.toNat; omega)
  have hmirrors := mirror_alloc (κ := κ) (β := β)
    ⟨0, factor, hash_func, equal_func, 0, 0, [], []⟩
    ⟨0, factor, hash_func, equal_func, 0, 0, [], []⟩ ⟨rfl, rfl, rfl⟩ capacity
  exact ⟨_, if_pos hfactor, _, hmirrors, hsound, rfl, hempty ▸ List.Perm.refl _⟩

theorem init1_stands {hash_func : κ → Nat} {equal_func : κ → κ → Bool}
    (hlawful : Lawful hash_func equal_func) {capacity : Nat} (hcap : 2 ≤ capacity) :
    ∃ table, hashmap_init1 capacity hash_func equal_func = some table ∧
      Stands table (empty : FiniteMap κ β equal_func) := by
  apply init_stands hlawful
  · change 0 < (3 / 4 : ℚ) ∧ (3 / 4 : ℚ) ≤ 1
    norm_num
  · exact three_quarters_fit capacity
  · exact three_quarters.mpr hcap

/-- Over any calls, from a table with at least one bucket, be its factor a rational number or a
double whose products are rounded. -/
theorem hashmap_is_a_finite_map {hash_func : κ → Nat} {equal_func : κ → κ → Bool}
    (hlawful : Lawful hash_func equal_func) {capacity : Nat} {factor : factor_t} {value : ℚ}
    (hvalue : 0 < value ∧ value ≤ 1)
    (hfactor : factor = exact_factor value ∨ factor = double_factor value ∧ capacity ≤ 2 ^ 53)
    (hfloor : 1 ≤ (factor.times capacity).floor) (fuel : Nat) (calls : List (operation κ β)) :
    ∃ table table', hashmap_init capacity factor hash_func equal_func = some table ∧
      hashmap_run (fuel + 2) calls table =
        some ((map_run calls (empty : FiniteMap κ β equal_func)).1, table') ∧
      Shows table' (map_run calls (empty : FiniteMap κ β equal_func)).2 := by
  obtain ⟨hpos, hone, hfits⟩ := fits_of_factor hvalue hfactor
  obtain ⟨table, hinit, hstands⟩ := init_stands (β := β) hlawful ⟨hpos, hone⟩ hfits hfloor
  obtain ⟨table', hrun, hstands'⟩ := run_stands hstands fuel calls
  exact ⟨table, table', hinit, hrun, hstands'.shows⟩

/-- Two keys in one bucket, a value replaced and a key removed. -/
theorem hashmap_is_a_finite_map_two : ∃ table table',
    hashmap_init 3 (double_factor (3 / 4)) naive_hash_func naive_equal_func = some table ∧
      hashmap_run 2 [.put 1 10, .put 3 30, .put 1 11, .remove 3, .get 1] table =
        some ([(.replaced none, 1), (.replaced none, 2), (.replaced (some 10), 2),
          (.removed (some (3, 30)), 1), (.found (some (1, 11)), 1)], table') := by
  obtain ⟨table, table', hinit, hrun, -⟩ := hashmap_is_a_finite_map (β := Nat) lawful_naive
    (by norm_num : (0 : ℚ) < 3 / 4 ∧ (3 / 4 : ℚ) ≤ 1) (Or.inr ⟨rfl, by norm_num⟩)
    (three_quarters.mpr (by norm_num : 2 ≤ 3)) 0
    [.put 1 10, .put 3 30, .put 1 11, .remove 3, .get 1]
  exact ⟨table, table', hinit, hrun⟩

end nettle.linked
