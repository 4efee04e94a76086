-- Finite partial maps up to an equivalence of keys: bindings in any order,
-- no two of them with equal keys.
import Mathlib

structure FiniteMap (K V : Type*) (equal : K → K → Bool) where
  bindings : List (K × V)
  apart : bindings.Pairwise fun b b' => ¬equal b.1 b'.1

namespace finite_map

variable {K V : Type*} {equal : K → K → Bool}

def empty : FiniteMap K V equal := ⟨[], List.Pairwise.nil⟩

def size (map : FiniteMap K V equal) : Nat := map.bindings.length

def find (map : FiniteMap K V equal) (key : K) : Option (K × V) :=
  map.bindings.find? fun b => equal key b.1

/-- A key that is there keeps its place, and itself; only the value is new. -/
def revalue (map : FiniteMap K V equal) (key : K) (value : V) : FiniteMap K V equal where
  bindings := map.bindings.map fun b => if equal key b.1 then (b.1, value) else b
  apart := by
    refine List.pairwise_map.mpr (map.apart.imp fun {b b'} h => ?_)
    have hkey : ∀ c : K × V, (if equal key c.1 then (c.1, value) else c).1 = c.1 := fun c => by
      split <;> rfl
    rwa [hkey, hkey]

/-- A key that is not there is added. -/
def add (map : FiniteMap K V equal) (key : K) (value : V) (h : find map key = none) :
    FiniteMap K V equal where
  bindings := (key, value) :: map.bindings
  apart := List.pairwise_cons.mpr ⟨List.find?_eq_none.mp h, map.apart⟩

/-- The value replaced, if any. -/
def put (map : FiniteMap K V equal) (key : K) (value : V) : Option V × FiniteMap K V equal :=
  match h : find map key with
  | some (_, old) => (some old, revalue map key value)
  | none => (none, add map key value h)

def put_if_absent (map : FiniteMap K V equal) (key : K) (value : V) :
    Bool × FiniteMap K V equal :=
  match h : find map key with
  | some _ => (false, map)
  | none => (true, add map key value h)

/-- The binding removed, if any. -/
def remove (map : FiniteMap K V equal) (key : K) :
    Option (K × V) × FiniteMap K V equal :=
  (find map key, ⟨map.bindings.eraseP fun b => equal key b.1,
    map.apart.sublist List.eraseP_sublist⟩)

section

variable {map : FiniteMap K V equal} {key : K}

theorem find_eq_none : find map key = none ↔ ∀ b ∈ map.bindings, ¬equal key b.1 :=
  List.find?_eq_none

theorem find_split {b : K × V} (h : find map key = some b) : ∃ before after,
    map.bindings = before ++ b :: after ∧ equal key b.1 ∧ ∀ c ∈ before, ¬equal key c.1 := by
  obtain ⟨hb, before, after, hsplit, hbefore⟩ := List.find?_eq_some_iff_append.mp h
  exact ⟨before, after, hsplit, hb, fun c hc => by simpa using hbefore c hc⟩

/-- Two bindings with keys equal to one key are the same. -/
theorem find_of_mem (hequiv : Equivalence fun k k' => equal k k' = true) {b : K × V}
    (hb : b ∈ map.bindings) (hequal : equal key b.1) : find map key = some b := by
  cases hfind : find map key with
  | none => exact absurd hequal (find_eq_none.mp hfind b hb)
  | some c =>
    obtain ⟨before, after, hsplit, hc, hbefore⟩ := find_split hfind
    have hapart := map.apart
    rw [hsplit] at hb hapart
    rcases List.mem_append.mp hb with hb | hb
    · exact absurd hequal (hbefore b hb)
    · rcases List.mem_cons.mp hb with rfl | hb
      · rfl
      · exact absurd (hequiv.trans (hequiv.symm hc) hequal)
          ((List.pairwise_cons.mp (List.pairwise_append.mp hapart).2.1).1 b hb)

theorem put_absent (h : find map key = none) (value : V) :
    put map key value = (none, add map key value h) := by
  unfold put
  split
  · next heq =>
    rw [h] at heq
    cases heq
  · rfl

theorem put_present {k : K} {v : V} (h : find map key = some (k, v)) (value : V) :
    put map key value = (some v, revalue map key value) := by
  unfold put
  split
  · next heq =>
    rw [h] at heq
    cases heq
    rfl
  · next heq =>
    rw [h] at heq
    cases heq

/-- What a key finds after a put. -/
theorem value_put (hequiv : Equivalence fun k k' => equal k k' = true) (map : FiniteMap K V equal)
    (k key : K) (value : V) : (find (put map k value).2 key).map Prod.snd =
      if equal key k then some value else (find map key).map Prod.snd := by
  cases hfind : find map k with
  | none =>
    rw [put_absent hfind]
    change (List.find? _ ((k, value) :: map.bindings)).map Prod.snd = _
    rw [List.find?_cons]
    cases equal key k with
    | true => rfl
    | false => rfl
  | some b =>
    rw [put_present hfind]
    have hrevalue : find (revalue map k value) key =
        (find map key).map fun b => if equal k b.1 then (b.1, value) else b := by
      unfold find revalue
      rw [List.find?_map]
      congr 2
      funext c
      simp only [Function.comp_apply]
      split <;> rfl
    rw [hrevalue]
    obtain ⟨before, after, hsplit, hb, -⟩ := find_split hfind
    by_cases hkey : equal key k = true
    · have hmem : b ∈ map.bindings := hsplit ▸ List.mem_append_right _ List.mem_cons_self
      rw [find_of_mem hequiv hmem (hequiv.trans hkey hb), if_pos hkey, Option.map_some, if_pos hb]
      rfl
    · rw [if_neg hkey]
      cases hfind' : find map key with
      | none => rfl
      | some c =>
        obtain ⟨_, _, -, hc, -⟩ := find_split hfind'
        rw [Option.map_some, if_neg fun heq => hkey (hequiv.trans hc (hequiv.symm heq))]

theorem put_if_absent_absent (h : find map key = none) (value : V) :
    put_if_absent map key value = (true, add map key value h) := by
  unfold put_if_absent
  split
  · next heq =>
    rw [h] at heq
    cases heq
  · rfl

theorem put_if_absent_present {b : K × V} (h : find map key = some b) (value : V) :
    put_if_absent map key value = (false, map) := by
  unfold put_if_absent
  split
  · rfl
  · next heq =>
    rw [h] at heq
    cases heq

theorem remove_absent (h : find map key = none) : remove map key = (none, map) := by
  unfold remove
  congr 1
  · cases map
    simp only [FiniteMap.mk.injEq]
    exact List.eraseP_of_forall_not (find_eq_none.mp h)

/-- Without the binding of a key, the rest is left. -/
theorem remove_present {b : K × V} (h : find map key = some b) :
    (remove map key).1 = some b ∧ map.bindings.Perm (b :: (remove map key).2.bindings) := by
  refine ⟨h, ?_⟩
  obtain ⟨before, after, hsplit, hb, hbefore⟩ := find_split h
  have herase : (remove map key).2.bindings = before ++ after := by
    unfold remove
    simp only [hsplit]
    rw [List.eraseP_append_right _ hbefore]
    exact congrArg (before ++ ·) (List.eraseP_cons_of_pos hb)
  rw [herase, hsplit]
  exact List.perm_middle

/-- A new value touches one binding only. -/
theorem revalue_present (hequiv : Equivalence fun k k' => equal k k' = true) {b : K × V}
    (h : find map key = some b) (value : V) : ∃ rest, map.bindings.Perm (b :: rest) ∧
      (revalue map key value).bindings.Perm ((b.1, value) :: rest) := by
  obtain ⟨before, after, hsplit, hb, hbefore⟩ := find_split h
  refine ⟨before ++ after, hsplit ▸ List.perm_middle, ?_⟩
  have hapart := map.apart
  rw [hsplit] at hapart
  have hafter : ∀ c ∈ after, ¬equal key c.1 := fun c hc heq =>
    (List.pairwise_cons.mp (List.pairwise_append.mp hapart).2.1).1 c hc
      (hequiv.trans (hequiv.symm hb) heq)
  have hkeep : ∀ l : List (K × V), (∀ c ∈ l, ¬equal key c.1) →
      l.map (fun c => if equal key c.1 then (c.1, value) else c) = l := fun l hl =>
    (List.map_congr_left fun c hc => if_neg (hl c hc)).trans (List.map_id l)
  have hnew : (revalue map key value).bindings = before ++ (b.1, value) :: after := by
    unfold revalue
    simp only [hsplit]
    rw [List.map_append, List.map_cons, hkeep before hbefore, hkeep after hafter, if_pos hb]
  rw [hnew]
  exact List.perm_middle

end

end finite_map
