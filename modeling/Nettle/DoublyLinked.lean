-- Doubly linked lists in a heap of cells: a segment is the list of the cells
-- between two pointers, and changes to the links of its ends or outside of
-- it leave the rest of it in place.
import Mathlib

namespace doubly_linked

variable {P : Type*}

/-- From the pointer `first` on, the cells of the list follow each other up to `stop`; the first
one points back to `before`, and `last` is the pointer to the last one, or `before` if there is
none. -/
def Segment (prev next : P → Option P) : Option P → Option P → List P → Option P → Option P → Prop
  | before, first, [], last, stop => first = stop ∧ last = before
  | before, first, c :: cells, last, stop =>
    first = some c ∧ prev c = before ∧ Segment prev next (some c) (next c) cells last stop

section

variable {prev next prev' next' : P → Option P} {before first last stop : Option P}
  {cells : List P}

@[simp] theorem segment_nil :
    Segment prev next before first [] last stop ↔ first = stop ∧ last = before := Iff.rfl

@[simp] theorem segment_cons {c : P} :
    Segment prev next before first (c :: cells) last stop ↔
      first = some c ∧ prev c = before ∧ Segment prev next (some c) (next c) cells last stop :=
  Iff.rfl

/-- Only the links of its own cells matter. -/
theorem Segment.congr (h : Segment prev next before first cells last stop)
    (hprev : ∀ c ∈ cells, prev' c = prev c) (hnext : ∀ c ∈ cells, next' c = next c) :
    Segment prev' next' before first cells last stop := by
  induction cells generalizing before first with
  | nil => exact h
  | cons c cells ih =>
    obtain ⟨hfirst, hback, hrest⟩ := h
    refine ⟨hfirst, (hprev c List.mem_cons_self).trans hback, ?_⟩
    rw [hnext c List.mem_cons_self]
    exact ih hrest (fun d hd => hprev d (List.mem_cons_of_mem c hd))
      fun d hd => hnext d (List.mem_cons_of_mem c hd)

/-- Two segments, one after the other. -/
theorem segment_append {cells₁ cells₂ : List P} :
    Segment prev next before first (cells₁ ++ cells₂) last stop ↔ ∃ middle_last middle_first,
      Segment prev next before first cells₁ middle_last middle_first ∧
        Segment prev next middle_last middle_first cells₂ last stop := by
  induction cells₁ generalizing before first with
  | nil =>
    refine ⟨fun h => ⟨before, first, ⟨rfl, rfl⟩, h⟩, ?_⟩
    rintro ⟨_, _, ⟨rfl, rfl⟩, h⟩
    exact h
  | cons c cells₁ ih =>
    rw [List.cons_append, segment_cons, ih]
    refine ⟨?_, ?_⟩
    · rintro ⟨hfirst, hback, q, m, h₁, h₂⟩
      exact ⟨q, m, ⟨hfirst, hback, h₁⟩, h₂⟩
    · rintro ⟨q, m, ⟨hfirst, hback, h₁⟩, h₂⟩
      exact ⟨hfirst, hback, q, m, h₁, h₂⟩

theorem Segment.last_eq (h : Segment prev next before first cells last stop) :
    last = if cells = [] then before else cells.getLast? := by
  induction cells generalizing before first with
  | nil => exact h.2
  | cons c cells ih =>
    rw [ih h.2.2]
    cases cells with
    | nil => rfl
    | cons d cells => simp

theorem Segment.first_eq (h : Segment prev next before first cells last stop) :
    first = if cells = [] then stop else cells.head? := by
  cases cells with
  | nil => exact h.1
  | cons c cells => exact h.1

theorem Segment.mem_of_first (h : Segment prev next before first cells last stop) {d : P}
    (hd : first = some d) (hstop : stop ≠ some d) : d ∈ cells := by
  cases cells with
  | nil => exact absurd (h.1.symm.trans hd) hstop
  | cons c cells =>
    obtain rfl := Option.some.inj (h.1.symm.trans hd)
    exact List.mem_cons_self

/-- A cell is linked to those next to it. -/
theorem Segment.neighbours {cells₁ cells₂ : List P} {c : P}
    (h : Segment prev next before first (cells₁ ++ c :: cells₂) last stop) :
    prev c = (if cells₁ = [] then before else cells₁.getLast?) ∧
      next c = if cells₂ = [] then stop else cells₂.head? := by
  obtain ⟨q, m, h₁, -, hq, h₂⟩ := segment_append.mp h
  exact ⟨hq.trans h₁.last_eq, h₂.first_eq⟩

/-! ## Changes at the ends -/

variable [DecidableEq P]

/-- The first cell points back to another pointer. -/
theorem Segment.set_before (h : Segment prev next before first cells last stop)
    (hnodup : cells.Nodup) (before' : Option P)
    (hprev : ∀ c ∈ cells, prev' c = if first = some c then before' else prev c)
    (hnext : ∀ c ∈ cells, next' c = next c) :
    Segment prev' next' before' first cells (if cells = [] then before' else last) stop := by
  cases cells with
  | nil => exact ⟨h.1, rfl⟩
  | cons c cells =>
    obtain ⟨rfl, hback, hrest⟩ := h
    have hc := hprev c List.mem_cons_self
    rw [if_pos rfl] at hc
    refine ⟨rfl, hc, ?_⟩
    rw [hnext c List.mem_cons_self, if_neg (List.cons_ne_nil c cells)]
    refine hrest.congr (fun d hd => ?_) fun d hd => hnext d (List.mem_cons_of_mem c hd)
    have hne : c ≠ d := fun heq => (List.nodup_cons.mp hnodup).1 (heq ▸ hd)
    rw [hprev d (List.mem_cons_of_mem c hd), if_neg fun heq => hne (Option.some.inj heq)]

/-- The last cell leads to another pointer. -/
theorem Segment.set_stop (h : Segment prev next before first cells last stop)
    (hnodup : cells.Nodup) (stop' : Option P) (hprev : ∀ c ∈ cells, prev' c = prev c)
    (hnext : ∀ c ∈ cells, next' c = if last = some c then stop' else next c) :
    Segment prev' next' before (if cells = [] then stop' else first) cells last stop' := by
  induction cells generalizing before first with
  | nil => exact ⟨rfl, h.2⟩
  | cons c cells ih =>
    obtain ⟨rfl, hback, hrest⟩ := h
    obtain ⟨hnot, hnodup'⟩ := List.nodup_cons.mp hnodup
    refine ⟨if_neg (List.cons_ne_nil c cells), (hprev c List.mem_cons_self).trans hback, ?_⟩
    have hnext' : next' c = if cells = [] then stop' else next c := by
      rw [hnext c List.mem_cons_self]
      have hlast := hrest.last_eq
      by_cases hnil : cells = []
      · rw [if_pos hnil] at hlast ⊢
        exact if_pos hlast
      · rw [if_neg hnil] at hlast ⊢
        refine if_neg fun heq => hnot ?_
        rw [hlast] at heq
        exact List.mem_of_getLast? heq
    rw [hnext']
    exact ih hrest hnodup' (fun d hd => hprev d (List.mem_cons_of_mem c hd))
      fun d hd => hnext d (List.mem_cons_of_mem c hd)

/-- A cell is taken out: its neighbours, or the pointers to the ends, are linked past it. -/
theorem Segment.remove {cells₁ cells₂ : List P} {c : P} (prev' next' : P → Option P)
    (h : Segment prev next before first (cells₁ ++ c :: cells₂) last stop)
    (hnodup : (cells₁ ++ c :: cells₂).Nodup)
    (hprev : ∀ d ∈ cells₁ ++ cells₂, prev' d = if next c = some d then prev c else prev d)
    (hnext : ∀ d ∈ cells₁ ++ cells₂, next' d = if prev c = some d then next c else next d)
    (hstop : ∀ d ∈ cells₁, stop ≠ some d) (hbefore : ∀ d ∈ cells₂, before ≠ some d) :
    Segment prev' next' before (if cells₁ = [] then next c else first) (cells₁ ++ cells₂)
      (if cells₂ = [] then prev c else last) stop := by
  obtain ⟨hlast, hfirst⟩ := h.neighbours
  obtain ⟨q, m, h₁, rfl, hq, h₂⟩ := segment_append.mp h
  obtain ⟨hnodup₁, hnodup₂, hdisjoint⟩ := List.nodup_append.mp hnodup
  obtain ⟨hnot, hnodup₂⟩ := List.nodup_cons.mp hnodup₂
  subst hq
  refine segment_append.mpr ⟨prev c, next c, ?_, ?_⟩
  · refine h₁.set_stop hnodup₁ (next c) (fun d hd => ?_) fun d hd =>
      hnext d (List.mem_append_left _ hd)
    rw [hprev d (List.mem_append_left _ hd), if_neg]
    intro heq
    rw [hfirst] at heq
    split at heq
    · exact hstop d hd heq
    · exact hdisjoint d hd d (List.mem_cons_of_mem c (List.mem_of_head? heq)) rfl
  · refine h₂.set_before hnodup₂ (prev c) (fun d hd => hprev d (List.mem_append_right _ hd))
      fun d hd => ?_
    rw [hnext d (List.mem_append_right _ hd), if_neg]
    intro heq
    rw [hlast] at heq
    split at heq
    · exact hbefore d hd heq
    · exact hdisjoint d (List.mem_of_getLast? heq) d (List.mem_cons_of_mem c hd) rfl

/-- A new cell in front. -/
theorem Segment.push_front (h : Segment prev next before first cells last stop)
    (hnodup : cells.Nodup) {c : P} (hback : prev' c = before) (hfirst : next' c = first)
    (hprev : ∀ d ∈ cells, prev' d = if first = some d then some c else prev d)
    (hnext : ∀ d ∈ cells, next' d = next d) :
    Segment prev' next' before (some c) (c :: cells) (if cells = [] then some c else last) stop :=
  ⟨rfl, hback, hfirst ▸ h.set_before hnodup (some c) hprev hnext⟩

/-- A new cell between two segments. -/
theorem Segment.insert {cells₁ cells₂ : List P} {middle_last middle_first : Option P} {c : P}
    (prev' next' : P → Option P)
    (h₁ : Segment prev next before first cells₁ middle_last middle_first)
    (h₂ : Segment prev next middle_last middle_first cells₂ last stop)
    (hnodup : (cells₁ ++ cells₂).Nodup) (hback : prev' c = middle_last)
    (hfront : next' c = middle_first)
    (hprev : ∀ d ∈ cells₁ ++ cells₂, prev' d = if middle_first = some d then some c else prev d)
    (hnext : ∀ d ∈ cells₁ ++ cells₂, next' d = if middle_last = some d then some c else next d)
    (hstop : ∀ d ∈ cells₁, stop ≠ some d) (hbefore : ∀ d ∈ cells₂, before ≠ some d) :
    Segment prev' next' before (if cells₁ = [] then some c else first) (cells₁ ++ c :: cells₂)
      (if cells₂ = [] then some c else last) stop := by
  obtain ⟨hnodup₁, hnodup₂, hdisjoint⟩ := List.nodup_append.mp hnodup
  have hlast := h₁.last_eq
  have hfirst := h₂.first_eq
  refine segment_append.mpr ⟨middle_last, some c, ?_, ?_⟩
  · refine h₁.set_stop hnodup₁ (some c) (fun d hd => ?_) fun d hd =>
      hnext d (List.mem_append_left _ hd)
    rw [hprev d (List.mem_append_left _ hd), if_neg]
    intro heq
    rw [hfirst] at heq
    split at heq
    · exact hstop d hd heq
    · exact hdisjoint d hd d (List.mem_of_head? heq) rfl
  · refine h₂.push_front hnodup₂ hback hfront
      (fun d hd => hprev d (List.mem_append_right _ hd)) fun d hd => ?_
    rw [hnext d (List.mem_append_right _ hd), if_neg]
    intro heq
    rw [hlast] at heq
    split at heq
    · exact hbefore d hd heq
    · exact hdisjoint d (List.mem_of_getLast? heq) d hd rfl

end

end doubly_linked
