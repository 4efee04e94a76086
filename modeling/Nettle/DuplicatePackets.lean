-- The laws of the deduplication: a packet is held back only for one of the
-- same block that was just delivered, and is held back for it as long as not
-- too many other blocks came between.
import Nettle.LinkedLrumapLaws
import Nettle.NtDupFec

open nettle.hashmap nettle.linked nettle.nt_fec

namespace nettle.nt_dup_fec

/-! ## What the cache does to its list -/

section

variable {bs : List (Nat × Int)} {block_id : Nat}

theorem find_id {b : Nat × Int} (h : recency.find naive_equal_func bs block_id = some b) :
    b.1 = block_id := by
  obtain ⟨_, _, _, hequal, _⟩ := recency.find_split h
  rw [naive_equal_func, beq_iff_eq] at hequal
  exact hequal.symm

theorem find_none_iff :
    recency.find naive_equal_func bs block_id = none ↔ block_id ∉ bs.map Prod.fst := by
  rw [recency.find_eq_none, List.mem_map, not_exists]
  refine forall_congr' fun b => ?_
  rw [naive_equal_func, beq_iff_eq, not_and]
  exact ⟨fun h hb heq => h hb heq.symm, fun h hb heq => h hb heq.symm⟩

theorem nodup_ids (h : bs.Pairwise fun b b' => ¬naive_equal_func b.1 b'.1) :
    (bs.map Prod.fst).Nodup := by
  rw [List.Nodup, List.pairwise_map]
  exact h.imp fun hne heq => hne (by simp [naive_equal_func, heq])

/-- The other ids stay in place. -/
theorem without_id {b : Nat × Int} (hnodup : (bs.map Prod.fst).Nodup)
    (h : recency.find naive_equal_func bs block_id = some b) :
    (recency.without naive_equal_func bs block_id).map Prod.fst = (bs.map Prod.fst).erase block_id ∧
      block_id ∉ (recency.without naive_equal_func bs block_id).map Prod.fst ∧
      bs.Perm (b :: recency.without naive_equal_func bs block_id) := by
  obtain rfl := find_id h
  obtain ⟨newer, older, rfl, -, hwithout⟩ := recency.find_split h
  rw [List.map_append, List.map_cons] at hnodup ⊢
  have hperm : (newer.map Prod.fst ++ b.1 :: older.map Prod.fst).Perm
      (b.1 :: (newer ++ older).map Prod.fst) := by
    rw [List.map_append]
    exact List.perm_middle
  have hnot := (List.nodup_cons.mp (hperm.nodup_iff.mp hnodup)).1
  rw [hwithout]
  refine ⟨?_, hnot, List.perm_middle⟩
  rw [List.map_append, List.mem_append, not_or] at hnot
  rw [List.map_append, List.erase_append_right _ hnot.1, List.erase_cons_head]

/-- Whether a packet is a duplicate, and the ids with their times of delivery afterwards. -/
def dedup_step (capacity : Nat) (timeout : Int) (bs : List (Nat × Int)) (block_id : Nat)
    (current : Int) : Bool × List (Nat × Int) :=
  match recency.find naive_equal_func bs block_id with
  | some (_, delivered) =>
    let others := recency.without naive_equal_func bs block_id
    if current - delivered > timeout then (false, (block_id, current) :: others)
    else (true, (block_id, delivered) :: others)
  | none => (false, (block_id, current) :: if bs.length = capacity then bs.dropLast else bs)

variable {fec : nt_dup_fec_t} {capacity : Nat}

theorem dedup_keeps (h : Keeps fec.dedup_cache naive_equal_func capacity bs) (hpos : 0 < capacity)
    (block_id : Nat) (current : Int) : ∃ cache,
      dedup fec block_id current =
        some ((dedup_step capacity fec.dedup_timeout bs block_id current).1, cache) ∧
      Keeps cache naive_equal_func capacity
        (dedup_step capacity fec.dedup_timeout bs block_id current).2 := by
  have hroom := h.shows.room
  have hnodup := nodup_ids h.shows.apart
  -- an id that is not there is put into a list with room
  have hinsert : ∀ {cache : lrumap_t Nat Int} {bs' : List (Nat × Int)},
      Keeps cache naive_equal_func capacity bs' → bs'.length < capacity →
      block_id ∉ bs'.map Prod.fst → ∃ cache', lrumap_put cache block_id current = some (true, cache') ∧
        Keeps cache' naive_equal_func capacity ((block_id, current) :: bs') :=
    fun hkeeps hlt hnot => by
      obtain ⟨cache', hput, hkeeps'⟩ := put_keeps hkeeps (find_none_iff.mpr hnot) current
      rw [recency.put, if_neg hlt.ne] at hput hkeeps'
      exact ⟨cache', hput, hkeeps'⟩
  obtain ⟨cache, hget, hkeeps⟩ := get_keeps h block_id
  unfold dedup dedup_step
  rw [recency.get] at hget hkeeps
  cases hfind : recency.find naive_equal_func bs block_id with
  | some b =>
    obtain ⟨id, delivered⟩ := b
    obtain rfl := find_id hfind
    rw [hfind] at hget hkeeps
    replace hkeeps : Keeps cache naive_equal_func capacity
      ((id, delivered) :: recency.without naive_equal_func bs id) := hkeeps
    obtain ⟨-, hnot, hperm⟩ := without_id hnodup hfind
    have hlen : bs.length = (recency.without naive_equal_func bs id).length + 1 := hperm.length_eq
    simp only [hget, Option.bind_eq_bind, Option.bind_some]
    by_cases hexpired : current - delivered > fec.dedup_timeout
    · have hhead : recency.find naive_equal_func ((id, delivered) ::
          recency.without naive_equal_func bs id) id = some (id, delivered) := by
        simp [recency.find, naive_equal_func]
      have hrest : recency.without naive_equal_func ((id, delivered) ::
          recency.without naive_equal_func bs id) id = recency.without naive_equal_func bs id := by
        conv_lhs => rw [recency.without, List.eraseP_cons_of_pos (by simp [naive_equal_func])]
      obtain ⟨cache₁, hremove, hkeeps₁⟩ := remove_keeps hkeeps id
      rw [recency.remove, hhead, hrest] at hremove hkeeps₁
      replace hkeeps₁ : Keeps cache₁ naive_equal_func capacity
        (recency.without naive_equal_func bs id) := hkeeps₁
      obtain ⟨cache₂, hput, hkeeps₂⟩ := hinsert hkeeps₁ (by omega) hnot
      simp only [hexpired, if_true, hremove, hput, Option.bind_some]
      exact ⟨cache₂, rfl, hkeeps₂⟩
    · simp only [hexpired, if_false]
      exact ⟨cache, rfl, hkeeps⟩
  | none =>
    rw [hfind] at hget hkeeps
    replace hkeeps : Keeps cache naive_equal_func capacity bs := hkeeps
    have hnot := find_none_iff.mp hfind
    have hcapacity := hkeeps.1
    simp only [hget, hkeeps.shows.size, hcapacity, Option.bind_eq_bind, Option.bind_some]
    by_cases hfull : bs.length = capacity
    · obtain ⟨newer, b, rfl⟩ : ∃ newer b, bs = newer ++ [b] := by
        rcases List.eq_nil_or_concat bs with rfl | ⟨newer, b, hconcat⟩
        · rw [List.length_nil] at hfull
          omega
        · exact ⟨newer, b, by simpa only [List.concat_eq_append] using hconcat⟩
      rw [List.map_append, List.mem_append, not_or] at hnot
      rw [List.map_append] at hnodup
      have hb : b.1 ∉ newer.map Prod.fst := fun hmem =>
        (List.nodup_append.mp hnodup).2.2 b.1 hmem b.1 (by simp) rfl
      have hother : ∀ c ∈ newer, ¬naive_equal_func b.1 c.1 := fun c hc heq => hb (by
        rw [naive_equal_func, beq_iff_eq] at heq
        exact heq ▸ List.mem_map_of_mem hc)
      have hlast : recency.find naive_equal_func (newer ++ [b]) b.1 = some b := by
        rw [recency.find, List.find?_append, List.find?_eq_none.mpr hother]
        simp [naive_equal_func]
      have hrest : recency.without naive_equal_func (newer ++ [b]) b.1 = newer := by
        rw [recency.without, List.eraseP_append_right _ hother]
        simp [naive_equal_func]
      have hpeek := peek_keeps hkeeps
      rw [recency.peek, List.getLast?_concat] at hpeek
      obtain ⟨cache₁, hremove, hkeeps₁⟩ := remove_keeps hkeeps b.1
      rw [recency.remove, hlast, hrest] at hremove hkeeps₁
      replace hkeeps₁ : Keeps cache₁ naive_equal_func capacity newer := hkeeps₁
      rw [List.length_append, List.length_singleton] at hfull
      obtain ⟨cache₂, hput, hkeeps₂⟩ := hinsert hkeeps₁ (by omega) hnot.1
      simp only [List.length_append, List.length_singleton, hfull, if_true, hpeek, hremove, hput,
        Option.bind_some, List.dropLast_concat]
      exact ⟨cache₂, rfl, hkeeps₂⟩
    · obtain ⟨cache₂, hput, hkeeps₂⟩ := hinsert hkeeps (by omega) hnot
      simp only [hfull, if_false, hput, Option.bind_some]
      exact ⟨cache₂, rfl, hkeeps₂⟩

end

/-! ## What the list remembers -/

structure packet where
  header : nt_fec_header_t
  input : List UInt8
  current : Int

def block_id (p : packet) : Nat := (nt_fec_header_block_id p.header).toNat

/-- A packet of the block was delivered at most `timeout` before this one. -/
def JustDelivered (history : List (packet × Bool)) (timeout : Int) (p : packet) : Prop :=
  ∃ h ∈ history, h.2 = true ∧ block_id h.1 = block_id p ∧ p.current - h.1.current ≤ timeout

/-- The ids of the packets since the last one of the block; the newest packet comes first. -/
def others_since (history : List (packet × Bool)) (p : packet) : List Nat :=
  (history.map fun h => block_id h.1).takeWhile (· ≠ block_id p)

/-- The ids are the last ones used, each with the time of its last delivery. -/
structure Remembers (capacity : Nat) (history : List (packet × Bool)) (bs : List (Nat × Int)) :
    Prop where
  ids : bs.map Prod.fst = (recency.last_used (history.map fun h => block_id h.1)).take capacity
  delivered : ∀ b ∈ bs, ∃ h ∈ history, h.2 = true ∧ block_id h.1 = b.1 ∧ h.1.current = b.2
  latest : ∀ b ∈ bs, ∀ h ∈ history, h.2 = true → block_id h.1 = b.1 → h.1.current ≤ b.2

section

variable {capacity : Nat} {history : List (packet × Bool)} {bs : List (Nat × Int)} {p : packet}

theorem step_ids (timeout : Int) (p : packet) (h : Remembers capacity history bs) (hpos : 0 < capacity) :
    (dedup_step capacity timeout bs (block_id p) p.current).2.map Prod.fst =
      (recency.last_used (block_id p :: history.map fun h => block_id h.1)).take capacity := by
  have hnodup : (bs.map Prod.fst).Nodup := by
    rw [h.ids]
    exact (recency.nodup_last_used _).sublist (List.take_sublist _ _)
  unfold dedup_step
  cases hfind : recency.find naive_equal_func bs (block_id p) with
  | some b =>
    obtain ⟨id, time⟩ := b
    have hmem : block_id p ∈ bs.map Prod.fst := by
      by_contra hnot
      rw [find_none_iff.mpr hnot] at hfind
      cases hfind
    obtain ⟨hothers, -⟩ := without_id hnodup hfind
    have hhit : (recency.last_used (block_id p :: history.map fun h => block_id h.1)).take capacity =
        block_id p :: (bs.map Prod.fst).erase (block_id p) := by
      rw [h.ids]
      exact recency.take_hit (h.ids ▸ hmem)
    rw [hhit, ← hothers]
    simp only
    split <;> rfl
  | none =>
    have hmiss := recency.take_miss (h.ids ▸ find_none_iff.mp hfind) hpos
    rw [hmiss, ← h.ids, List.length_map]
    simp only
    split
    · rw [List.map_cons, List.map_dropLast]
    · rfl

/-- The packet is the newest binding; the others were there before. -/
theorem step_bindings {b : Nat × Int}
    (hb : b ∈ (dedup_step capacity timeout bs (block_id p) p.current).2) :
    b ∈ bs ∨ ((dedup_step capacity timeout bs (block_id p) p.current).1 = false ∧
      b = (block_id p, p.current)) := by
  unfold dedup_step at hb ⊢
  cases hfind : recency.find naive_equal_func bs (block_id p) with
  | some c =>
    obtain ⟨id, time⟩ := c
    have hid := find_id hfind
    have hmem : (id, time) ∈ bs := List.mem_of_find?_eq_some hfind
    have hsub : ∀ b ∈ recency.without naive_equal_func bs (block_id p), b ∈ bs :=
      fun b hb => List.mem_of_mem_eraseP hb
    simp only [hfind] at hb ⊢
    split at hb
    · next hexpired =>
      rw [if_pos hexpired]
      exact (List.mem_cons.mp hb).symm.imp (hsub b) fun heq => ⟨rfl, heq⟩
    · rcases List.mem_cons.mp hb with rfl | hb
      · exact Or.inl (hid ▸ hmem)
      · exact Or.inl (hsub b hb)
  | none =>
    simp only [hfind] at hb
    refine (List.mem_cons.mp hb).symm.imp (fun hb => ?_) fun heq => ⟨rfl, heq⟩
    split at hb
    · exact List.mem_of_mem_dropLast hb
    · exact hb

/-- A binding of the block after a delivery is the new one. -/
theorem step_new (hnodup : ((dedup_step capacity timeout bs (block_id p) p.current).2.map
      Prod.fst).Nodup)
    (hnew : (dedup_step capacity timeout bs (block_id p) p.current).1 = false) {b : Nat × Int}
    (hb : b ∈ (dedup_step capacity timeout bs (block_id p) p.current).2)
    (hid : b.1 = block_id p) : b.2 = p.current := by
  have hhead : ∃ rest, (dedup_step capacity timeout bs (block_id p) p.current).2 =
      (block_id p, p.current) :: rest := by
    unfold dedup_step at hnew ⊢
    split at hnew
    · next id time hfind =>
      simp only at hnew
      split at hnew
      · next hexpired =>
        rw [if_pos hexpired]
        exact ⟨_, rfl⟩
      · cases hnew
    · exact ⟨_, rfl⟩
  obtain ⟨rest, hstep⟩ := hhead
  rw [hstep] at hnodup hb
  rcases List.mem_cons.mp hb with rfl | hb
  · rfl
  · have hmem : b.1 ∈ rest.map Prod.fst := List.mem_map_of_mem hb
    exact absurd (hid ▸ hmem) (List.nodup_cons.mp hnodup).1

theorem step_remembers (timeout : Int) (h : Remembers capacity history bs) (hpos : 0 < capacity)
    (hclock : ∀ q ∈ history, q.1.current ≤ p.current) :
    Remembers capacity
      ((p, !(dedup_step capacity timeout bs (block_id p) p.current).1) :: history)
      (dedup_step capacity timeout bs (block_id p) p.current).2 := by
  have hids := step_ids timeout p h hpos
  constructor
  case ids => exact hids
  case delivered =>
    intro b hb
    rcases step_bindings hb with hold | ⟨hnew, rfl⟩
    · obtain ⟨q, hq, hrest⟩ := h.delivered b hold
      exact ⟨q, List.mem_cons_of_mem _ hq, hrest⟩
    · exact ⟨_, List.mem_cons_self, by rw [hnew]; rfl, rfl, rfl⟩
  case latest =>
    intro b hb q hq hdelivered hid
    rcases List.mem_cons.mp hq with rfl | hq
    · have hnodup := (recency.nodup_last_used _).sublist (List.take_sublist capacity
        (recency.last_used (block_id p :: history.map fun h => block_id h.1)))
      rw [← hids] at hnodup
      exact (step_new hnodup (by simpa using hdelivered) hb hid.symm).ge
    · rcases step_bindings hb with hold | ⟨-, rfl⟩
      · exact h.latest b hold q hq hdelivered hid
      · exact hclock q hq

theorem suppressed_only_if (h : Remembers capacity history bs)
    (hdup : (dedup_step capacity timeout bs (block_id p) p.current).1 = true) :
    JustDelivered history timeout p := by
  unfold dedup_step at hdup
  split at hdup
  · next id time hfind =>
    obtain ⟨q, hq, hdelivered, hid, htime⟩ := h.delivered _ (List.mem_of_find?_eq_some hfind)
    refine ⟨q, hq, hdelivered, hid.trans (find_id hfind), ?_⟩
    simp only at hdup
    split at hdup
    · cases hdup
    · rw [htime]
      omega
  · cases hdup

theorem suppressed_if (h : Remembers capacity history bs) (hjust : JustDelivered history timeout p)
    (hfew : (others_since history p).toFinset.card < capacity) :
    (dedup_step capacity timeout bs (block_id p) p.current).1 = true := by
  obtain ⟨q, hq, hdelivered, hid, htime⟩ := hjust
  have hused : block_id p ∈ history.map fun h => block_id h.1 :=
    List.mem_map.mpr ⟨q, hq, hid⟩
  have hmem := recency.mem_take_last_used hused hfew
  rw [← h.ids] at hmem
  unfold dedup_step
  cases hfind : recency.find naive_equal_func bs (block_id p) with
  | none => exact absurd hmem (find_none_iff.mp hfind)
  | some b =>
    obtain ⟨id, time⟩ := b
    have hlatest := h.latest _ (List.mem_of_find?_eq_some hfind) q hq hdelivered
      (hid.trans (find_id hfind).symm)
    simp only at hlatest
    simp only
    rw [if_neg (by omega)]

end

/-! ## Packet after packet -/

variable {σ : Type}

/-- The callback, which also notes that it was called. -/
def noting (callback : σ → List UInt8 → error_t × σ) (extra : σ × Bool) (input : List UInt8) :
    error_t × σ × Bool :=
  let (err, state) := callback extra.1 input
  (err, state, true)

/-- Which of the packets are delivered. -/
def deliveries (callback : σ → List UInt8 → error_t × σ) :
    List packet → nt_dup_fec_t → σ → Option (List Bool)
  | [], _, _ => some []
  | p :: packets, fec, extra => do
    let (_, fec, extra, delivered) ←
      nt_dup_fec_decode fec p.header p.input p.current (extra, false) (noting callback)
    let rest ← deliveries callback packets fec extra
    return delivered :: rest

section

variable {capacity : Nat} {history : List (packet × Bool)} {bs : List (Nat × Int)}
  {fec : nt_dup_fec_t} {p : packet}

theorem decode_step (h : Keeps fec.dedup_cache naive_equal_func capacity bs) (hpos : 0 < capacity)
    (hvalid : p.header.tag = NT_DUP_FEC_TAG ∧ p.header.K = 1)
    (callback : σ → List UInt8 → error_t × σ) (extra : σ) :
    ∃ err fec' extra', nt_dup_fec_decode fec p.header p.input p.current (extra, false)
        (noting callback) = some (err, fec', extra',
          !(dedup_step capacity fec.dedup_timeout bs (block_id p) p.current).1) ∧
      fec'.dedup_timeout = fec.dedup_timeout ∧ Keeps fec'.dedup_cache naive_equal_func capacity
        (dedup_step capacity fec.dedup_timeout bs (block_id p) p.current).2 := by
  obtain ⟨cache, hdedup, hkeeps⟩ := dedup_keeps h hpos (block_id p) p.current
  have hcapacity := h.1
  unfold nt_dup_fec_decode
  rw [if_neg (by rw [not_or]; exact ⟨not_not.mpr hvalid.1, not_not.mpr hvalid.2⟩),
    if_pos (by rw [hcapacity]; exact hpos)]
  rw [block_id] at hdedup
  simp only [hdedup, Option.bind_eq_bind, Option.bind_some]
  rw [← block_id]
  cases hdup : (dedup_step capacity fec.dedup_timeout bs (block_id p) p.current).1 with
  | true => exact ⟨0, { fec with dedup_cache := cache }, extra, rfl, rfl, hkeeps⟩
  | false => exact ⟨_, { fec with dedup_cache := cache }, _, rfl, rfl, hkeeps⟩

/-- Whether a packet is delivered, after those of the history. -/
def Judged (capacity : Nat) (timeout : Int) (history : List (packet × Bool)) (p : packet)
    (delivered : Bool) : Prop :=
  (delivered = false → JustDelivered history timeout p) ∧
    (JustDelivered history timeout p → (others_since history p).toFinset.card < capacity →
      delivered = false)

theorem deliveries_judged (fec : nt_dup_fec_t) (h : Keeps fec.dedup_cache naive_equal_func capacity bs)
    (hremembers : Remembers capacity history bs) (hpos : 0 < capacity)
    (callback : σ → List UInt8 → error_t × σ) (extra : σ) {packets : List packet}
    (hvalid : ∀ p ∈ packets, p.header.tag = NT_DUP_FEC_TAG ∧ p.header.K = 1)
    (hclock : packets.Pairwise fun p q => p.current ≤ q.current)
    (hlater : ∀ q ∈ history, ∀ p ∈ packets, q.1.current ≤ p.current) :
    ∃ delivered, deliveries callback packets fec extra = some delivered ∧
      delivered.length = packets.length ∧ ∀ (n : Nat) (p : packet) (d : Bool),
        packets[n]? = some p → delivered[n]? = some d →
          Judged capacity fec.dedup_timeout (((packets.zip delivered).take n).reverse ++ history) p d := by
  induction packets generalizing fec bs history extra with
  | nil => exact ⟨[], rfl, rfl, fun n p d hp => nomatch hp⟩
  | cons p packets ih =>
    obtain ⟨hvalid_p, hvalid⟩ := List.forall_mem_cons.mp hvalid
    obtain ⟨hclock_p, hclock⟩ := List.pairwise_cons.mp hclock
    obtain ⟨err, fec', extra', hdecode, htimeout, hkeeps⟩ := decode_step h hpos hvalid_p callback extra
    have hnow : ∀ q ∈ history, q.1.current ≤ p.current := fun q hq =>
      hlater q hq p List.mem_cons_self
    have hremembers' := step_remembers fec.dedup_timeout hremembers hpos hnow
    obtain ⟨delivered, hrun, hlen, hjudged⟩ := ih _ hkeeps hremembers' extra' hvalid hclock
      fun q hq r hr => by
        rcases List.mem_cons.mp hq with rfl | hq
        · exact hclock_p r hr
        · exact hlater q hq r (List.mem_cons_of_mem p hr)
    refine ⟨(!(dedup_step capacity fec.dedup_timeout bs (block_id p) p.current).1) :: delivered, ?_,
      congrArg Nat.succ hlen, fun n q d hq hd => ?_⟩
    · unfold deliveries
      simp only [hdecode, hrun, Option.bind_eq_bind, Option.bind_some]
      rfl
    · cases n with
      | zero =>
        obtain rfl := Option.some.inj hq
        obtain rfl := Option.some.inj hd
        refine ⟨fun hdup => suppressed_only_if hremembers (by simpa using hdup),
          fun hjust hfew => ?_⟩
        rw [suppressed_if hremembers hjust hfew]
        rfl
      | succ n =>
        have hrest := hjudged n q d hq hd
        rw [htimeout] at hrest
        rw [List.zip_cons_cons, List.take_succ_cons, List.reverse_cons, List.append_assoc]
        exact hrest

end

/-- A packet is held back only for one of its block delivered at most the timeout earlier, and
is held back for it unless `capacity` other blocks came since the last packet of the block. So
the first packet of each block is delivered. -/
theorem duplicates_are_held_back (N : UInt8) {capacity : Nat} (hcap : 2 ≤ capacity) (timeout : Int)
    (callback : σ → List UInt8 → error_t × σ) (extra : σ) {packets : List packet}
    (hvalid : ∀ p ∈ packets, p.header.tag = NT_DUP_FEC_TAG ∧ p.header.K = 1)
    (hclock : packets.Pairwise fun p q => p.current ≤ q.current) :
    ∃ fec delivered, nt_dup_fec_init N capacity timeout = some fec ∧
      deliveries callback packets fec extra = some delivered ∧
      delivered.length = packets.length ∧ ∀ (n : Nat) (p : packet) (d : Bool),
        packets[n]? = some p → delivered[n]? = some d →
          let history := ((packets.zip delivered).take n).reverse
          (d = false → JustDelivered history timeout p) ∧
          (JustDelivered history timeout p → (others_since history p).toFinset.card < capacity →
            d = false) ∧
          ((∀ h ∈ history, block_id h.1 ≠ block_id p) → d = true) := by
  obtain ⟨cache, hinit, hkeeps⟩ := lrumap_init1_keeps (β := Int) lawful_naive hcap
  have hempty : Remembers capacity [] [] := ⟨by simp [recency.last_used], nofun, nofun⟩
  obtain ⟨delivered, hrun, hlen, hjudged⟩ := deliveries_judged ⟨N, cache, timeout⟩ hkeeps
    hempty (Nat.zero_lt_of_lt hcap) callback extra hvalid hclock
    (fun _ hmem => absurd hmem List.not_mem_nil)
  refine ⟨⟨N, cache, timeout⟩, delivered, ?_, hrun, hlen, fun n p d hp hd => ?_⟩
  · unfold nt_dup_fec_init
    simp only [hinit, Option.bind_eq_bind, Option.bind_some]
    rfl
  · have hpacket := hjudged n p d hp hd
    rw [List.append_nil] at hpacket
    refine ⟨hpacket.1, hpacket.2, fun hfirst => ?_⟩
    by_contra hnot
    obtain ⟨h, hh, -, hid, -⟩ := hpacket.1 (by simpa using hnot)
    exact hfirst h hh hid

/-- A copy of one packet that comes in at this time. -/
def copy (current : Int) : packet := ⟨nt_fec_header_init NT_DUP_FEC_TAG 2 1 7 0 3, [1, 2, 3], current⟩

/-- Of two copies the first is delivered. -/
theorem duplicates_are_held_back_two : ∃ fec delivered, nt_dup_fec_init 2 2 10 = some fec ∧
    deliveries (fun (n : Nat) _ => (0, n + 1)) [copy 0, copy 5] fec 0 = some delivered ∧
      delivered.length = 2 ∧ delivered[0]? = some true := by
  obtain ⟨fec, delivered, hinit, hrun, hlen, hjudged⟩ :=
    duplicates_are_held_back 2 (le_refl 2) 10 (fun (n : Nat) _ => (0, n + 1)) 0
      (by decide : ∀ p ∈ [copy 0, copy 5], p.header.tag = NT_DUP_FEC_TAG ∧ p.header.K = 1)
      (by decide)
  obtain ⟨d, hfirst⟩ : ∃ d, delivered[0]? = some d := ⟨_, List.getElem?_eq_getElem
    (show 0 < delivered.length from hlen ▸ Nat.zero_lt_two)⟩
  refine ⟨fec, delivered, hinit, hrun, hlen, ?_⟩
  rw [hfirst, (hjudged 0 (copy 0) _ rfl hfirst).2.2 nofun]

end nettle.nt_dup_fec
