-- The law of the paths (nt_distributor.c, nt_fec_processor.c): a distributor leads every
-- packet to at least one of its paths exactly if its table has a first row.
import Nettle.NtDistributor

open nettle.nt_fec nettle.nt_processor nettle.udp

namespace nettle.nt_distributor

/-- What a distributor is for. -/
structure Leads (distributor : nt_distributor_t) (path_num : Int) : Prop where
  /-- Every select divides by a number that is not zero, reads inside the table, and gives NULL or
  one of the paths. -/
  select : ∀ seq dup, ∃ n, nt_distributor_select distributor seq dup = some n ∧ ∀ i ∈ n, (i : Int) < path_num
  first : ∀ seq, nt_distributor_select distributor seq 0 ≠ some none
  /-- The loop over the paths of a packet ends, after at least one and at most `dup_num` of them. -/
  loop : ∀ seq, ∃ ns, select_loop distributor seq (distributor.dup_num + 1) 0 = some ns ∧
    1 ≤ ns.length ∧ ns.length ≤ distributor.dup_num
  /-- The packet is sent on each of these paths. -/
  sent : ∀ tun_udp perf header payload tun_udp' perf',
    (on_encode distributor (some (tun_udp, perf)) header payload).2 = some (tun_udp', perf') →
      ∃ (ns : List Nat) (paths : List nt_path_t),
        select_loop distributor header.block_index.toNat (distributor.dup_num + 1) 0 = some ns ∧
        ns.map (distributor.paths[·]?) = paths.map some ∧ 1 ≤ paths.length ∧
        tun_udp'.sent = tun_udp.sent ++
          paths.map fun path => (path.dst, nt_fec_header_bytes header ++ payload)

/-! ## The loop -/

section loop

variable {distributor : nt_distributor_t}

theorem select_loop_ends (hselect : ∀ seq dup, ∃ n, nt_distributor_select distributor seq dup = some n)
    (seq fuel i : Nat) (hfuel : i + fuel = distributor.dup_num + 1) (hpos : 0 < fuel) :
    ∃ ns, select_loop distributor seq fuel i = some ns ∧ i + ns.length ≤ distributor.dup_num := by
  induction fuel generalizing i with
  | zero => omega
  | succ fuel ih =>
    unfold select_loop
    obtain ⟨n, hn⟩ := hselect seq i
    rw [hn]
    cases n with
    | none => exact ⟨[], rfl, by simp only [List.length_nil]; omega⟩
    | some n =>
      have hi : i < distributor.dup_num := by
        by_contra hge
        unfold nt_distributor_select at hn
        rw [if_pos (by omega)] at hn
        simp at hn
      obtain ⟨ns, hns, hlength⟩ := ih (i + 1) (by omega) (by omega)
      refine ⟨n :: ns, ?_, ?_⟩
      · simp only [Option.bind_eq_bind, Option.bind_some, hns]
        rfl
      · rw [List.length_cons]
        omega

/-- The loop of the processor sends the packet on the paths of the loop of selects. -/
theorem on_encode_loop_sent
    (hselect : ∀ seq dup, ∃ n, nt_distributor_select distributor seq dup = some n ∧
      ∀ i ∈ n, i < distributor.paths.length)
    (header : nt_fec_header_t) (payload : List UInt8) (rest i : Nat)
    (hrest : i + rest = distributor.dup_num) {tun_udp tun_udp' : udp_t} {perf perf' : perf_t}
    (h : on_encode_loop distributor header payload rest i tun_udp perf = some (tun_udp', perf')) :
    ∃ (ns : List Nat) (paths : List nt_path_t),
      select_loop distributor header.block_index.toNat (rest + 1) i = some ns ∧
      ns.map (distributor.paths[·]?) = paths.map some ∧
      tun_udp'.sent = tun_udp.sent ++
        paths.map fun path => (path.dst, nt_fec_header_bytes header ++ payload) := by
  induction rest generalizing i tun_udp perf with
  | zero =>
    simp only [on_encode_loop, Option.some.injEq, Prod.mk.injEq] at h
    refine ⟨[], [], ?_, rfl, by simp [h.1]⟩
    unfold select_loop nt_distributor_select
    rw [if_pos (by omega)]
    rfl
  | succ rest ih =>
    obtain ⟨n, hn, hlt⟩ := hselect header.block_index.toNat i
    unfold on_encode_loop at h
    unfold select_loop
    rw [hn] at h ⊢
    cases n with
    | none =>
      simp only [Option.bind_eq_bind, Option.bind_some, Option.pure_def, Option.some.injEq,
        Prod.mk.injEq] at h
      exact ⟨[], [], rfl, rfl, by simp [h.1]⟩
    | some n =>
      have hn' := hlt n rfl
      simp only [Option.bind_eq_bind, Option.bind_some, List.getElem?_eq_getElem hn'] at h
      obtain ⟨udp₁, perf₁, hloop, hsent⟩ : ∃ udp₁ perf₁,
          on_encode_loop distributor header payload rest (i + 1) udp₁ perf₁ =
            some (tun_udp', perf') ∧
          udp₁.sent = tun_udp.sent ++
            [(distributor.paths[n].dst, nt_fec_header_bytes header ++ payload)] := by
        simp only [udp_send_v, List.flatten_cons, List.flatten_nil, List.append_nil] at h
        cases hsend : tun_udp.sendmsg (some distributor.paths[n].src) distributor.paths[n].dst
            (nt_fec_header_bytes header ++ payload) with
        | error err =>
          rw [hsend] at h
          exact ⟨_, _, h, rfl⟩
        | ok sent =>
          rw [hsend] at h
          by_cases hsize : sent = nt_fec_message_size header
          · simp only [hsize, if_true] at h
            exact ⟨_, _, h, rfl⟩
          · simp [hsize] at h
      obtain ⟨ns, paths, hns, hmap, hsent'⟩ := ih (i + 1) (by omega) hloop
      refine ⟨n :: ns, distributor.paths[n] :: paths, ?_, ?_, ?_⟩
      · simp only [Option.bind_eq_bind, Option.bind_some, hns]
        rfl
      · rw [List.map_cons, List.map_cons, hmap, List.getElem?_eq_getElem hn']
      · rw [hsent', hsent]
        simp

end loop

/-- A distributor leads to its paths if every read of its table gives one of them, or a negative
number behind the first place of a row. -/
theorem leads_of_read {distributor : nt_distributor_t} {path_num : Int}
    (hpaths : path_num ≤ distributor.paths.length) (hdup_num : 1 ≤ distributor.dup_num)
    (hseq_num : 0 < distributor.seq_num)
    (hread : ∀ seq j, j < distributor.dup_num → ∃ n,
      distributor.seq2addr[seq % distributor.seq_num * distributor.dup_num + j]? = some n ∧
        n < path_num ∧ (j = 0 → 0 ≤ n)) : Leads distributor path_num := by
  have hselect : ∀ seq dup, ∃ n, nt_distributor_select distributor seq dup = some n ∧
      (∀ i ∈ n, (i : Int) < path_num) ∧ (dup = 0 → n ≠ none) := by
    intro seq dup
    unfold nt_distributor_select
    by_cases hdup : dup ≥ distributor.dup_num
    · rw [if_pos hdup]
      exact ⟨none, rfl, by simp, by omega⟩
    · obtain ⟨n, hn, hlt, hfirst⟩ := hread seq dup (by omega)
      rw [if_neg hdup, if_neg (by omega), hn]
      by_cases hneg : n < 0
      · refine ⟨none, by simp [hneg], by simp, ?_⟩
        intro hzero
        exact absurd (hfirst hzero) (not_le.mpr hneg)
      · refine ⟨some n.toNat, by simp [hneg], ?_, by simp⟩
        intro i hi
        simp only [Option.mem_some_iff] at hi
        omega
  have hnot : ∀ seq, nt_distributor_select distributor seq 0 ≠ some none := by
    intro seq hnone
    obtain ⟨n, hn, -, hfirst⟩ := hselect seq 0
    rw [hn, Option.some.injEq] at hnone
    exact hfirst rfl hnone
  have hends := select_loop_ends fun seq dup => (hselect seq dup).imp fun n hn => hn.1
  have hone : ∀ seq ns, select_loop distributor seq (distributor.dup_num + 1) 0 = some ns →
      1 ≤ ns.length := by
    intro seq ns hns
    unfold select_loop at hns
    obtain ⟨n, hn, -, -⟩ := hselect seq 0
    rw [hn] at hns
    cases n with
    | none => exact absurd hn (hnot seq)
    | some n =>
      simp only [Option.bind_eq_bind, Option.bind_some] at hns
      obtain ⟨rest, -, hrest⟩ := Option.bind_eq_some_iff.mp hns
      simp only [Option.pure_def, Option.some.injEq] at hrest
      rw [← hrest, List.length_cons]
      omega
  constructor
  · intro seq dup
    obtain ⟨n, hn, hlt, -⟩ := hselect seq dup
    exact ⟨n, hn, hlt⟩
  · exact hnot
  · intro seq
    obtain ⟨ns, hns, hlength⟩ := hends seq (distributor.dup_num + 1) 0 (by omega) (by omega)
    exact ⟨ns, hns, hone seq ns hns, by omega⟩
  · intro tun_udp perf header payload tun_udp' perf' h
    have hselect' : ∀ seq dup, ∃ n, nt_distributor_select distributor seq dup = some n ∧
        ∀ i ∈ n, i < distributor.paths.length := by
      intro seq dup
      obtain ⟨n, hn, hlt, -⟩ := hselect seq dup
      refine ⟨n, hn, ?_⟩
      intro i hi
      have hpath := hlt i hi
      omega
    obtain ⟨ns, paths, hns, hmap, hsent⟩ := on_encode_loop_sent hselect' header payload
      distributor.dup_num 0 (by omega) h
    refine ⟨ns, paths, hns, hmap, ?_, hsent⟩
    have hlength := congrArg List.length hmap
    rw [List.length_map, List.length_map] at hlength
    rw [← hlength]
    exact hone _ ns hns

/-! ## The law of the paths -/

/-- At least one row is accepted exactly if the table starts with a path. -/
theorem head_is_path_iff {path_num : Int} {seq2addr : List Int} {rows dup seqs : Nat}
    (hdup : 1 ≤ dup) (htable : seq2addr.length = rows * dup)
    (hseqs : actual_seq_num path_num seq2addr dup rows 0 = some seqs) :
    (∃ n ∈ seq2addr.head?, 0 ≤ n) ↔ seqs ≠ 0 := by
  obtain ⟨-, -, hzero, -⟩ := actual_seq_num_spec hseqs
  rw [Nat.zero_mul] at hzero
  cases seq2addr with
  | nil =>
    have hnone : rows = 0 := by
      rcases Nat.mul_eq_zero.mp htable.symm with h | h
      · exact h
      · omega
    simp [hzero, hnone]
  | cons n ns =>
    have hsome : rows ≠ 0 := by
      rintro rfl
      simp at htable
    simp [hzero, hsome]

/-- The rows that are accepted can be read, and start with a path. -/
theorem table_read {path_num : Int} {seq2addr : List Int} {rows dup seqs : Nat}
    (htable : seq2addr.length = rows * dup)
    (hseqs : actual_seq_num path_num seq2addr dup rows 0 = some seqs) {row j : Nat}
    (hrow : row < seqs) (hj : j < dup) :
    ∃ n, seq2addr[row * dup + j]? = some n ∧ n < path_num ∧ (j = 0 → 0 ≤ n) := by
  obtain ⟨-, hle, -, hrows⟩ := actual_seq_num_spec hseqs
  have hlt : row * dup + j < seq2addr.length := by
    rw [htable, Nat.mul_comm row]
    exact Nat.mul_add_lt_mul_of_lt_of_lt (by omega) hj
  obtain ⟨hfirst, hpath⟩ := hrows row (Nat.zero_le _) hrow
  refine ⟨seq2addr[row * dup + j], List.getElem?_eq_getElem hlt, ?_, ?_⟩
  · have hj' := hpath j hj
    rwa [List.getD_eq_getElem _ _ hlt] at hj'
  · rintro rfl
    rwa [List.getD_eq_getElem _ _ (by simpa using hlt)] at hfirst

/-- What was accepted can be used as soon as it has a row, which it has exactly if the table starts
with a path. -/
theorem usable_of_init {paths : List nt_path_t} {path_num : Int} {seq2addr : List Int}
    {seq_num dup_num : Int} {distributor : nt_distributor_t} (hpaths : path_num ≤ paths.length)
    (hseq_num : 0 ≤ seq_num) (hdup_num : 1 ≤ dup_num)
    (htable : (seq2addr.length : Int) = seq_num * dup_num)
    (hinit : nt_distributor_init paths path_num seq2addr seq_num dup_num = some distributor) :
    0 < distributor.dup_num ∧ (0 < distributor.seq_num → Usable distributor) ∧
      ((∃ n ∈ seq2addr.head?, 0 ≤ n) ↔ 0 < distributor.seq_num) := by
  obtain ⟨dup, rfl⟩ := Int.eq_ofNat_of_zero_le (show 0 ≤ dup_num by omega)
  obtain ⟨rows, rfl⟩ := Int.eq_ofNat_of_zero_le hseq_num
  norm_cast at htable hdup_num
  unfold nt_distributor_init at hinit
  rw [if_neg (by omega)] at hinit
  obtain ⟨seqs, hseqs, hdistributor⟩ := Option.bind_eq_some_iff.mp hinit
  simp only [Int.toNat_natCast, Option.pure_def, Option.some.injEq] at hseqs hdistributor
  subst hdistributor
  refine ⟨hdup_num, fun hrows => ⟨hrows, ?_⟩, ?_⟩
  · intro row hrow j hj
    obtain ⟨n, hn, hlt, -⟩ := table_read htable hseqs hrow hj
    exact ⟨n, hn, lt_of_lt_of_le hlt hpaths⟩
  · rw [head_is_path_iff hdup_num htable hseqs]
    exact Nat.pos_iff_ne_zero.symm

/-- A distributor that was accepted leads every packet to a path exactly if the table has a row and
the first row starts with a path. -/
theorem every_packet_has_a_path (paths : List nt_path_t) (path_num : Int) (seq2addr : List Int)
    (seq_num dup_num : Int) (distributor : nt_distributor_t) (hpaths : path_num ≤ paths.length)
    (hseq_num : 0 ≤ seq_num) (hdup_num : 1 ≤ dup_num)
    (htable : (seq2addr.length : Int) = seq_num * dup_num)
    (hinit : nt_distributor_init paths path_num seq2addr seq_num dup_num = some distributor) :
    Leads distributor path_num ↔ ∃ n ∈ seq2addr.head?, 0 ≤ n := by
  obtain ⟨dup, rfl⟩ := Int.eq_ofNat_of_zero_le (show 0 ≤ dup_num by omega)
  obtain ⟨rows, rfl⟩ := Int.eq_ofNat_of_zero_le hseq_num
  norm_cast at htable hdup_num
  unfold nt_distributor_init at hinit
  rw [if_neg (by omega)] at hinit
  obtain ⟨seqs, hseqs, hdistributor⟩ := Option.bind_eq_some_iff.mp hinit
  simp only [Int.toNat_natCast, Option.pure_def, Option.some.injEq] at hseqs hdistributor
  subst hdistributor
  rw [head_is_path_iff hdup_num htable hseqs]
  constructor
  · rintro h rfl
    obtain ⟨n, hn, -⟩ := h.select 0 0
    unfold nt_distributor_select at hn
    simp [show ¬ dup ≤ 0 by omega] at hn
  · intro hne
    have hpos := Nat.pos_of_ne_zero hne
    exact leads_of_read hpaths hdup_num hpos fun seq j hj =>
      table_read htable hseqs (Nat.mod_lt seq hpos) hj

/-- Two packets in turn over two paths. -/
theorem every_packet_has_one_of_two_paths :
    let local_path : nt_path_t := ⟨address_init4 0 1, address_init4 1 1⟩
    let other_path : nt_path_t := ⟨address_init4 0 2, address_init4 1 2⟩
    Leads ⟨[local_path, other_path], [0, -1, 0, 1], 2, 2⟩ 2 ↔
      ∃ n ∈ [0, -1, 0, (1 : Int)].head?, 0 ≤ n :=
  every_packet_has_a_path [⟨address_init4 0 1, address_init4 1 1⟩,
    ⟨address_init4 0 2, address_init4 1 2⟩] 2 [0, -1, 0, 1] 2 2 _ (by decide) (by decide)
    (by decide) (by decide) rfl

/-- A table of fillers is accepted, and the first select divides by zero. -/
theorem a_packet_has_no_path :
    let path : nt_path_t := ⟨address_init4 0 1, address_init4 1 1⟩
    nt_distributor_init [path] 1 [-1, -1] 2 1 = some ⟨[path], [-1, -1], 0, 1⟩ ∧
      nt_distributor_select ⟨[path], [-1, -1], 0, 1⟩ 0 0 = none :=
  ⟨rfl, rfl⟩

end nettle.nt_distributor
