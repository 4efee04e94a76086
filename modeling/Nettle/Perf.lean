-- The performance counters (perf.c, counter.h) and the report of them
-- (nt_reporter.c): counters that are found through a hash table by their names.
-- `none` is a failed `ensure`.
import Nettle.ConfigLaws
import Nettle.NtFec
import Nettle.Sbuilder

open nettle.linked nettle.sbuilder finite_map
open nettle.hashmap (str_hash_func str_equal_func)

namespace nettle.perf

/-! ## The counters -/

/-- The table has pointers to the counters, which are in the order that they were allocated in. -/
structure perf_t where
  counters : hashmap_t (List Char) Nat
  values : List UInt64

/-- One turn of the loop in `perf_init`. -/
def perf_register (fuel : Nat) (perf : perf_t) (name : List Char) : Option perf_t := do
  let (old_value, counters) ← hashmap_put fuel perf.counters name perf.values.length
  if old_value = none then some ⟨counters, perf.values ++ [0]⟩ else none

def perf_init (fuel : Nat) (counter_names : List (List Char)) : Option perf_t := do
  let counters ← hashmap_init1 counter_names.length str_hash_func str_equal_func
  counter_names.foldlM (perf_register fuel) ⟨counters, []⟩

def perf_inc (perf : perf_t) (name : List Char) (n : Int) : Option perf_t := do
  let found ← hashmap_get perf.counters name
  let (_, counter) ← found
  let value ← perf.values[counter]?
  return { perf with values := perf.values.set counter (value + UInt64.ofInt n) }

def perf_get (perf : perf_t) (name : List Char) : Option UInt64 := do
  let found ← hashmap_get perf.counters name
  let (_, counter) ← found
  perf.values[counter]?

/-- The text of one counter. -/
def counter_text (name : List Char) (value : UInt64) : List Char :=
  "\x7b\"metric\":\"".toList ++ name ++ "\",\"value\":".toList ++ Nat.toDigits 10 value.toNat ++
    ",\"counterType\":\"COUNTER\"\x7d".toList

/-- The loop of `sbuilder_perf` from `iter` on, for at most `fuel` turns. -/
def sbuilder_perf_loop (perf : perf_t) : Nat → Nat → sbuilder_t → Option sbuilder_t
  | fuel, iter, builder =>
    if iter = hashmap_end perf.counters then some builder
    else match fuel with
      | 0 => none
      | fuel + 1 => do
        let (iter, name, counter) ← hashmap_next perf.counters iter
        let value ← perf.values[counter]?
        let builder := (sbuilder_format builder (counter_text name value)).2
        sbuilder_perf_loop perf fuel iter
          (if iter ≠ hashmap_end perf.counters then (sbuilder_format builder [',', ' ']).2 else builder)

def sbuilder_perf (builder : sbuilder_t) (perf : perf_t) : Option (Bool × sbuilder_t) := do
  let builder := (sbuilder_format builder ['[']).2
  let builder ← sbuilder_perf_loop perf perf.counters.size (hashmap_begin perf.counters) builder
  return sbuilder_format builder [']']

/-! ## The reporter -/

def isspace (c : UInt8) : Bool := c = 32 || 9 ≤ c && c ≤ 13

/-- The string that is in the buffer of the reporter when it is compared. -/
def command (datagram : List UInt8) : List UInt8 :=
  ((datagram.take 99).rdropWhile isspace).takeWhile (· ≠ 0)

/-- What the reporter answers to a datagram; `buf` is what is in the memory of its builder. -/
def udp_handle_read (perf : perf_t) (buf : List Char) (datagram : List UInt8) :
    Option (Option (List Char)) :=
  if command datagram = [112, 101, 114, 102] then do
    let (_, builder) ← sbuilder_perf (sbuilder_reset (sbuilder_init buf 4096)) perf
    return some builder.string
  else some none

/-! ## The names -/

/-- The table of nt_perf.def. -/
def nt_counter_names : List (List Char) := [
  "nt-API_SENT", "nt-TUN_SENT", "nt-API_RECEIVED", "nt-TUN_RECEIVED", "nt-DIRECT_TUN_SENT",
  "nt-DIRECT_API_SENT", "nt-API_SENT_BYTES", "nt-TUN_SENT_BYTES", "nt-API_RECEIVED_BYTES",
  "nt-TUN_RECEIVED_BYTES", "nt-DIRECT_TUN_SENT_BYTES", "nt-DIRECT_API_SENT_BYTES",
  "nt-API_SEND_ERROR", "nt-TUN_SEND_ERROR", "nt-API_RECEIVE_ERROR", "nt-TUN_RECEIVE_ERROR",
  "nt-DIRECT_TUN_SEND_ERROR", "nt-DIRECT_API_SEND_ERROR", "nt-ENCRYPT_ERROR", "nt-DECRYPT_ERROR",
  "nt-API_SENT_V1", "nt-API_RECEIVED_V1", "nt-TTL_EXCEEDED", "nt-DECODE_ERROR",
  "nt-INVALID_ENCODED_DATA", "nt-CORRUPT_DECODED_DATA", "nt-ENCODER_BUSY", "nt-DECODER_BUSY",
  "nt-DECODER_BUFFER_FULL", "nt-DECODER_BLOCK_COUNT", "nt-DECODER_BLOCK_COMPLETE",
  "nt-DECODER_BLOCK_RESTORE", "nt-DECODER_BLOCK_EXPIRE", "nt-DECODER_RAW",
  "nt-DECODER_RESTORE"].map String.toList

/-- The names of the counters that the model of the tunnel counts in. -/
def counter_name : nt_fec.counter → List Char
  | .COUNTER_API_SENT => "nt-API_SENT".toList
  | .COUNTER_TUN_SENT => "nt-TUN_SENT".toList
  | .COUNTER_API_RECEIVED => "nt-API_RECEIVED".toList
  | .COUNTER_TUN_RECEIVED => "nt-TUN_RECEIVED".toList
  | .COUNTER_API_SENT_BYTES => "nt-API_SENT_BYTES".toList
  | .COUNTER_TUN_SENT_BYTES => "nt-TUN_SENT_BYTES".toList
  | .COUNTER_API_RECEIVED_BYTES => "nt-API_RECEIVED_BYTES".toList
  | .COUNTER_TUN_RECEIVED_BYTES => "nt-TUN_RECEIVED_BYTES".toList
  | .COUNTER_API_SEND_ERROR => "nt-API_SEND_ERROR".toList
  | .COUNTER_TUN_SEND_ERROR => "nt-TUN_SEND_ERROR".toList
  | .COUNTER_API_RECEIVE_ERROR => "nt-API_RECEIVE_ERROR".toList
  | .COUNTER_TUN_RECEIVE_ERROR => "nt-TUN_RECEIVE_ERROR".toList
  | .COUNTER_ENCRYPT_ERROR => "nt-ENCRYPT_ERROR".toList
  | .COUNTER_DECRYPT_ERROR => "nt-DECRYPT_ERROR".toList
  | .COUNTER_API_SENT_V1 => "nt-API_SENT_V1".toList
  | .COUNTER_API_RECEIVED_V1 => "nt-API_RECEIVED_V1".toList
  | .COUNTER_TTL_EXCEEDED => "nt-TTL_EXCEEDED".toList
  | .COUNTER_CORRUPT_DECODED_DATA => "nt-CORRUPT_DECODED_DATA".toList
  | .COUNTER_ENCODER_BUSY => "nt-ENCODER_BUSY".toList
  | .COUNTER_DECODER_BUSY => "nt-DECODER_BUSY".toList
  | .COUNTER_DECODER_BLOCK_COUNT => "nt-DECODER_BLOCK_COUNT".toList
  | .COUNTER_DECODER_BLOCK_COMPLETE => "nt-DECODER_BLOCK_COMPLETE".toList
  | .COUNTER_DECODER_BLOCK_RESTORE => "nt-DECODER_BLOCK_RESTORE".toList
  | .COUNTER_DECODER_BLOCK_EXPIRE => "nt-DECODER_BLOCK_EXPIRE".toList
  | .COUNTER_DECODER_RAW => "nt-DECODER_RAW".toList
  | .COUNTER_DECODER_RESTORE => "nt-DECODER_RESTORE".toList

/-! ## The table of the counters -/

section

variable {names : List (List Char)} {perf perf' : perf_t}

/-- Each name finds a counter of its own. -/
structure Registers (names : List (List Char)) (perf : perf_t) : Prop where
  stands : ∃ map : FiniteMap (List Char) Nat str_equal_func, Stands perf.counters map ∧
    map.bindings.Perm names.zipIdx
  values : perf.values.length = names.length
  nodup : names.Nodup

theorem Registers.get (h : Registers names perf) {name : List Char} {i : Nat}
    (hi : names[i]? = some name) : hashmap_get perf.counters name = some (some (name, i)) := by
  obtain ⟨map, hstands, hperm⟩ := h.stands
  rw [hstands.get]
  refine congrArg some (find_of_mem hstands.equivalence (hperm.mem_iff.mpr ?_) (beq_self_eq_true name))
  exact List.mem_zipIdx_iff_getElem?.mpr hi

theorem Registers.get_none (h : Registers names perf) {name : List Char} (hname : name ∉ names) :
    hashmap_get perf.counters name = some none := by
  obtain ⟨map, hstands, hperm⟩ := h.stands
  rw [hstands.get]
  refine congrArg some (find_eq_none.mpr fun b hb heq => hname ?_)
  have hmem := hperm.mem_iff.mp hb
  rw [show name = b.1 from beq_iff_eq.mp heq]
  exact List.mem_of_getElem? (List.mem_zipIdx_iff_getElem?.mp hmem)

theorem Registers.next (h : Registers names perf) {name : List Char} (hname : name ∉ names) (fuel : Nat) :
    ∃ perf', perf_register (fuel + 2) perf name = some perf' ∧ Registers (names ++ [name]) perf' ∧
      perf'.values = perf.values ++ [0] := by
  obtain ⟨map, hstands, hperm⟩ := h.stands
  have hfind : find map name = none := by
    have hget := h.get_none hname
    rw [hstands.get, Option.some.injEq] at hget
    exact hget
  obtain ⟨counters, hput, hstands'⟩ := hstands.put name perf.values.length fuel
  rw [put_absent hfind] at hput hstands'
  refine ⟨⟨counters, perf.values ++ [0]⟩, ?_, ⟨⟨_, hstands', ?_⟩, ?_, ?_⟩, rfl⟩
  · unfold perf_register
    rw [hput]
    rfl
  · change ((name, perf.values.length) :: map.bindings).Perm _
    rw [List.zipIdx_append, h.values, List.zipIdx_singleton, Nat.zero_add]
    exact (List.Perm.cons _ hperm).trans (List.perm_append_singleton _ _).symm
  · simp [h.values]
  · rw [List.nodup_append]
    refine ⟨h.nodup, List.nodup_singleton _, fun a ha b hb heq => hname ?_⟩
    rw [← List.mem_singleton.mp hb, ← heq]
    exact ha

theorem perf_init_loop (fuel : Nat) {rest : List (List Char)} (h : Registers names perf)
    (hnodup : (names ++ rest).Nodup) :
    ∃ perf', rest.foldlM (perf_register (fuel + 2)) perf = some perf' ∧
      Registers (names ++ rest) perf' ∧ perf'.values = perf.values ++ List.replicate rest.length 0 := by
  induction rest generalizing names perf with
  | nil => exact ⟨perf, rfl, (List.append_nil names).symm ▸ h, by simp⟩
  | cons name rest ih =>
    have hname : name ∉ names := fun hmem =>
      (List.nodup_append.mp hnodup).2.2 name hmem name List.mem_cons_self rfl
    obtain ⟨perf₁, hregister, hregisters, hvalues⟩ := h.next hname fuel
    rw [List.append_cons] at hnodup ⊢
    obtain ⟨perf', hloop, hregisters', hvalues'⟩ := ih hregisters hnodup
    refine ⟨perf', ?_, hregisters', ?_⟩
    · rw [List.foldlM_cons, hregister]
      exact hloop
    · rw [hvalues', hvalues, List.append_assoc, List.length_cons, List.replicate_succ]
      rfl

/-- Names without a duplicate are registered with counters at zero. -/
theorem perf_init_spec (fuel : Nat) (hnodup : names.Nodup) (hlen : 2 ≤ names.length) :
    ∃ perf, perf_init (fuel + 2) names = some perf ∧ Registers names perf ∧
      perf.values = List.replicate names.length 0 := by
  obtain ⟨table, hinit, hstands⟩ := init1_stands (β := Nat) config.str_lawful hlen
  have hempty : Registers [] ⟨table, []⟩ := ⟨⟨_, hstands, List.Perm.refl _⟩, rfl, List.nodup_nil⟩
  obtain ⟨perf, hloop, hregisters, hvalues⟩ := perf_init_loop fuel hempty hnodup
  refine ⟨perf, ?_, hregisters, hvalues⟩
  unfold perf_init
  rw [hinit]
  exact hloop

/-! ## Counting -/

def perf_run (calls : List (List Char × Int)) (perf : perf_t) : Option perf_t :=
  calls.foldlM (fun perf call => perf_inc perf call.1 call.2) perf

/-- What a counter has been told. -/
def total (name : List Char) (calls : List (List Char × Int)) : Int :=
  ((calls.filter fun call => call.1 = name).map Prod.snd).sum

theorem Registers.value (h : Registers names perf) {name : List Char} {i : Nat}
    (hi : names[i]? = some name) : perf_get perf name = perf.values[i]? := by
  unfold perf_get
  rw [h.get hi]
  rfl

/-- A call changes the counter that it names. -/
theorem Registers.inc (h : Registers names perf) {name : List Char} (hname : name ∈ names) (n : Int) :
    ∃ perf', perf_inc perf name n = some perf' ∧ Registers names perf' ∧
      ∀ name' ∈ names, perf_get perf' name' = (perf_get perf name').map fun value =>
        if name' = name then value + UInt64.ofInt n else value := by
  obtain ⟨i, hi⟩ := List.mem_iff_getElem?.mp hname
  obtain ⟨hlt, -⟩ := List.getElem?_eq_some_iff.mp hi
  rw [← h.values] at hlt
  have hvalue : perf.values[i]? = some perf.values[i] := List.getElem?_eq_getElem hlt
  have hregisters : Registers names
      { perf with values := perf.values.set i (perf.values[i] + UInt64.ofInt n) } :=
    ⟨h.stands, List.length_set.trans h.values, h.nodup⟩
  refine ⟨_, ?_, hregisters, fun name' hname' => ?_⟩
  · unfold perf_inc
    simp only [h.get hi, hvalue, Option.bind_eq_bind, Option.bind_some]
    rfl
  · obtain ⟨j, hj⟩ := List.mem_iff_getElem?.mp hname'
    rw [hregisters.value hj, h.value hj]
    by_cases hij : i = j
    · subst hij
      rw [Option.some.inj (hj.symm.trans hi), hvalue, List.getElem?_set_self hlt]
      simp
    · have hne : name' ≠ name := fun heq =>
        hij ((List.getElem?_inj (List.getElem?_eq_some_iff.mp hi).1 h.nodup).mp
          (hi.trans (heq ▸ hj.symm)))
      simp [List.getElem?_set_ne hij, hne]

theorem Registers.run (h : Registers names perf) {calls : List (List Char × Int)}
    (hcalls : ∀ call ∈ calls, call.1 ∈ names) : ∃ perf', perf_run calls perf = some perf' ∧
      Registers names perf' ∧ ∀ name ∈ names, perf_get perf' name =
        (perf_get perf name).map fun value => value + UInt64.ofInt (total name calls) := by
  induction calls generalizing perf with
  | nil => exact ⟨perf, rfl, h, fun name _ => by simp [total, UInt64.ofInt]⟩
  | cons call calls ih =>
    obtain ⟨hcall, hcalls⟩ := List.forall_mem_cons.mp hcalls
    obtain ⟨perf₁, hinc, hregisters, hget⟩ := h.inc hcall call.2
    obtain ⟨perf', hrun, hregisters', hget'⟩ := ih hregisters hcalls
    refine ⟨perf', ?_, hregisters', fun name hname => ?_⟩
    · unfold perf_run at hrun ⊢
      rw [List.foldlM_cons, hinc]
      exact hrun
    · rw [hget' name hname, hget name hname, Option.map_map]
      congr 1
      funext value
      unfold total
      by_cases heq : name = call.1
      · rw [List.filter_cons_of_pos (by simp [heq])]
        simp [heq, add_assoc]
      · rw [List.filter_cons_of_neg (by simpa using fun h => heq h.symm)]
        simp [heq]

theorem perf_run_spec (fuel : Nat) (hnodup : names.Nodup) (hlen : 2 ≤ names.length)
    {calls : List (List Char × Int)} (hcalls : ∀ call ∈ calls, call.1 ∈ names) :
    ∃ perf₀ perf, perf_init (fuel + 2) names = some perf₀ ∧ perf_run calls perf₀ = some perf ∧
      Registers names perf ∧
      ∀ name ∈ names, perf_get perf name = some (UInt64.ofInt (total name calls)) := by
  obtain ⟨perf₀, hinit, hregisters, hvalues⟩ := perf_init_spec fuel hnodup hlen
  obtain ⟨perf, hrun, hregisters', hget⟩ := hregisters.run hcalls
  refine ⟨perf₀, perf, hinit, hrun, hregisters', fun name hname => ?_⟩
  obtain ⟨i, hi⟩ := List.mem_iff_getElem?.mp hname
  obtain ⟨hlt, -⟩ := List.getElem?_eq_some_iff.mp hi
  rw [hget name hname, hregisters.value hi, hvalues, List.getElem?_replicate, if_pos hlt]
  simp

/-- Over any calls with names that are registered, each counter is the sum of what it was told, modulo
2^64, and a name that is not registered is a failed `ensure`. -/
theorem perf_counts_every_call (fuel : Nat) (hnodup : names.Nodup) (hlen : 2 ≤ names.length)
    {calls : List (List Char × Int)} (hcalls : ∀ call ∈ calls, call.1 ∈ names) :
    ∃ perf₀ perf, perf_init (fuel + 2) names = some perf₀ ∧ perf_run calls perf₀ = some perf ∧
      (∀ name ∈ names, perf_get perf name = some (UInt64.ofInt (total name calls))) ∧
      ∀ name ∉ names, perf_get perf name = none ∧ ∀ n, perf_inc perf name n = none := by
  obtain ⟨perf₀, perf, hinit, hrun, hregisters, hget⟩ := perf_run_spec fuel hnodup hlen hcalls
  refine ⟨perf₀, perf, hinit, hrun, hget, fun name hname => ⟨?_, fun n => ?_⟩⟩
  · unfold perf_get
    rw [hregisters.get_none hname]
    rfl
  · unfold perf_inc
    rw [hregisters.get_none hname]
    rfl

theorem perf_counts_every_call_two : ∃ perf₀ perf,
    perf_init 2 [['a'], ['b']] = some perf₀ ∧ perf_run [(['b'], 2), (['a'], -1), (['b'], 3)] perf₀ = some perf ∧
    (∀ name ∈ [['a'], ['b']], perf_get perf name =
      some (UInt64.ofInt (total name [(['b'], 2), (['a'], -1), (['b'], 3)]))) ∧
    ∀ name ∉ [['a'], ['b']], perf_get perf name = none ∧ ∀ n, perf_inc perf name n = none :=
  perf_counts_every_call 0 (by decide) (by decide) (by decide)

end

/-! ## The counters of the tunnel -/

theorem counter_name_inj {c c' : nt_fec.counter} (h : counter_name c = counter_name c') : c = c' := by
  revert h
  cases c <;> cases c' <;> decide

theorem total_counter (name : nt_fec.counter) (calls : List (nt_fec.counter × Nat)) (perf : nt_fec.perf_t) :
    (perf name : Int) + total (counter_name name) (calls.map fun c => (counter_name c.1, (c.2 : Int))) =
      calls.foldl (fun perf c => nt_fec.perf_inc perf c.1 c.2) perf name := by
  induction calls generalizing perf with
  | nil => simp [total]
  | cons call calls ih =>
    rw [List.foldl_cons, ← ih]
    unfold total
    by_cases h : call.1 = name
    · rw [List.map_cons, List.filter_cons_of_pos (by simp [h])]
      simp [h, nt_fec.perf_inc, add_assoc]
    · rw [List.map_cons, List.filter_cons_of_neg (by simpa using fun heq => h (counter_name_inj heq))]
      simp [nt_fec.perf_inc, Function.update_of_ne (Ne.symm h)]

/-- The table counts modulo 2^64 what the model of the tunnel counts in a function. -/
theorem the_table_counts_for_the_tunnel (fuel : Nat) (calls : List (nt_fec.counter × Nat)) :
    ∃ perf₀ perf, perf_init (fuel + 2) nt_counter_names = some perf₀ ∧
      perf_run (calls.map fun c => (counter_name c.1, (c.2 : Int))) perf₀ = some perf ∧
      ∀ name, perf_get perf (counter_name name) = some (UInt64.ofNat
        (calls.foldl (fun perf c => nt_fec.perf_inc perf c.1 c.2) (fun _ => 0) name)) := by
  have hmem : ∀ name, counter_name name ∈ nt_counter_names := by
    intro name
    cases name <;> decide
  have hcalls : ∀ call ∈ calls.map fun c => (counter_name c.1, (c.2 : Int)),
      call.1 ∈ nt_counter_names := List.forall_mem_map.mpr fun c _ => hmem c.1
  obtain ⟨perf₀, perf, hinit, hrun, -, hget⟩ := perf_run_spec fuel
    (by decide +kernel : nt_counter_names.Nodup) (by decide) hcalls
  refine ⟨perf₀, perf, hinit, hrun, fun name => ?_⟩
  have htotal := total_counter name calls fun _ => 0
  rw [Nat.cast_zero, zero_add] at htotal
  rw [hget _ (hmem name), htotal]
  refine congrArg some (UInt64.toNat_inj.mp ?_)
  rw [UInt64.ofInt, UInt64.toNat_ofNat', UInt64.toNat_ofNat']
  omega

/-! ## The report -/

/-- The report of counters in an order. -/
def report (order : List (List Char)) (value : List Char → UInt64) : List (List Char) :=
  ['['] :: (order.map fun name => counter_text name (value name)).intersperse [',', ' '] ++ [[']']]

section

variable {names : List (List Char)} {perf : perf_t}

theorem iterate_nil_iff {fuel iter : Nat} {visited : List (List Char × Nat)}
    (h : hashmap_iterate perf.counters fuel iter = some visited) :
    visited = [] ↔ iter = hashmap_end perf.counters := by
  unfold hashmap_iterate at h
  split at h
  · next hend =>
    obtain rfl := Option.some.inj h
    exact ⟨fun _ => hend, fun _ => rfl⟩
  · next hne =>
    refine ⟨fun hnil => ?_, fun hend => absurd hend hne⟩
    subst hnil
    cases fuel with
    | zero => cases h
    | succ fuel => simp [Option.bind_eq_some_iff] at h

/-- The loop of the report visits what every loop over the table visits. -/
theorem sbuilder_perf_loop_eq {value : List Char → UInt64} {fuel iter : Nat} {builder : sbuilder_t}
    {visited : List (List Char × Nat)} (h : hashmap_iterate perf.counters fuel iter = some visited)
    (hvalue : ∀ b ∈ visited, perf.values[b.2]? = some (value b.1)) :
    sbuilder_perf_loop perf fuel iter builder = some (sbuilder_format_all builder
      ((visited.map fun b => counter_text b.1 (value b.1)).intersperse [',', ' '])) := by
  induction fuel generalizing iter builder visited with
  | zero =>
    unfold hashmap_iterate at h
    unfold sbuilder_perf_loop
    split at h
    · next hend =>
      obtain rfl := Option.some.inj h
      rw [if_pos hend]
      rfl
    · cases h
  | succ fuel ih =>
    unfold hashmap_iterate at h
    unfold sbuilder_perf_loop
    split at h
    · next hend =>
      obtain rfl := Option.some.inj h
      rw [if_pos hend]
      rfl
    · next hne =>
      simp only [Option.bind_eq_bind, Option.bind_eq_some_iff] at h
      obtain ⟨⟨iter', name, counter⟩, hnext, rest, hrest, heq⟩ := h
      obtain rfl := Option.some.inj heq
      obtain ⟨hone, hothers⟩ := List.forall_mem_cons.mp hvalue
      rw [if_neg hne]
      simp only [hnext, hone, Option.bind_eq_bind, Option.bind_some]
      rw [ih hrest hothers]
      have hlast := iterate_nil_iff hrest
      cases rest with
      | nil =>
        rw [if_neg (not_not.mpr (hlast.mp rfl))]
        rfl
      | cons b rest =>
        have hmore : iter' ≠ hashmap_end perf.counters := fun hend => by cases hlast.mpr hend
        rw [if_pos hmore]
        rfl

/-- The report is the text of every counter once. -/
theorem sbuilder_perf_spec (h : Registers names perf) {value : List Char → UInt64}
    (hvalue : ∀ name ∈ names, perf_get perf name = some (value name)) (builder : sbuilder_t) :
    ∃ order fits, order.Perm names ∧ sbuilder_perf builder perf =
      some (fits, sbuilder_format_all builder (report order value)) := by
  obtain ⟨map, hstands, hperm⟩ := h.stands
  obtain ⟨visited, hvisited, hvisits⟩ := hstands.shows.visits
  have hbound : ∀ b ∈ visited, perf.values[b.2]? = some (value b.1) := by
    intro b hb
    have hmem := List.mem_zipIdx_iff_getElem?.mp (hperm.mem_iff.mp (hvisits.mem_iff.mp hb))
    rw [← h.value hmem]
    exact hvalue b.1 (List.mem_of_getElem? hmem)
  refine ⟨visited.map Prod.fst, ?_⟩
  have horder : (visited.map Prod.fst).Perm names := by
    have hnames := (hvisits.trans hperm).map Prod.fst
    rwa [List.zipIdx_map_fst] at hnames
  unfold sbuilder_perf
  simp only [sbuilder_perf_loop_eq hvisited hbound, Option.bind_eq_bind, Option.bind_some]
  refine ⟨_, horder, congrArg some (Prod.ext rfl ?_)⟩
  rw [report, List.map_map]
  exact (sbuilder_format_all_snoc builder (['['] :: _) [']']).symm

end

/-! ## Its length -/

theorem counter_text_length (name : List Char) (value : UInt64) :
    (counter_text name value).length ≤ name.length + 66 := by
  have hdigits : (Nat.toDigits 10 value.toNat).length ≤ 20 :=
    Nat.toDigits_length 10 _ 20 (by norm_num) (value.toNat_lt.trans (by norm_num))
  unfold counter_text
  simp only [List.length_append]
  have hrest : "\x7b\"metric\":\"".toList.length = 11 ∧ "\",\"value\":".toList.length = 10 ∧
      ",\"counterType\":\"COUNTER\"\x7d".toList.length = 25 := by decide
  omega

theorem intersperse_length (texts : List (List Char)) :
    (texts.intersperse [',', ' ']).flatten.length ≤ (texts.map fun text => text.length + 2).sum := by
  induction texts with
  | nil => simp
  | cons text texts ih =>
    cases texts with
    | nil => simp
    | cons text' texts =>
      simp only [List.intersperse_cons_cons, List.flatten_cons, List.length_append, List.map_cons,
        List.sum_cons, List.length_cons, List.length_nil] at ih ⊢
      omega

/-- A text that is short enough is never cut. -/
theorem never_cut_of_short {capacity : Nat} {texts : List (List Char)}
    (h : texts.flatten.length < capacity) : NeverCut capacity texts := by
  rintro begun text rest rfl -
  simp only [List.flatten_append, List.flatten_cons, List.length_append] at h
  omega

theorem report_length {order : List (List Char)} (value : List Char → UInt64)
    (h : order.Perm nt_counter_names) : (report order value).flatten.length < 4096 := by
  have htexts := intersperse_length (order.map fun name => counter_text name (value name))
  have hsum : (order.map fun name => (counter_text name (value name)).length + 2).sum ≤
      (order.map fun name => name.length + 68).sum :=
    List.sum_le_sum fun name _ => by
      have := counter_text_length name (value name)
      omega
  have hnames : (order.map fun name => name.length + 68).sum = 3032 := by
    rw [(h.map fun name => name.length + 68).sum_eq]
    decide
  rw [List.map_map] at htexts
  have hall := htexts.trans hsum
  rw [hnames] at hall
  unfold report
  simp only [List.flatten_cons, List.flatten_append, List.length_append, List.flatten_nil, List.length_cons,
    List.length_nil]
  omega

/-- Whatever the counters have been told, the reporter answers the command `perf`, and no other, with
the whole text of every counter once. -/
theorem every_counter_is_reported (fuel : Nat) (calls : List (List Char × Int))
    (hcalls : ∀ call ∈ calls, call.1 ∈ nt_counter_names) {buf : List Char} (hbuf : buf.length = 4096)
    (datagram : List UInt8) :
    ∃ perf₀ perf order, perf_init (fuel + 2) nt_counter_names = some perf₀ ∧
      perf_run calls perf₀ = some perf ∧ order.Perm nt_counter_names ∧
      udp_handle_read perf buf datagram =
        some (if command datagram = [112, 101, 114, 102] then
          some (report order fun name => UInt64.ofInt (total name calls)).flatten else none) := by
  have hnodup : nt_counter_names.Nodup := by decide +kernel
  have hlen : 2 ≤ nt_counter_names.length := by decide
  obtain ⟨perf₀, perf, hinit, hrun, hregisters, hget⟩ := perf_run_spec fuel hnodup hlen hcalls
  obtain ⟨order, fits, horder, hreport⟩ :=
    sbuilder_perf_spec hregisters hget (sbuilder_reset (sbuilder_init buf 4096))
  refine ⟨perf₀, perf, order, hinit, hrun, horder, ?_⟩
  unfold udp_handle_read
  split
  · have hshort := report_length (fun name => UInt64.ofInt (total name calls)) horder
    have hkept := sbuilder_format_all_kept (sbuilder_reset_kept (sbuilder_init buf 4096)
      (Nat.one_le_ofNat : 1 ≤ 4096) hbuf) _ [] (by rw [List.append_nil]; exact never_cut_of_short hshort)
    rw [hreport]
    refine congrArg some (congrArg some ?_)
    exact (hkept.holds (Nat.one_le_ofNat : 1 ≤ 4096)).whole (by rw [hkept.capacity_eq]; exact hshort)
  · rfl

/-- Some bytes were sent, and a client asks. -/
theorem every_counter_is_reported_one : ∃ perf₀ perf order,
    perf_init 2 nt_counter_names = some perf₀ ∧
    perf_run [("nt-TUN_SENT".toList, 1), ("nt-TUN_SENT_BYTES".toList, 30)] perf₀ = some perf ∧
    order.Perm nt_counter_names ∧
    udp_handle_read perf (List.replicate 4096 '?') [112, 101, 114, 102, 10] = some (some
      (report order fun name => UInt64.ofInt
        (total name [("nt-TUN_SENT".toList, 1), ("nt-TUN_SENT_BYTES".toList, 30)])).flatten) := by
  have hcommand : command [112, 101, 114, 102, 10] = [112, 101, 114, 102] := by decide
  obtain ⟨perf₀, perf, order, hinit, hrun, horder, hanswer⟩ := every_counter_is_reported 0
    [("nt-TUN_SENT".toList, 1), ("nt-TUN_SENT_BYTES".toList, 30)] (by decide)
    (List.length_replicate (a := '?')) [112, 101, 114, 102, 10]
  rw [if_pos hcommand] at hanswer
  exact ⟨perf₀, perf, order, hinit, hrun, horder, hanswer⟩

end nettle.perf
