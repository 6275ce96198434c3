import ZstdPure.Proofs.SpreadProofs
import ZstdPure.Proofs.BitsProofs
import ZstdPure.Lib.Occurrence

/-!
# FSE decoding tables

`build_dtable` of valid counts is the table `dtable`: the position `u` with the `k`-th occurrence
of a symbol of count `c` holds the entry of the value `c + k`.
-/

namespace ZstdPure.Fse

open Outcome Encode Orbit

/-- The entry of the state value `x` of symbol `s`. -/
def value_entry (table_log x s : Nat) : FseEntry :=
  ⟨s, table_log - Nat.log2 x, x * 2 ^ (table_log - Nat.log2 x) - 2 ^ table_log⟩

/-- The state value at position `u` of a table with these symbols. -/
def position_value (counts : List Int) (symbols : List Nat) (u : Nat) : Nat :=
  (counts.getD (symbols.getD u 0) 0).natAbs + (symbols.take u).count (symbols.getD u 0)

/-- The decoding table of the given counts. -/
def dtable (counts : List Int) (table_log : Nat) : FseDecodeTable :=
  let symbols := (table_symbol counts table_log).1
  ⟨table_log, (List.range (2 ^ table_log)).map (fun u =>
      value_entry table_log (position_value counts symbols u) (symbols.getD u 0)) ++
    List.replicate (FSE_DTABLE_SIZE - 2 ^ table_log) FseEntry.zero⟩

/-! ## The two placing loops -/

section Place

variable {table_log step high : Nat}

theorem step_pos_ok {mask pos : Nat} (h : pos + step < 2 ^ 64) :
    step_pos step mask pos = .ok ((pos + step) &&& mask) := by
  rw [step_pos, add_ok h]; rfl

/-- The loop of `place_one` walks to the next position at most `high`. -/
theorem walk_loop_ok (hsmall : 2 ^ table_log + step < 2 ^ 64) (n : Nat) :
    ∀ m pos, n < m → pos < 2 ^ table_log →
      (∃ j ≤ n, (walk step (2 ^ table_log - 1))^[j + 1] pos ≤ high) →
      loop (fun p => decide (high < p)) (step_pos step (2 ^ table_log - 1)) m
          ((pos + step) &&& (2 ^ table_log - 1))
        = .ok (next_pos step (2 ^ table_log - 1) high n pos) := by
  induction n with
  | zero =>
    rintro m pos - - ⟨j, hj, hh⟩
    obtain rfl : j = 0 := by omega
    rw [loop_of_not (by simpa [walk] using hh)]; rfl
  | succ n ih =>
    rintro m pos hm hpos ⟨j, hj, hh⟩
    obtain ⟨m, rfl⟩ : ∃ k, m = k + 1 := ⟨m - 1, by omega⟩
    rw [next_pos]
    by_cases hc : high < (pos + step) &&& (2 ^ table_log - 1)
    · have hlt : (pos + step) &&& (2 ^ table_log - 1) < 2 ^ table_log := walk_lt pos
      rw [loop_succ_of (by simpa using hc), step_pos_ok (by omega), bind_ok, if_pos hc]
      refine ih m _ (by omega) hlt ?_
      rcases j with _ | j
      · exact absurd hh (by simpa [walk] using hc)
      · exact ⟨j, by omega, by rwa [Function.iterate_succ_apply] at hh⟩
    · rw [loop_of_not (by simpa using hc), if_neg hc]

theorem iterate_walk (j pos : Nat) (hpos : pos < 2 ^ table_log) :
    (walk step (2 ^ table_log - 1))^[j] pos = (pos + j * step) % 2 ^ table_log := by
  induction j with
  | zero => simp [Nat.mod_eq_of_lt hpos]
  | succ j ih => rw [Function.iterate_succ_apply', ih, walk_eq, Nat.add_mul]; simp [Nat.add_assoc]

/-- From every position the walk reaches the start. -/
theorem exists_walk_zero (hc : Nat.Coprime step (2 ^ table_log)) {pos : Nat}
    (hpos : pos < 2 ^ table_log) :
    ∃ j ≤ 2 ^ table_log - 1, (walk step (2 ^ table_log - 1))^[j + 1] pos = 0 := by
  by_cases h0 : pos = 0
  · refine ⟨2 ^ table_log - 1, le_rfl, ?_⟩
    rw [iterate_walk _ _ hpos, Nat.sub_add_cancel Nat.one_le_two_pow, h0]; simp
  · obtain ⟨i, hi, he⟩ := exists_pos_eq hc (r := 2 ^ table_log - pos) (by omega)
    rcases i with _ | j
    · rw [Orbit.pos_zero] at he; omega
    · refine ⟨j, by omega, ?_⟩
      rw [iterate_walk _ _ hpos, Nat.add_mod, show (j + 1) * step % 2 ^ table_log
        = 2 ^ table_log - pos from he, Nat.mod_eq_of_lt hpos, Nat.add_sub_cancel' (by omega),
        Nat.mod_self]

theorem place_one_ok (hc : Nat.Coprime step (2 ^ table_log))
    (hsmall : 2 ^ table_log + step < 2 ^ 64) {st : List Nat × Nat} (s : Nat)
    (hl : st.1.length = 2 ^ table_log) (hp : st.2 < 2 ^ table_log) :
    place_one step (2 ^ table_log - 1) high s st
      = .ok (place step (2 ^ table_log - 1) high st s) := by
  obtain ⟨j, hj, h0⟩ := exists_walk_zero hc hp
  rw [place_one, set_ok (by omega), bind_ok, step_pos_ok (by omega), bind_ok,
    walk_loop_ok hsmall (2 ^ table_log - 1) _ _ (by omega) hp ⟨j, hj, by omega⟩]
  rfl

theorem place_lt {mask : Nat} (st : List Nat × Nat) (s : Nat) (hm : mask = 2 ^ table_log - 1) :
    (place step mask high st s).2 < 2 ^ table_log := by
  subst hm
  suffices h : ∀ n pos, next_pos step (2 ^ table_log - 1) high n pos < 2 ^ table_log from h _ _
  intro n
  induction n with
  | zero => exact walk_lt
  | succ n ih =>
    intro pos
    rw [next_pos]
    split_ifs
    · exact ih _
    · exact walk_lt pos

theorem place_symbol_ok (high : Nat) (hc : Nat.Coprime step (2 ^ table_log))
    (hsmall : 2 ^ table_log + step < 2 ^ 64) {st : List Nat × Nat} (c : Int × Nat)
    (hl : st.1.length = 2 ^ table_log) (hp : st.2 < 2 ^ table_log) :
    place_symbol step (2 ^ table_log - 1) high st c
        = .ok (spread_symbol step (2 ^ table_log - 1) high st c) ∧
      (spread_symbol step (2 ^ table_log - 1) high st c).1.length = 2 ^ table_log ∧
      (spread_symbol step (2 ^ table_log - 1) high st c).2 < 2 ^ table_log := by
  have htimes : ∀ n (st : List Nat × Nat), st.1.length = 2 ^ table_log → st.2 < 2 ^ table_log →
      times (place_one step (2 ^ table_log - 1) high c.2) n st
        = .ok ((List.replicate n c.2).foldl (place step (2 ^ table_log - 1) high) st) ∧
      ((List.replicate n c.2).foldl (place step (2 ^ table_log - 1) high) st).1.length
        = 2 ^ table_log ∧
      ((List.replicate n c.2).foldl (place step (2 ^ table_log - 1) high) st).2
        < 2 ^ table_log := by
    intro n
    induction n with
    | zero => intro st hl hp; exact ⟨rfl, hl, hp⟩
    | succ n ih =>
      intro st hl hp
      rw [times, place_one_ok hc hsmall c.2 hl hp, bind_ok, List.replicate_succ, List.foldl_cons]
      exact ih _ (by simpa [place] using hl) (place_lt st c.2 rfl)
  rw [spread_symbol_eq, place_symbol]
  split_ifs with h0
  · rw [Int.toNat_of_nonpos h0]; exact ⟨rfl, hl, hp⟩
  · exact htimes _ st hl hp

theorem foldlM_place_symbol (high : Nat) (hc : Nat.Coprime step (2 ^ table_log))
    (hsmall : 2 ^ table_log + step < 2 ^ 64) (cs : List (Int × Nat)) (st : List Nat × Nat)
    (hl : st.1.length = 2 ^ table_log) (hp : st.2 < 2 ^ table_log) :
    cs.foldlM (place_symbol step (2 ^ table_log - 1) high) st
      = (.ok (cs.foldl (spread_symbol step (2 ^ table_log - 1) high) st) : Res _) := by
  induction cs generalizing st with
  | nil => rfl
  | cons c cs ih =>
    obtain ⟨h₁, h₂, h₃⟩ := place_symbol_ok high hc hsmall c hl hp
    rw [List.foldlM_cons, h₁, bind_ok, List.foldl_cons]
    exact ih _ h₂ h₃

end Place

/-- The first loop of `build_dtable` records the number of states of every symbol. -/
theorem foldlM_place_low {size : Nat} (h64 : size < 2 ^ 64) (counts : List Int) (k : Nat)
    (placed : List Nat) (st : LowState) (hge : ∀ c ∈ counts, -1 ≤ c)
    (hsmall : ∀ c ∈ counts, c.natAbs < 2 ^ 16) (hk : k + counts.length ≤ 256)
    (hlow : Lowered size placed (st.symbols, st.high_threshold))
    (hp : placed.length + (lows counts k).length ≤ size)
    (hn : st.symbol_next.length = k + counts.length) :
    (counts.zipIdx k).foldlM place_low st
      = (.ok ⟨((counts.zipIdx k).foldl spread_low (st.symbols, st.high_threshold)).1,
          st.symbol_next.take k ++ counts.map Int.natAbs,
          ((counts.zipIdx k).foldl spread_low (st.symbols, st.high_threshold)).2⟩ : Res _) := by
  induction counts generalizing k placed st with
  | nil =>
    rw [List.take_of_length_le (by simp at hn; omega)]
    simp
  | cons c counts ih =>
    rw [List.length_cons] at hk hn
    have hc := hge c (by simp)
    have hs := hsmall c (by simp)
    have hset : ∀ x : Nat, (st.symbol_next.set k x).take (k + 1) = st.symbol_next.take k ++
      [x] := by
      intro x
      rw [List.take_add_one, List.take_set_of_le le_rfl, List.getElem?_set_self (by omega)]
      rfl
    rw [lows_cons] at hp
    rw [List.zipIdx_cons, List.foldlM_cons, List.foldl_cons]
    by_cases h1 : c = -1
    · rw [if_pos h1, List.length_append, List.length_singleton] at hp
      obtain ⟨hh, hnext⟩ := hlow.place (s := k) (by omega) h64 (by omega)
      have hlen : st.symbols.length = size := hlow.length
      have hh : st.high_threshold = size - placed.length - 1 := hh
      have hstep : (place_low st (c, k) : Res _) = .ok ⟨st.symbols.set st.high_threshold (k % 256),
          st.symbol_next.set k 1, (st.high_threshold + (2 ^ 64 - 1)) % 2 ^ 64⟩ := by
        rw [place_low, if_pos h1, set_ok (by omega), bind_ok, set_ok (by simp only; omega), bind_ok]
        rfl
      rw [hstep, bind_ok, ih (k + 1) (placed ++ [k]) _ (fun c hc => hge c (by simp [hc]))
        (fun c hc => hsmall c (by simp [hc])) (by omega) hnext
        (by rw [List.length_append, List.length_singleton]; omega)
        (by rw [List.length_set]; omega)]
      simp only [hset, spread_low, h1, if_true, List.map_cons, List.append_assoc]
      rfl
    · rw [if_neg h1, List.nil_append] at hp
      have hmod : (max c 0).toNat % 2 ^ 16 = c.natAbs := by omega
      have hstep : (place_low st (c, k) : Res _)
          = .ok { st with symbol_next := st.symbol_next.set k c.natAbs } := by
        rw [place_low, if_neg h1, set_ok (by simp only; omega), bind_ok, hmod]
        rfl
      rw [hstep, bind_ok, ih (k + 1) placed { st with symbol_next := st.symbol_next.set k c.natAbs }
        (fun c hc => hge c (by simp [hc])) (fun c hc => hsmall c (by simp [hc])) (by omega) hlow hp
        (by rw [List.length_set]; omega)]
      simp only [hset, spread_low, h1, if_false, List.map_cons, List.append_assoc]
      rfl

/-! ## The entries -/

theorem value_entry_bounds {table_log x : Nat} (h1 : 1 ≤ x) (hx : x < 2 ^ (table_log + 1)) :
    Nat.log2 x ≤ table_log ∧ 2 ^ table_log ≤ x * 2 ^ (table_log - Nat.log2 x) ∧
      x * 2 ^ (table_log - Nat.log2 x) + 2 ^ (table_log - Nat.log2 x) ≤ 2 * 2 ^ table_log := by
  have hlog : Nat.log2 x < table_log + 1 := (Nat.log2_lt (by omega)).mpr hx
  have hle : 2 ^ Nat.log2 x ≤ x := Nat.log2_self_le (by omega)
  have hlt : x + 1 ≤ 2 ^ (Nat.log2 x + 1) := Nat.lt_log2_self
  have hpow : 2 ^ table_log = 2 ^ Nat.log2 x * 2 ^ (table_log - Nat.log2 x) := by
    rw [← pow_add, Nat.add_sub_cancel' (by omega)]
  refine ⟨by omega, ?_, ?_⟩
  · rw [hpow]; exact Nat.mul_le_mul_right _ hle
  · calc x * 2 ^ (table_log - Nat.log2 x) + 2 ^ (table_log - Nat.log2 x)
        = (x + 1) * 2 ^ (table_log - Nat.log2 x) := by ring
      _ ≤ 2 ^ (Nat.log2 x + 1) * 2 ^ (table_log - Nat.log2 x) := Nat.mul_le_mul_right _ hlt
      _ = 2 * 2 ^ table_log := by rw [hpow, pow_succ]; ring

/-- One entry of `fill_entries`. -/
theorem fill_entries_cons {table_log s x : Nat} {symbols symbol_next : List Nat}
    (htl : table_log ≤ 14) (hs : symbol_next[s]? = some x) (h1 : 1 ≤ x)
    (hx : x < 2 ^ (table_log + 1)) :
    fill_entries table_log (2 ^ table_log) (s :: symbols) symbol_next
      = fill_entries table_log (2 ^ table_log) symbols (symbol_next.set s (x + 1)) >>= fun rest =>
          (.ok (value_entry table_log x s :: rest) : Res _) := by
  obtain ⟨hlt, hget⟩ := List.getElem?_eq_some_iff.mp hs
  obtain ⟨hlog, hge, hle⟩ := value_entry_bounds h1 hx
  have h15 : 2 ^ (table_log + 1) ≤ 2 ^ 15 := Nat.pow_le_pow_right (by omega) (by omega)
  have hpow : 2 * 2 ^ table_log = 2 ^ (table_log + 1) := by rw [pow_succ]; omega
  have hsmall : x * 2 ^ (table_log - Nat.log2 x) < 2 ^ 32 := by
    have : 0 < 2 ^ (table_log - Nat.log2 x) := by positivity
    omega
  have hbase : (x * 2 ^ (table_log - Nat.log2 x) - 2 ^ table_log) % 2 ^ 16
      = x * 2 ^ (table_log - Nat.log2 x) - 2 ^ table_log := by
    have : 0 < 2 ^ (table_log - Nat.log2 x) := by positivity
    exact Nat.mod_eq_of_lt (by omega)
  rw [fill_entries, get_ok hlt, bind_ok, hget, add_ok (by omega), bind_ok, set_ok hlt, bind_ok,
    highbit32_ok (by omega) (by omega), bind_ok, sub_ok hlog, bind_ok,
    shl_exact (by omega) hsmall, bind_ok, sub_ok hge, bind_ok,
    Nat.mod_eq_of_lt (a := table_log - Nat.log2 x) (by omega), hbase]
  rfl

/-- The entries of the positions `symbols`: the states of a symbol get consecutive values. -/
theorem fill_entries_ok {table_log : Nat} (htl : table_log ≤ 14) (symbols symbol_next : List Nat)
    (h : ∀ s ∈ symbols, ∃ x, symbol_next[s]? = some x ∧ 1 ≤ x ∧
      x + symbols.count s ≤ 2 ^ (table_log + 1)) :
    fill_entries table_log (2 ^ table_log) symbols symbol_next
      = (.ok ((List.range symbols.length).map fun u =>
          value_entry table_log (symbol_next.getD (symbols.getD u 0) 0
            + (symbols.take u).count (symbols.getD u 0)) (symbols.getD u 0)) : Res _) := by
  induction symbols generalizing symbol_next with
  | nil => rfl
  | cons s symbols ih =>
    obtain ⟨x, hx, h1, hle⟩ := h s (by simp)
    rw [List.count_cons_self] at hle
    obtain ⟨hlt, hget⟩ := List.getElem?_eq_some_iff.mp hx
    have hrest : ∀ t ∈ symbols, ∃ y, (symbol_next.set s (x + 1))[t]? = some y ∧ 1 ≤ y ∧
        y + symbols.count t ≤ 2 ^ (table_log + 1) := by
      intro t ht
      by_cases hst : s = t
      · subst hst
        exact ⟨x + 1, List.getElem?_set_self hlt, by omega, by omega⟩
      · obtain ⟨y, hy, hy1, hyle⟩ := h t (by simp [ht])
        rw [List.count_cons_of_ne hst] at hyle
        exact ⟨y, by rw [List.getElem?_set_ne hst, hy], hy1, hyle⟩
    rw [fill_entries_cons htl hx h1 (by omega), ih _ hrest, bind_ok, List.length_cons,
      List.range_succ_eq_map, List.map_cons, List.map_map]
    congr 2
    · simp [List.getD_eq_getElem?_getD, hx]
    · refine List.map_congr_left fun u hu => ?_
      have hu : u < symbols.length := List.mem_range.mp hu
      simp only [Function.comp_apply, Nat.succ_eq_add_one, List.getD_cons_succ, List.take_succ_cons]
      congr 1
      by_cases hst : s = symbols.getD u 0
      · rw [← hst, List.count_cons_self]
        simp [List.getD_eq_getElem?_getD, hx, List.getElem?_set_self hlt]
        omega
      · rw [List.count_cons_of_ne hst]
        simp only [List.getD_eq_getElem?_getD] at hst ⊢
        rw [List.getElem?_set_ne hst]

/-- The counts of a spread give every position a value. -/
theorem symbol_values {counts : List Int} {table_log : Nat} (h : ValidCounts counts table_log)
    (h4 : 4 ≤ table_log) (h64 : table_log < 64) {s : Nat}
    (hs : s ∈ (table_symbol counts table_log).1) :
    ∃ x, (counts.map Int.natAbs)[s]? = some x ∧ 1 ≤ x ∧
      x + (table_symbol counts table_log).1.count s ≤ 2 ^ (table_log + 1) := by
  obtain ⟨-, -, hcount⟩ := table_symbol_spec h (Or.inr h4) h64
  have hpos : 0 < (table_symbol counts table_log).1.count s := List.count_pos_iff.mpr hs
  rw [hcount] at hpos ⊢
  have hlt : s < counts.length := by
    by_contra hge
    rw [List.getD_eq_default _ _ (by omega)] at hpos
    simp at hpos
  rw [List.getD_eq_getElem _ _ hlt] at hpos ⊢
  have hle : counts[s].natAbs ≤ 2 ^ table_log := by
    rw [← h.sum]; exact List.le_sum_of_mem (List.mem_map_of_mem (List.getElem_mem hlt))
  exact ⟨_, by rw [List.getElem?_map, List.getElem?_eq_getElem hlt]; rfl, hpos,
    by rw [pow_succ]; omega⟩

/-- `build_dtable` of valid counts. -/
theorem build_dtable_ok {norm counts : List Int} {max_symbol table_log : Nat}
    (hlen : max_symbol < norm.length) (hcounts : norm.take (max_symbol + 1) = counts)
    (h : ValidCounts counts table_log) (h4 : 4 ≤ table_log) (h9 : table_log ≤ 9) :
    build_dtable norm max_symbol table_log = .ok (dtable counts table_log) := by
  obtain ⟨hpos, hslen, hcount⟩ := table_symbol_spec h (Or.inr h4) (by omega)
  have hc := coprime_step (Or.inr h4)
  have hone := Nat.one_le_two_pow (n := table_log)
  have h512 : 2 ^ table_log ≤ 2 ^ 9 := Nat.pow_le_pow_right (by omega) h9
  have hclen : counts.length = max_symbol + 1 := by rw [← hcounts]; simp; omega
  have h256 := h.length
  have hsmall : ∀ c ∈ counts, c.natAbs ≤ 2 ^ table_log := fun c hc => by
    rw [← h.sum]; exact List.le_sum_of_mem (List.mem_map_of_mem hc)
  have hlen0 := length_lows_order h.ge 0
  rw [h.sum] at hlen0
  have hstep : spread_step (2 ^ table_log) ≤ 2 ^ table_log + 3 := by rw [spread_step]; omega
  have hstart := lowered_start (2 ^ table_log) (by positivity) (by omega)
  have hlow := foldlM_place_low (by omega) counts 0 []
    ⟨List.replicate (2 ^ table_log) 0, List.replicate (max_symbol + 1) 0, 2 ^ table_log - 1⟩ h.ge
    (fun c hc => by have := hsmall c hc; omega) (by omega) hstart (by simp; omega)
    (by rw [List.length_replicate, hclen]; omega)
  have hlowered := lowered_foldl (by omega) (fun s hs => by have := mem_lows_lt hs; omega) hstart
    (show ([] : List Nat).length + (lows counts 0).length ≤ 2 ^ table_log by simp; omega)
  rw [← foldl_spread_low] at hlowered
  have hspread := foldlM_place_symbol
    (counts.zipIdx.foldl spread_low (List.replicate (2 ^ table_log) 0, 2 ^ table_log - 1)).2
    hc (by omega) counts.zipIdx
    ((counts.zipIdx.foldl spread_low (List.replicate (2 ^ table_log) 0, 2 ^ table_log - 1)).1, 0)
    hlowered.length (by positivity)
  have hfill := fill_entries_ok (by omega) _ _ fun s hs => symbol_values h h4 (by omega) hs
  rw [build_dtable, shl_exact (by omega) (by omega), bind_ok, Nat.one_mul, sub_ok hone, bind_ok,
    add_ok (by omega), bind_ok, slice_ok (by omega) (by omega), bind_ok, List.drop_zero, hcounts,
    hlow, bind_ok]
  simp only [List.take_zero, List.nil_append]
  refine (congrArg (· >>= _) hspread).trans ?_
  change (if (table_symbol counts table_log).2 ≠ 0 then _ else _) = _
  rw [if_neg (by rw [hpos]; simp),
    sliceFrom_ok (by rw [List.length_replicate, FSE_DTABLE_SIZE]; omega), bind_ok]
  refine (congrArg (· >>= _) hfill).trans ?_
  rw [bind_ok, hslen, List.drop_replicate, dtable]
  congr 3
  refine List.map_congr_left fun u hu => ?_
  rw [position_value]
  congr 2
  simp only [List.getD_eq_getElem?_getD, List.getElem?_map]
  cases counts[(table_symbol counts table_log).1[u]?.getD 0]? <;> rfl

/-! ## Validity -/

/-- What the decoding loops need of a table: no entry leads outside it. -/
structure FseDecodeTable.Valid (t : FseDecodeTable) : Prop where
  log : t.table_log ≤ 9
  length : t.entries.length = FSE_DTABLE_SIZE
  entry : ∀ e ∈ t.entries, e.num_bits ≤ t.table_log ∧
    e.new_state_base + 2 ^ e.num_bits ≤ 2 ^ t.table_log

theorem position_value_bounds {counts : List Int} {table_log u : Nat}
    (h : ValidCounts counts table_log) (h4 : 4 ≤ table_log) (h64 : table_log < 64)
    (hu : u < 2 ^ table_log) :
    1 ≤ position_value counts (table_symbol counts table_log).1 u ∧
      position_value counts (table_symbol counts table_log).1 u < 2 ^ (table_log + 1) := by
  obtain ⟨-, hslen, -⟩ := table_symbol_spec h (Or.inr h4) h64
  have hlt : u < (table_symbol counts table_log).1.length := by omega
  obtain ⟨x, hx, h1, hle⟩ := symbol_values h h4 h64 (List.getElem_mem hlt)
  have hx : (counts.getD (table_symbol counts table_log).1[u] 0).natAbs = x := by
    rw [List.getElem?_map, Option.map_eq_some_iff] at hx
    obtain ⟨c, hc, rfl⟩ := hx
    rw [List.getD_eq_getElem?_getD, hc]; rfl
  have hcount := List.count_take_lt (d := 0) hlt
  rw [List.getD_eq_getElem _ _ hlt] at hcount
  rw [position_value, List.getD_eq_getElem _ _ hlt, hx]
  omega

theorem dtable_valid {counts : List Int} {table_log : Nat} (h : ValidCounts counts table_log)
    (h4 : 4 ≤ table_log) (h9 : table_log ≤ 9) : (dtable counts table_log).Valid := by
  have h512 : 2 ^ table_log ≤ 2 ^ 9 := Nat.pow_le_pow_right (by omega) h9
  refine ⟨h9, ?_, ?_⟩
  · simp only [dtable, List.length_append, List.length_map, List.length_range,
      List.length_replicate, FSE_DTABLE_SIZE]
    omega
  · intro e he
    rcases List.mem_append.mp he with he | he
    · obtain ⟨u, hu, rfl⟩ := List.mem_map.mp he
      obtain ⟨h1, hx⟩ := position_value_bounds h h4 (by omega) (List.mem_range.mp hu)
      obtain ⟨hlog, hge, hle⟩ := value_entry_bounds h1 hx
      refine ⟨Nat.sub_le _ _, ?_⟩
      simp only [value_entry, dtable]
      omega
    · rw [List.eq_of_mem_replicate he]
      exact ⟨Nat.zero_le _, by simpa [FseEntry.zero] using Nat.one_le_two_pow⟩

end ZstdPure.Fse
