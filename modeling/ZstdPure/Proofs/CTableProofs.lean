import ZstdPure.Proofs.FseProofs

/-!
# FSE encoding tables

The encoding table of some counts inverts the decoding table of the same counts: from a state of
the decoder, `encode_symbol` writes the bits that bring the decoder back to it.
-/

namespace ZstdPure.Encode

open Fse

/-! ## Starts -/

/-- The number of states before those of symbol `s`. -/
theorem getD_cumul {counts : List Int} {s : Nat} (h : s ≤ counts.length) :
    (cumul counts).getD s 0 = ((counts.take s).map Int.natAbs).sum := by
  have hfold : ∀ (l : List Int) (n : Nat),
      l.foldl (fun n c => n + states c) n = n + (l.map Int.natAbs).sum := by
    intro l
    induction l with
    | nil => intro n; rfl
    | cons c l ih =>
      intro n
      rw [List.foldl_cons, ih, List.map_cons, List.sum_cons, states]
      omega
  rw [cumul, List.getD_eq_getElem?_getD, List.getElem?_scanl, if_pos (by omega), hfold]
  simp

/-- The states of a symbol come before those of a later one. -/
theorem cumul_add_le {counts : List Int} {s t : Nat} (hst : s < t) (ht : t ≤ counts.length) :
    (cumul counts).getD s 0 + (counts.getD s 0).natAbs ≤ (cumul counts).getD t 0 := by
  rw [getD_cumul (by omega), getD_cumul ht]
  have hs : (counts.take (s + 1)) = counts.take s ++ [counts.getD s 0] := by
    rw [List.take_succ_eq_append_getElem (by omega), List.getD_eq_getElem _ _ (by omega)]
  have hsplit : counts.take t = counts.take (s + 1) ++ (counts.take t).drop (s + 1) := by
    have htake := List.take_append_drop (s + 1) (counts.take t)
    rw [List.take_take, Nat.min_eq_left (by omega)] at htake
    exact htake.symm
  rw [hsplit, hs]
  simp only [List.map_append, List.map_cons, List.map_nil, List.sum_append, List.sum_cons,
    List.sum_nil]
  omega

/-! ## `fill_states` -/

/-- The slot of `state_table` that the position `u` goes to. -/
def slot_of (starts symbols : List Nat) (u : Nat) : Nat :=
  starts.getD (symbols.getD u 0) 0 + (symbols.take u).count (symbols.getD u 0)

/-- One iteration of the loop of `fill_states`. -/
def fill_step (size : Nat) (st : List Nat × List Nat) (c : Nat × Nat) : List Nat × List Nat :=
  (st.1.set (st.2.getD c.1 0) (size + c.2), st.2.modify c.1 (· + 1))

/-- The loop of `fill_states`, when no two positions share a slot. -/
theorem fill_states_spec {size : Nat} {symbols starts : List Nat}
    (hsym : ∀ s ∈ symbols, s < starts.length)
    (hslot : ∀ u, u < symbols.length → slot_of starts symbols u < size)
    (hinj : ∀ u v, u < v → v < symbols.length → slot_of starts symbols u ≠ slot_of starts symbols
      v) :
    ∀ u, u < symbols.length →
      (fill_states size symbols starts).getD (slot_of starts symbols u) 0 = size + u := by
  have hrun : ∀ n, n ≤ symbols.length →
      let st := ((symbols.take n).zipIdx).foldl (fill_step size) (List.replicate size 0, starts)
      st.1.length = size ∧ st.2.length = starts.length ∧
        (∀ s, s < starts.length → st.2.getD s 0 = starts.getD s 0 + (symbols.take n).count s) ∧
        ∀ u, u < n → st.1.getD (slot_of starts symbols u) 0 = size + u := by
    intro n
    induction n with
    | zero =>
      intro _
      refine ⟨by simp, by simp, fun s _ => by simp, fun u hu => by omega⟩
    | succ n ih =>
      intro hn
      obtain ⟨hl1, hl2, hcum, htbl⟩ := ih (by omega)
      have htake : symbols.take (n + 1) = symbols.take n ++ [symbols.getD n 0] := by
        rw [List.take_succ_eq_append_getElem (by omega), List.getD_eq_getElem _ _ (by omega)]
      have hmem : symbols.getD n 0 < starts.length := by
        apply hsym
        rw [List.getD_eq_getElem _ _ (by omega)]
        exact List.getElem_mem _
      generalize ha : symbols.getD n 0 = a at htake hmem
      dsimp only
      rw [htake, List.zipIdx_append, List.foldl_append]
      set st := ((symbols.take n).zipIdx).foldl (fill_step size) (List.replicate size 0, starts)
        with hst
      have hidx : (0 + (symbols.take n).length) = n := by
        rw [List.length_take]
        omega
      rw [hidx, List.zipIdx_singleton, List.foldl_cons, List.foldl_nil, fill_step]
      dsimp only
      have hpos : st.2.getD a 0 = slot_of starts symbols n := by
        rw [slot_of, ha]
        exact hcum a hmem
      refine ⟨by rw [List.length_set, hl1], by rw [List.length_modify, hl2], ?_, ?_⟩
      · intro s hs
        obtain ⟨x, hx⟩ : ∃ x, st.2[s]? = some x := ⟨_, List.getElem?_eq_getElem (by omega)⟩
        have hcs := hcum s hs
        rw [List.getD_eq_getElem?_getD, hx] at hcs
        rw [List.getD_eq_getElem?_getD, List.getElem?_modify, hx, List.count_append,
          ← Nat.add_assoc, ← hcs]
        by_cases he : a = s
        · simp [he]
        · simp [he]
      · intro u hu
        rw [hpos]
        by_cases he : u = n
        · subst he
          rw [List.getD_eq_getElem?_getD,
            List.getElem?_set_self (by rw [hl1]; exact hslot _ (by omega))]
          rfl
        · rw [List.getD_eq_getElem?_getD,
            List.getElem?_set_ne (hinj u n (by omega) (by omega)).symm,
            ← List.getD_eq_getElem?_getD]
          exact htbl u (by omega)
  intro u hu
  obtain ⟨-, -, -, htbl⟩ := hrun symbols.length le_rfl
  rw [List.take_length] at htbl
  exact htbl u hu

/-! ## The transform of one symbol -/

section Transform

variable {table_log st total : Nat} {c : Int}

/-- A symbol of count `c` shifts a state so that `c` to `2 * c - 1` are left. -/
theorem shifted_state {c m : Nat} (h2 : 2 ≤ c) (hc : c ≤ 2 ^ table_log)
    (hm : m = table_log - Nat.log2 (c - 1)) (hge : 2 ^ table_log ≤ st)
    (hlt : st < 2 * 2 ^ table_log) :
    1 ≤ m ∧ m ≤ table_log ∧ c * 2 ^ m ≤ 2 * 2 ^ table_log ∧
      (c * 2 ^ m ≤ st → c ≤ st / 2 ^ m ∧ st / 2 ^ m < 2 * c) ∧
      (st < c * 2 ^ m → c ≤ st / 2 ^ (m - 1) ∧ st / 2 ^ (m - 1) < 2 * c) := by
  have hlow : 2 ^ Nat.log2 (c - 1) ≤ c - 1 := Nat.log2_self_le (by omega)
  have hhigh : c - 1 < 2 ^ (Nat.log2 (c - 1) + 1) := Nat.lt_log2_self
  generalize Nat.log2 (c - 1) = h at *
  have hlog : h < table_log := by
    rw [← Nat.pow_lt_pow_iff_right (by decide : 1 < 2)]
    omega
  obtain ⟨k, rfl⟩ : ∃ k, m = k + 1 := ⟨m - 1, by omega⟩
  have hsize : 2 ^ table_log = 2 ^ h * 2 ^ (k + 1) := by
    rw [← pow_add]
    congr 1
    omega
  have hp : 0 < 2 ^ (k + 1) := by positivity
  have hq : 0 < 2 ^ k := by positivity
  have hdouble : (2 : Nat) ^ (k + 1) = 2 * 2 ^ k := by rw [pow_succ, Nat.mul_comm]
  refine ⟨by omega, by omega, ?_, ?_, ?_⟩
  · rw [hsize, ← Nat.mul_assoc]
    apply Nat.mul_le_mul_right
    rw [pow_succ] at hhigh
    omega
  · intro hbig
    constructor
    · rw [Nat.le_div_iff_mul_le hp]
      exact hbig
    · rw [Nat.div_lt_iff_lt_mul hp]
      calc st < 2 * (2 ^ h * 2 ^ (k + 1)) := by rw [← hsize]; exact hlt
        _ = 2 * 2 ^ h * 2 ^ (k + 1) := by ring
        _ ≤ 2 * c * 2 ^ (k + 1) := Nat.mul_le_mul_right _ (by omega)
  · intro hsmall
    rw [Nat.add_sub_cancel]
    constructor
    · rw [Nat.le_div_iff_mul_le hq]
      calc c * 2 ^ k ≤ 2 ^ (h + 1) * 2 ^ k := Nat.mul_le_mul_right _ (by omega)
        _ = 2 ^ h * 2 ^ (k + 1) := by rw [hdouble, pow_succ]; ring
        _ ≤ st := by rw [← hsize]; exact hge
    · rw [Nat.div_lt_iff_lt_mul hq]
      calc st < c * 2 ^ (k + 1) := hsmall
        _ = 2 * c * 2 ^ k := by rw [hdouble]; ring

theorem symbol_transform_find (h0 : c ≠ 0) (hge : -1 ≤ c) :
    (symbol_transform table_log c total).2 = total - c.natAbs := by
  unfold symbol_transform
  dsimp only
  rw [if_neg h0]
  split_ifs with h1
  · rcases h1 with rfl | rfl <;> rfl
  · simp only
    omega

theorem two_pow_cast (n : Nat) : (2 : Int) ^ n = ((2 ^ n : Nat) : Int) := by push_cast; rfl

theorem asU32_of_eq {x : Int} {n : Nat} (h : x = n) (hn : n < 2 ^ 32) : asU32 x = n := by
  rw [h, asU32_natCast hn]

/-- The number of bits that a state gives up before a symbol. -/
theorem symbol_transform_bits (h0 : c ≠ 0) (hge : -1 ≤ c) (hc : c.natAbs ≤ 2 ^ table_log)
    (hlog : table_log ≤ 14) (hst : 2 ^ table_log ≤ st) (hlt : st < 2 * 2 ^ table_log) :
    ∃ nb, asU32 ((st + (symbol_transform table_log c total).1) / 2 ^ 16) = nb ∧ nb ≤ table_log ∧
      c.natAbs ≤ st / 2 ^ nb ∧ st / 2 ^ nb < 2 * c.natAbs := by
  have h14 : 2 ^ table_log ≤ 2 ^ 14 := Nat.pow_le_pow_right (by decide) hlog
  unfold symbol_transform
  dsimp only
  rw [if_neg h0]
  split_ifs with h1
  · have habs : c.natAbs = 1 := by omega
    refine ⟨table_log, asU32_of_eq ?_ (by omega), le_rfl, ?_⟩
    · rw [two_pow_cast table_log]
      generalize 2 ^ table_log = size at *
      omega
    · rw [habs, Nat.le_div_iff_mul_le (by positivity), Nat.div_lt_iff_lt_mul (by positivity)]
      omega
  · have habs : c.natAbs = c.toNat := by omega
    rw [habs] at hc ⊢
    obtain ⟨hm1, hml, hfit, hbig, hsmall⟩ := shifted_state (by omega : 2 ≤ c.toNat) hc rfl hst hlt
    simp only [highbit, Nat.shiftLeft_eq]
    generalize table_log - Nat.log2 (c.toNat - 1) = m at *
    by_cases hle : c.toNat * 2 ^ m ≤ st
    · refine ⟨m, asU32_of_eq ?_ (by omega), hml, hbig hle⟩
      generalize c.toNat * 2 ^ m = shifted at *
      generalize 2 ^ table_log = size at *
      omega
    · refine ⟨m - 1, asU32_of_eq ?_ (by omega), by omega, hsmall (by omega)⟩
      generalize c.toNat * 2 ^ m = shifted at *
      generalize 2 ^ table_log = size at *
      omega

/-- The state that `init_state2` starts from has the value `c`. -/
theorem symbol_transform_start (h0 : c ≠ 0) (hge : -1 ≤ c) (hc : c.natAbs ≤ 2 ^ table_log)
    (hlog : table_log ≤ 13) :
    asU32 ((asU32 (((symbol_transform table_log c total).1 + 2 ^ 15) / 2 ^ 16) * 2 ^ 16 : Nat)
        - (symbol_transform table_log c total).1)
      >>> asU32 (((symbol_transform table_log c total).1 + 2 ^ 15) / 2 ^ 16) = c.natAbs := by
  have h13 : 2 ^ table_log ≤ 2 ^ 13 := Nat.pow_le_pow_right (by decide) hlog
  have hpos : 0 < 2 ^ table_log := by positivity
  unfold symbol_transform
  dsimp only
  rw [if_neg h0]
  split_ifs with h1
  · have habs : c.natAbs = 1 := by omega
    have hnb : asU32 (((table_log * 2 ^ 16 : Nat) - (2 : Int) ^ table_log + 2 ^ 15) / 2 ^ 16)
        = table_log := by
      apply asU32_of_eq _ (by omega)
      rw [two_pow_cast table_log]
      generalize 2 ^ table_log = size at *
      omega
    have hvalue : ((table_log * 2 ^ 16 : Nat) : Int) -
      ((table_log * 2 ^ 16 : Nat) - (2 : Int) ^ table_log)
        = ((2 ^ table_log : Nat) : Int) := by
      rw [two_pow_cast table_log]
      omega
    rw [hnb, asU32_of_eq hvalue (by omega), Nat.shiftRight_eq_div_pow, Nat.div_self hpos, habs]
  · have habs : c.natAbs = c.toNat := by omega
    rw [habs] at hc ⊢
    obtain ⟨hm1, hml, hfit, -, -⟩ := shifted_state (by omega : 2 ≤ c.toNat) hc rfl
      (le_refl (2 ^ table_log)) (by omega)
    simp only [highbit, Nat.shiftLeft_eq]
    generalize table_log - Nat.log2 (c.toNat - 1) = m at *
    have hnb : asU32 (((m * 2 ^ 16 : Nat) - ((c.toNat * 2 ^ m : Nat) : Int) + 2 ^ 15) / 2 ^ 16)
        = m := by
      apply asU32_of_eq _ (by omega)
      generalize c.toNat * 2 ^ m = shifted at *
      generalize 2 ^ table_log = size at *
      omega
    have hvalue : ((m * 2 ^ 16 : Nat) : Int) -
      ((m * 2 ^ 16 : Nat) - ((c.toNat * 2 ^ m : Nat) : Int))
        = ((c.toNat * 2 ^ m : Nat) : Int) := by omega
    rw [hnb, asU32_of_eq hvalue (by omega), Nat.shiftRight_eq_div_pow,
      Nat.mul_div_cancel _ (by positivity)]

end Transform

/-! ## `build_ctable` inverts `build_dtable` -/

/-- `ct` encodes what `dt` decodes, for the symbols with a count. The states of `ct` are those of
`dt`, above `2 ^ table_log`. -/
structure Inverts (counts : List Int) (ct : FseCTable) (dt : FseDecodeTable) : Prop where
  log : ct.table_log = dt.table_log
  log_le : dt.table_log ≤ 9
  present : ∀ s, ct.present.getD s false = true ↔ counts.getD s 0 ≠ 0
  start : ∀ s, counts.getD s 0 ≠ 0 → ∃ u < 2 ^ dt.table_log,
    ct.init_state2 s = 2 ^ dt.table_log + u ∧
      dt.entries[u]? = some (value_entry dt.table_log (counts.getD s 0).natAbs s)
  step : ∀ s v, counts.getD s 0 ≠ 0 → v < 2 ^ dt.table_log → ∃ u < 2 ^ dt.table_log, ∃ nb base,
    ct.nb_bits_out (2 ^ dt.table_log + v) s = nb ∧ nb ≤ dt.table_log ∧
      ct.next_state (2 ^ dt.table_log + v) s = 2 ^ dt.table_log + u ∧
      dt.entries[u]? = some ⟨s, nb, base⟩ ∧ base + (2 ^ dt.table_log + v) % 2 ^ nb = v

open Outcome in
/-- The entry of a state in range. -/
theorem entry_of {dt : FseDecodeTable} {u : Nat} {e : FseEntry} (h9 : dt.table_log ≤ 9)
    (hu : u < 2 ^ dt.table_log)
    (he : dt.entries[u]? = some e) : entry u dt = .ok e := by
  obtain ⟨hlt, hget⟩ := List.getElem?_eq_some_iff.mp he
  have h512 : 2 ^ dt.table_log ≤ 2 ^ 9 := Nat.pow_le_pow_right (by decide) h9
  have hmod : u % FSE_DTABLE_SIZE = u := Nat.mod_eq_of_lt (lt_of_lt_of_le hu h512)
  rw [entry, hmod, get_ok hlt, hget]

section Build

variable {norm counts : List Int} {max_symbol table_log : Nat}

/-- The slots of the positions are all different, and in the table. -/
theorem slot_of_spec (h : ValidCounts counts table_log) (hlog : table_log = 0 ∨ 4 ≤ table_log)
    (h64 : table_log < 64) :
    (∀ s ∈ (table_symbol counts table_log).1, s < (cumul counts).length) ∧
    (∀ u, u < (table_symbol counts table_log).1.length →
      slot_of (cumul counts) (table_symbol counts table_log).1 u < 2 ^ table_log) ∧
    ∀ u v, u < v → v < (table_symbol counts table_log).1.length →
      slot_of (cumul counts) (table_symbol counts table_log).1 u
        ≠ slot_of (cumul counts) (table_symbol counts table_log).1 v := by
  obtain ⟨-, hlen, hcount⟩ := table_symbol_spec h hlog h64
  generalize (table_symbol counts table_log).1 = symbols at *
  have hlt : ∀ s ∈ symbols, s < counts.length := by
    intro s hs
    have hpos := List.count_pos_iff.mpr hs
    rw [hcount] at hpos
    by_contra hc
    rw [List.getD_eq_default _ _ (by omega)] at hpos
    simp at hpos
  have hget : ∀ u, u < symbols.length → symbols.getD u 0 ∈ symbols := by
    intro u hu
    rw [List.getD_eq_getElem _ _ hu]
    exact List.getElem_mem hu
  have hbelow : ∀ u, u < symbols.length →
      (symbols.take u).count (symbols.getD u 0) < (counts.getD (symbols.getD u 0) 0).natAbs := by
    intro u hu
    rw [← hcount]
    exact List.count_take_lt hu
  have hend : ∀ s < counts.length,
      (cumul counts).getD s 0 + (counts.getD s 0).natAbs ≤ 2 ^ table_log := by
    intro s hs
    have hle := cumul_add_le hs le_rfl
    rw [getD_cumul le_rfl, List.take_length, h.sum] at hle
    exact hle
  refine ⟨?_, ?_, ?_⟩
  · intro s hs
    have hs' := hlt s hs
    rw [cumul, List.length_scanl]
    omega
  · intro u hu
    have h1 := hbelow u hu
    have h2 := hend _ (hlt _ (hget u hu))
    unfold slot_of
    omega
  · intro u v huv hv
    have hu : u < symbols.length := by omega
    have h1 := hbelow u hu
    have h2 := hbelow v hv
    unfold slot_of
    rcases Nat.lt_trichotomy (symbols.getD u 0) (symbols.getD v 0) with hs | hs | hs
    · have h3 := cumul_add_le hs (hlt _ (hget v hv)).le
      omega
    · have hc := List.count_take_lt_of_lt (d := 0) huv hv.le
      rw [← hs]
      omega
    · have h3 := cumul_add_le hs (hlt _ (hget u hu)).le
      omega

/-- The state with value `x` of a symbol of count `c`, for `c ≤ x < 2 * c`. -/
theorem ctable_state (h : ValidCounts counts table_log) (hlog : table_log = 0 ∨ 4 ≤ table_log)
    (h64 : table_log < 64) {s x : Nat} (hx : (counts.getD s 0).natAbs ≤ x)
    (hx2 : x < 2 * (counts.getD s 0).natAbs) :
    ∃ u < 2 ^ table_log,
      (fill_states (2 ^ table_log) (table_symbol counts table_log).1 (cumul counts)).getD
          ((cumul counts).getD s 0 + (x - (counts.getD s 0).natAbs)) 0 = 2 ^ table_log + u ∧
        (dtable counts table_log).entries[u]? = some (value_entry table_log x s) := by
  obtain ⟨-, hlen, hcount⟩ := table_symbol_spec h hlog h64
  obtain ⟨hsym, hslot, hinj⟩ := slot_of_spec h hlog h64
  obtain ⟨u, hu, hs, hc⟩ := List.exists_occurrence 0
    (by rw [hcount]; omega : x - (counts.getD s 0).natAbs < (table_symbol counts table_log).1.count
      s)
  have hfill := fill_states_spec hsym hslot hinj u hu
  rw [slot_of, hs, hc] at hfill
  refine ⟨u, by omega, hfill, ?_⟩
  have hvalue : position_value counts (table_symbol counts table_log).1 u = x := by
    rw [position_value, hs, hc]
    omega
  rw [dtable]
  dsimp only
  rw [List.getElem?_append_left (by simpa using (by omega : u < 2 ^ table_log)), List.getElem?_map,
    List.getElem?_range (by omega), Option.map_some, hvalue, hs]

theorem getD_transform {s : Nat} (hs : s < counts.length) :
    (((counts.zip (cumul counts)).map fun c => symbol_transform table_log c.1 c.2).map
      Prod.fst).getD
        s 0 = (symbol_transform table_log (counts.getD s 0) ((cumul counts).getD s 0)).1 ∧
      (((counts.zip (cumul counts)).map fun c => symbol_transform table_log c.1 c.2).map
        Prod.snd).getD s 0
        = (symbol_transform table_log (counts.getD s 0) ((cumul counts).getD s 0)).2 := by
  have hc : s < (cumul counts).length := by
    rw [cumul, List.length_scanl]
    omega
  simp [List.getD_eq_getElem?_getD, List.getElem?_zipWith, List.getElem?_eq_getElem hs,
    List.getElem?_eq_getElem hc, List.zip]

/-- The value that is left of a state determines the bits it gave up. -/
theorem log2_shifted {st nb : Nat} (hnb : nb ≤ table_log) (hge : 2 ^ table_log ≤ st)
    (hlt : st < 2 * 2 ^ table_log) : Nat.log2 (st / 2 ^ nb) = table_log - nb := by
  have hp : 0 < 2 ^ nb := by positivity
  have hsplit : 2 ^ table_log = 2 ^ (table_log - nb) * 2 ^ nb := by
    rw [← pow_add]
    congr 1
    omega
  rw [Nat.log2_eq_iff]
  · constructor
    · rw [Nat.le_div_iff_mul_le hp, ← hsplit]
      exact hge
    · rw [Nat.div_lt_iff_lt_mul hp, pow_succ]
      calc st < 2 * 2 ^ table_log := hlt
        _ = 2 ^ (table_log - nb) * 2 * 2 ^ nb := by rw [hsplit]; ring
  · have hdiv : 2 ^ (table_log - nb) ≤ st / 2 ^ nb := by
      rw [Nat.le_div_iff_mul_le hp, ← hsplit]
      exact hge
    have hpos : 0 < 2 ^ (table_log - nb) := by positivity
    omega

/-- The number of states of a symbol that has one. -/
theorem count_range (h : ValidCounts counts table_log) {s : Nat} (hs : counts.getD s 0 ≠ 0) :
    s < counts.length ∧ -1 ≤ counts.getD s 0 ∧ (counts.getD s 0).natAbs ≤ 2 ^ table_log := by
  have hlt : s < counts.length := by
    by_contra hc
    exact hs (List.getD_eq_default _ _ (by omega))
  have hmem : counts.getD s 0 ∈ counts := by
    rw [List.getD_eq_getElem _ _ hlt]
    exact List.getElem_mem _
  refine ⟨hlt, h.ge _ hmem, ?_⟩
  rw [← h.sum]
  exact List.single_le_sum (by simp) _ (List.mem_map_of_mem hmem)

/-- The slot of `state_table` that `init_state2` looks up. -/
def FseCTable.start_index (t : FseCTable) (symbol : Nat) : Int :=
  let dnb := t.delta_nb_bits.getD symbol 0
  let nb_bits_out := asU32 ((dnb + 2 ^ 15) / 2 ^ 16)
  let value := asU32 ((nb_bits_out * 2 ^ 16 : Nat) - dnb)
  (value >>> nb_bits_out : Nat) + t.delta_find_state.getD symbol 0

/-- The slot of `state_table` that `encode_symbol` looks up. -/
def FseCTable.next_index (t : FseCTable) (st symbol : Nat) : Int :=
  (st >>> t.nb_bits_out st symbol : Nat) + t.delta_find_state.getD symbol 0

theorem FseCTable.init_state2_eq (t : FseCTable) (symbol : Nat) :
    t.init_state2 symbol = t.state_table.getD (t.start_index symbol).toNat 0 := rfl

theorem FseCTable.next_state_eq (t : FseCTable) (st symbol : Nat) :
    t.next_state st symbol = t.state_table.getD (t.next_index st symbol).toNat 0 := rfl

/-- The first slot of a symbol is the one it starts from. -/
theorem start_index_spec (hcounts : norm.take (max_symbol + 1) = counts)
    (h : ValidCounts counts table_log) (h9 : table_log ≤ 9) {s : Nat} (hs : counts.getD s 0 ≠ 0) :
    (build_ctable norm max_symbol table_log).start_index s =
      (((cumul counts).getD s 0 : Nat) : Int) := by
  obtain ⟨hlt, hge, hle⟩ := count_range h hs
  obtain ⟨htr1, htr2⟩ := @getD_transform counts table_log s hlt
  unfold build_ctable FseCTable.start_index
  dsimp only
  rw [hcounts, htr1, htr2, symbol_transform_start hs hge hle (by omega),
    symbol_transform_find hs hge]
  omega

/-- The slot that follows the state `2 ^ table_log + v`, and the bits the state gives up. -/
theorem next_index_spec (hcounts : norm.take (max_symbol + 1) = counts)
    (h : ValidCounts counts table_log) (h9 : table_log ≤ 9) {s v : Nat}
    (hs : counts.getD s 0 ≠ 0) (hv : v < 2 ^ table_log) :
    ∃ nb, (build_ctable norm max_symbol table_log).nb_bits_out (2 ^ table_log + v) s = nb ∧
      nb ≤ table_log ∧ (counts.getD s 0).natAbs ≤ (2 ^ table_log + v) / 2 ^ nb ∧
      (2 ^ table_log + v) / 2 ^ nb < 2 * (counts.getD s 0).natAbs ∧
      (build_ctable norm max_symbol table_log).next_index (2 ^ table_log + v) s
        = (((cumul counts).getD s 0
            + ((2 ^ table_log + v) / 2 ^ nb - (counts.getD s 0).natAbs) : Nat) : Int) := by
  obtain ⟨hlt, hge, hle⟩ := count_range h hs
  obtain ⟨htr1, htr2⟩ := @getD_transform counts table_log s hlt
  obtain ⟨nb, hbits, hnb, hx, hx2⟩ := @symbol_transform_bits table_log (2 ^ table_log + v)
    ((cumul counts).getD s 0) _ hs hge hle (by omega) (by omega) (by omega)
  have hout : (build_ctable norm max_symbol table_log).nb_bits_out (2 ^ table_log + v) s = nb := by
    unfold build_ctable FseCTable.nb_bits_out
    dsimp only
    rw [hcounts, htr1]
    exact hbits
  refine ⟨nb, hout, hnb, hx, hx2, ?_⟩
  unfold FseCTable.next_index
  rw [hout]
  unfold build_ctable
  dsimp only
  rw [hcounts, htr2, symbol_transform_find hs hge, Nat.shiftRight_eq_div_pow]
  omega

/-- The encoding table and the decoding table of the same counts. -/
theorem build_ctable_inverts (hcounts : norm.take (max_symbol + 1) = counts)
    (h : ValidCounts counts table_log) (hlog : table_log = 0 ∨ 4 ≤ table_log)
    (h9 : table_log ≤ 9) :
    Inverts counts (build_ctable norm max_symbol table_log) (dtable counts table_log) := by
  have hstates : (build_ctable norm max_symbol table_log).state_table
      = fill_states (2 ^ table_log) (table_symbol counts table_log).1 (cumul counts) := by
    unfold build_ctable
    dsimp only
    rw [hcounts]
  refine ⟨rfl, h9, ?_, ?_, ?_⟩
  · intro s
    unfold build_ctable
    dsimp only
    rw [hcounts]
    by_cases hs : s < counts.length
    · rw [List.getD_eq_getElem _ _ (by simpa using hs), List.getD_eq_getElem _ _ hs]
      simp
    · rw [List.getD_eq_default _ _ (by simpa using hs), List.getD_eq_default _ _ (by omega)]
      simp
  · intro s hs
    obtain ⟨u, hu, hstate, hentry⟩ := ctable_state h hlog (by omega)
      (le_refl (counts.getD s 0).natAbs) (by omega)
    rw [Nat.sub_self, Nat.add_zero] at hstate
    refine ⟨u, hu, ?_, hentry⟩
    rw [FseCTable.init_state2_eq, start_index_spec hcounts h h9 hs, hstates]
    exact hstate
  · intro s v hs hv
    rw [show (dtable counts table_log).table_log = table_log from rfl] at hv ⊢
    obtain ⟨nb, hout, hnb, hx, hx2, hidx⟩ := next_index_spec hcounts h h9 hs hv
    obtain ⟨u, hu, hstate, hentry⟩ := ctable_state h hlog (by omega) hx hx2
    have hlog2 := log2_shifted hnb (by omega : 2 ^ table_log ≤ 2 ^ table_log + v)
      (by omega)
    -- the decoder adds the bits that were given up to the shifted state
    have hbase : (2 ^ table_log + v) / 2 ^ nb * 2 ^ nb - 2 ^ table_log + (2 ^ table_log + v) % 2 ^
      nb
        = v := by
      have hdiv := Nat.div_add_mod (2 ^ table_log + v) (2 ^ nb)
      have hge : 2 ^ table_log ≤ (2 ^ table_log + v) / 2 ^ nb * 2 ^ nb := by
        have hsplit : 2 ^ table_log = 2 ^ (table_log - nb) * 2 ^ nb := by
          rw [← pow_add]
          congr 1
          omega
        conv_lhs => rw [hsplit]
        apply Nat.mul_le_mul_right
        rw [Nat.le_div_iff_mul_le (by positivity), ← hsplit]
        omega
      rw [Nat.mul_comm] at hdiv
      omega
    refine ⟨u, hu, nb, _, hout, hnb, ?_, ?_, hbase⟩
    · rw [FseCTable.next_state_eq, hidx, hstates]
      exact hstate
    · rw [hentry, value_entry, hlog2, Nat.sub_sub_self hnb]

end Build

end ZstdPure.Encode
