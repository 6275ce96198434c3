import ZstdPure.Encode.Fse
import ZstdPure.Lib.Orbit

/-!
# The symbol spread

The decoder's `build_dtable` and the encoder's `build_ctable` spread the symbols of a table over
its positions in the same way. Every symbol gets as many positions as its count says.
-/

namespace ZstdPure.Encode

open Outcome Fse Orbit

/-- Normalized counts of a table with `2 ^ table_log` positions. -/
structure ValidCounts (counts : List Int) (table_log : Nat) : Prop where
  length : counts.length ≤ 256
  ge : ∀ c ∈ counts, -1 ≤ c
  sum : (counts.map Int.natAbs).sum = 2 ^ table_log

/-- The step of the walk over the positions of a table. -/
def spread_step (size : Nat) : Nat := size / 2 + size / 8 + 3

theorem coprime_step {table_log : Nat} (h : table_log = 0 ∨ 4 ≤ table_log) :
    Nat.Coprime (spread_step (2 ^ table_log)) (2 ^ table_log) := by
  rcases h with rfl | h
  · simp
  · refine Nat.Coprime.pow_right _ (Nat.coprime_two_right.mpr ?_)
    obtain ⟨k, rfl⟩ := Nat.exists_eq_add_of_le h
    have h2 : 2 ^ (4 + k) = 16 * 2 ^ k := by rw [pow_add]; rfl
    rw [spread_step, h2, Nat.odd_iff]
    omega

section Walk

variable {table_log step high : Nat}

/-- One step of the walk. -/
def walk (step mask pos : Nat) : Nat := (pos + step) &&& mask

theorem walk_eq (pos : Nat) : walk step (2 ^ table_log - 1) pos = (pos + step) % 2 ^ table_log :=
  Nat.and_two_pow_sub_one_eq_mod _ _

theorem walk_lt (pos : Nat) : walk step (2 ^ table_log - 1) pos < 2 ^ table_log := by
  rw [walk_eq]; exact Nat.mod_lt _ (by positivity)

theorem walk_pos (table_log step i : Nat) :
    walk step (2 ^ table_log - 1) (Orbit.pos (2 ^ table_log) step i) =
      Orbit.pos (2 ^ table_log) step (i + 1) := by
  rw [walk_eq, Orbit.pos_succ]

/-- The walk goes on to the next position at most `high`. -/
theorem next_pos_pos (n i j : Nat) (hij : i < j) (hn : j ≤ i + 1 + n)
    (hj : Orbit.pos (2 ^ table_log) step j ≤ high)
    (hk : ∀ k, i < k → k < j → high < Orbit.pos (2 ^ table_log) step k) :
    next_pos step (2 ^ table_log - 1) high n (Orbit.pos (2 ^ table_log) step i)
      = Orbit.pos (2 ^ table_log) step j := by
  induction n generalizing i with
  | zero =>
    obtain rfl : j = i + 1 := by omega
    exact walk_pos _ _ i
  | succ n ih =>
    have hw := walk_pos table_log step i
    simp only [walk] at hw
    rw [next_pos]
    simp only [hw]
    rcases Nat.lt_or_ge (i + 1) j with h | h
    · rw [if_pos (hk _ (by omega) h)]
      exact ih (i + 1) h (by omega) fun k h₁ h₂ => hk k (by omega) h₂
    · obtain rfl : j = i + 1 := by omega
      rw [if_neg (by omega)]

end Walk

/-! ## Placing symbols -/

/-- One occurrence of `s`. -/
def place (step mask high : Nat) (st : List Nat × Nat) (s : Nat) : List Nat × Nat :=
  (st.1.set st.2 (s % 256), next_pos step mask high mask st.2)

theorem spread_symbol_eq (step mask high : Nat) (st : List Nat × Nat) (c : Int × Nat) :
    spread_symbol step mask high st c
      = (List.replicate c.1.toNat c.2).foldl (place step mask high) st := by
  rw [spread_symbol]
  generalize c.1.toNat = n
  induction n generalizing st with
  | zero => rfl
  | succ n ih => rw [Function.iterate_succ_apply, ih, List.replicate_succ, List.foldl_cons]; rfl

theorem count_lt (m n : Nat) (h : m ≤ n) : Nat.count (· < m) n = m := by
  rw [count_eq_of_forall_not (· < m) h fun k h₁ _ => by omega]
  exact Nat.count_iff_forall.mpr fun k hk => hk

/-- The state after placing the symbols `placed` in the `free` lowest positions of `tbl`. -/
structure Walked (size step free : Nat) (tbl placed : List Nat) (st : List Nat × Nat) (i : Nat) :
    Prop where
  le : i ≤ size
  pos : st.2 = Orbit.pos size step i
  lt : Orbit.pos size step i < free
  length : st.1.length = size
  count : Nat.count (fun k => Orbit.pos size step k < free) i = placed.length
  symbols : ∀ s, Nat.count (fun k => Orbit.pos size step k < free ∧
    st.1.getD (Orbit.pos size step k) 0 = s) i = placed.count s
  frame : ∀ u, free ≤ u → st.1.getD u 0 = tbl.getD u 0

theorem walked_start {size step free : Nat} {tbl : List Nat} (hf : 0 < free)
    (hl : tbl.length = size) : Walked size step free tbl [] (tbl, 0) 0 :=
  ⟨by omega, by simp, by simpa, hl, by simp, by simp, fun _ _ => rfl⟩

theorem Walked.place {table_log step free s i : Nat} {tbl placed : List Nat} {st : List Nat × Nat}
    (hc : Nat.Coprime step (2 ^ table_log)) (hf : free ≤ 2 ^ table_log) (hs : s < 256)
    (h : Walked (2 ^ table_log) step free tbl placed st i) (hp : placed.length < free) :
    ∃ j, Walked (2 ^ table_log) step free tbl (placed ++ [s])
      (place step (2 ^ table_log - 1) (free - 1) st s) j := by
  have hpos := h.pos
  have htotal : Nat.count (fun k => Orbit.pos (2 ^ table_log) step k < free) (2 ^ table_log)
      = free := (count_pos hc (· < free)).trans (count_lt _ _ hf)
  have hi : i < 2 ^ table_log := by
    rcases Nat.lt_or_ge i (2 ^ table_log) with hi | hi
    · exact hi
    · have hcount := h.count
      rw [Nat.le_antisymm h.le hi, htotal] at hcount
      omega
  -- the next free position of the walk
  have hex : ∃ j, i < j ∧ Orbit.pos (2 ^ table_log) step j < free :=
    ⟨_, hi, by rw [pos_self]; omega⟩
  obtain ⟨hij, hj⟩ := Nat.find_spec hex
  have hmin : ∀ k, i < k → k < Nat.find hex → ¬ Orbit.pos (2 ^ table_log) step k < free :=
    fun k h₁ h₂ h₃ => Nat.find_min hex h₂ ⟨h₁, h₃⟩
  have hle : Nat.find hex ≤ 2 ^ table_log := Nat.find_min' hex ⟨hi, by rw [pos_self]; omega⟩
  have hnext : next_pos step (2 ^ table_log - 1) (free - 1) (2 ^ table_log - 1)
      (Orbit.pos (2 ^ table_log) step i) = Orbit.pos (2 ^ table_log) step (Nat.find hex) :=
    next_pos_pos _ i _ hij (by omega) (by omega) fun k h₁ h₂ => by
      have := hmin k h₁ h₂; omega
  have hlt : Orbit.pos (2 ^ table_log) step i < st.1.length := by
    rw [h.length]; exact pos_lt (by positivity) i
  refine ⟨Nat.find hex, hle, ?_, hj, ?_, ?_, ?_, ?_⟩
  · rw [Encode.place, hpos]; exact hnext
  · simp [Encode.place, h.length]
  · rw [count_eq_of_forall_not _ hij (fun k h₁ h₂ => hmin k (by omega) h₂), Nat.count_succ,
      if_pos h.lt, h.count]
    simp
  · intro x
    rw [count_eq_of_forall_not _ hij (fun k h₁ h₂ hk => hmin k (by omega) h₂ hk.1), Nat.count_succ,
      List.count_append, ← h.symbols x]
    have hmod : s % 256 = s := Nat.mod_eq_of_lt hs
    congr 1
    · -- the positions visited before keep their symbols
      rw [Nat.count_eq_card_filter_range, Nat.count_eq_card_filter_range]
      congr 1
      refine Finset.filter_congr fun k hk => ?_
      have hki : k < i := Finset.mem_range.mp hk
      have hne : Orbit.pos (2 ^ table_log) step i ≠ Orbit.pos (2 ^ table_log) step k := fun e =>
        absurd (pos_injOn hc (by simpa using hi) (by simp; omega) e) (by omega)
      rw [Encode.place, hpos]
      simp only [List.getD_eq_getElem?_getD]
      rw [List.getElem?_set_ne hne]
    · have hget : (Encode.place step (2 ^ table_log - 1) (free - 1) st s).1.getD
          (Orbit.pos (2 ^ table_log) step i) 0 = s := by
        rw [Encode.place, hpos]
        simp [List.getD_eq_getElem?_getD, List.getElem?_set_self hlt, hmod]
      rw [hget]
      by_cases hx : s = x <;> simp [hx, h.lt]
  · intro u hu
    rw [← h.frame u hu, Encode.place, hpos]
    simp only [List.getD_eq_getElem?_getD]
    rw [List.getElem?_set_ne (by have := h.lt; omega)]

/-! ## The symbols in the order they are placed -/

/-- The symbols with a count of `-1`, from index `k`. -/
def lows (counts : List Int) (k : Nat) : List Nat :=
  ((counts.zipIdx k).filter (fun c => c.1 = -1)).map Prod.snd

/-- The other symbols, as often as their counts say. -/
def order (counts : List Int) (k : Nat) : List Nat :=
  (counts.zipIdx k).flatMap fun c => List.replicate c.1.toNat c.2

theorem lows_cons (c : Int) (counts : List Int) (k : Nat) :
    lows (c :: counts) k = (if c = -1 then [k] else []) ++ lows counts (k + 1) := by
  rw [lows, List.zipIdx_cons, List.filter_cons]
  split_ifs <;> simp_all [lows]

theorem order_cons (c : Int) (counts : List Int) (k : Nat) :
    order (c :: counts) k = List.replicate c.toNat k ++ order counts (k + 1) := by
  rw [order, List.zipIdx_cons, List.flatMap_cons]; rfl

theorem length_lows_order {counts : List Int} (h : ∀ c ∈ counts, -1 ≤ c) (k : Nat) :
    (lows counts k).length + (order counts k).length = (counts.map Int.natAbs).sum := by
  induction counts generalizing k with
  | nil => rfl
  | cons c counts ih =>
    have hc := h c (by simp)
    have ih := ih (fun c hc => h c (by simp [hc])) (k + 1)
    rw [lows_cons, order_cons, List.length_append, List.length_append, List.map_cons, List.sum_cons,
      ← ih, List.length_replicate]
    split_ifs with h1
    · subst h1; simp; omega
    · simp; omega

theorem count_lows_order {counts : List Int} (h : ∀ c ∈ counts, -1 ≤ c) (k s : Nat) :
    (lows counts k).count s + (order counts k).count s
      = if k ≤ s then (counts.getD (s - k) 0).natAbs else 0 := by
  induction counts generalizing k with
  | nil => simp [lows, order]
  | cons c counts ih =>
    have hc := h c (by simp)
    have ih := ih (fun c hc => h c (by simp [hc])) (k + 1)
    have hhead : (if c = -1 then [k] else []).count s + (List.replicate c.toNat k).count s
        = if k = s then c.natAbs else 0 := by
      rw [List.count_replicate]
      by_cases hks : k = s
      · subst hks
        rw [if_pos (beq_self_eq_true k), if_pos rfl]
        split_ifs with h1
        · simp [h1]
        · simp; omega
      · split_ifs <;> simp_all
    rw [lows_cons, order_cons, List.count_append, List.count_append, Nat.add_add_add_comm, hhead,
      ih]
    rcases Nat.lt_trichotomy k s with hlt | rfl | hgt
    · obtain ⟨d, hd⟩ : ∃ d, s - k = d + 1 := ⟨s - k - 1, by omega⟩
      rw [if_neg (by omega), if_pos (by omega), if_pos (by omega), hd, List.getD_cons_succ,
        show s - (k + 1) = d by omega, Nat.zero_add]
    · rw [if_pos rfl, if_neg (by omega), if_pos le_rfl, Nat.sub_self, List.getD_cons_zero,
        Nat.add_zero]
    · rw [if_neg (by omega), if_neg (by omega), if_neg (by omega)]

theorem mem_order_lt {counts : List Int} {k s : Nat} (h : s ∈ order counts k) :
    s < k + counts.length := by
  obtain ⟨c, hc, hs⟩ := List.mem_flatMap.mp h
  rw [List.eq_of_mem_replicate hs]
  exact (List.mem_zipIdx hc).2.1

theorem mem_lows_lt {counts : List Int} {k s : Nat} (h : s ∈ lows counts k) :
    s < k + counts.length := by
  obtain ⟨c, hc, rfl⟩ := List.mem_map.mp h
  exact (List.mem_zipIdx (List.mem_filter.mp hc).1).2.1

theorem foldl_spread_symbol (step mask high k : Nat) (counts : List Int) (st : List Nat × Nat) :
    (counts.zipIdx k).foldl (spread_symbol step mask high) st
      = (order counts k).foldl (place step mask high) st := by
  induction counts generalizing k st with
  | nil => rfl
  | cons c counts ih =>
    rw [List.zipIdx_cons, List.foldl_cons, ih, order_cons, List.foldl_append, spread_symbol_eq]

/-- One symbol placed from the high end. -/
def place_high (st : List Nat × Nat) (s : Nat) : List Nat × Nat :=
  (st.1.set st.2 (s % 256), (st.2 + (2 ^ 64 - 1)) % 2 ^ 64)

theorem foldl_spread_low (k : Nat) (counts : List Int) (st : List Nat × Nat) :
    (counts.zipIdx k).foldl spread_low st = (lows counts k).foldl place_high st := by
  induction counts generalizing k st with
  | nil => rfl
  | cons c counts ih =>
    rw [List.zipIdx_cons, List.foldl_cons, ih, lows_cons, List.foldl_append]
    congr 1
    rw [spread_low]
    split_ifs <;> rfl

/-- The state after placing the symbols `placed` from the high end of `size` positions. -/
structure Lowered (size : Nat) (placed : List Nat) (st : List Nat × Nat) : Prop where
  length : st.1.length = size
  high : st.2 = (size - placed.length + (2 ^ 64 - 1)) % 2 ^ 64
  symbols : ∀ s, Nat.count (fun u => size - placed.length ≤ u ∧ st.1.getD u 0 = s) size
    = placed.count s

theorem lowered_start (size : Nat) (h0 : 0 < size) (hs : size < 2 ^ 64) :
    Lowered size [] (List.replicate size 0, size - 1) := by
  refine ⟨by simp, ?_, fun s => ?_⟩
  · rw [List.length_nil, Nat.sub_zero, show size + (2 ^ 64 - 1) = size - 1 + 2 ^ 64 by omega,
      Nat.add_mod_right, Nat.mod_eq_of_lt (by omega)]
  · rw [List.count_nil, Nat.count_eq_card_filter_range, Finset.card_eq_zero,
      Finset.filter_eq_empty_iff]
    intro u hu
    have := Finset.mem_range.mp hu
    simp only [List.length_nil, Nat.sub_zero, not_and]
    omega

theorem Lowered.place {size s : Nat} {placed : List Nat} {st : List Nat × Nat} (hs : s < 256)
    (h64 : size < 2 ^ 64) (h : Lowered size placed st) (hp : placed.length < size) :
    st.2 = size - placed.length - 1 ∧ Lowered size (placed ++ [s]) (place_high st s) := by
  have hhigh : st.2 = size - placed.length - 1 := by
    rw [h.high, show size - placed.length + (2 ^ 64 - 1) = size - placed.length - 1 +
      2 ^ 64 by omega,
      Nat.add_mod_right, Nat.mod_eq_of_lt (by omega)]
  have hlt : size - placed.length - 1 < st.1.length := by rw [h.length]; omega
  have hmod : s % 256 = s := Nat.mod_eq_of_lt hs
  refine ⟨hhigh, by simp [place_high, h.length], ?_, fun x => ?_⟩
  · simp only [place_high, hhigh, List.length_append, List.length_singleton]
    congr 1
  · -- the count over the positions above the new one is unchanged
    obtain ⟨m, hm⟩ : ∃ m, size = m + (placed.length + 1) := ⟨size - placed.length - 1, by omega⟩
    have hsub : size - placed.length - 1 = m := by omega
    have hold : Nat.count (fun u => size - placed.length ≤ u ∧ st.1.getD u 0 = x) size
        = Nat.count (fun k => st.1.getD (m + 1 + k) 0 = x) placed.length := by
      conv_lhs => rw [hm]
      rw [show m + (placed.length + 1) = m + 1 + placed.length by omega,
        count_add_of_ge _ _ fun u hu => by omega]
      congr 1
      funext k
      simp only [eq_iff_iff, and_iff_right_iff_imp]
      omega
    have hnew : Nat.count (fun u => size - (placed ++ [s]).length ≤ u ∧
          (place_high st s).1.getD u 0 = x) size
        = Nat.count (fun k => (st.1.set m s).getD (m + k) 0 = x) (placed.length + 1) := by
      conv_lhs => rw [hm]
      rw [count_add_of_ge _ _ fun u hu => by simp at hu; omega]
      congr 1
      funext k
      have he : m + (placed.length + 1) - placed.length - 1 = m := by omega
      simp [place_high, hhigh, hmod, hm, he]
    rw [hnew, List.count_append, ← h.symbols x, hold, Nat.count_succ']
    congr 1
    · congr 1
      funext k
      simp only [List.getD_eq_getElem?_getD, show m + (k + 1) = m + 1 + k by omega]
      rw [List.getElem?_set_ne (by omega)]
    · rw [hsub] at hlt
      simp only [List.getD_eq_getElem?_getD, Nat.add_zero, List.getElem?_set_self hlt]
      by_cases hx : s = x <;> simp [hx]

theorem lowered_foldl {size : Nat} {ss placed : List Nat} {st : List Nat × Nat}
    (h64 : size < 2 ^ 64) (hs : ∀ s ∈ ss, s < 256) (h : Lowered size placed st)
    (hp : placed.length + ss.length ≤ size) :
    Lowered size (placed ++ ss) (ss.foldl place_high st) := by
  induction ss generalizing placed st with
  | nil => simpa using h
  | cons s ss ih =>
    rw [List.length_cons] at hp
    have hnext := (h.place (hs s (by simp)) h64 (by omega)).2
    have := ih (fun s hs' => hs s (by simp [hs'])) hnext (by simp; omega)
    simpa using this

theorem walked_foldl {table_log step free i : Nat} {tbl ss placed : List Nat}
    {st : List Nat × Nat} (hc : Nat.Coprime step (2 ^ table_log)) (hf : free ≤ 2 ^ table_log)
    (hs : ∀ s ∈ ss, s < 256) (h : Walked (2 ^ table_log) step free tbl placed st i)
    (hp : placed.length + ss.length ≤ free) :
    ∃ j, Walked (2 ^ table_log) step free tbl (placed ++ ss)
      (ss.foldl (place step (2 ^ table_log - 1) (free - 1)) st) j := by
  induction ss generalizing placed st i with
  | nil => exact ⟨i, by simpa using h⟩
  | cons s ss ih =>
    rw [List.length_cons] at hp
    obtain ⟨j, hj⟩ := h.place hc hf (hs s (by simp)) (by omega)
    obtain ⟨k, hk⟩ := ih (fun s hs' => hs s (by simp [hs'])) hj (by simp; omega)
    exact ⟨k, by simpa using hk⟩

/-- A walk that placed a symbol in every free position is back at the start. -/
theorem Walked.pos_eq_zero {table_log step free i : Nat} {tbl placed : List Nat}
    {st : List Nat × Nat} (hc : Nat.Coprime step (2 ^ table_log)) (hf : free ≤ 2 ^ table_log)
    (h : Walked (2 ^ table_log) step free tbl placed st i) (hp : placed.length = free) :
    i = 2 ^ table_log ∧ st.2 = 0 := by
  have htotal : Nat.count (fun k => Orbit.pos (2 ^ table_log) step k < free) (2 ^ table_log)
      = free := (count_pos hc (· < free)).trans (count_lt _ _ hf)
  have hi : i = 2 ^ table_log := by
    rcases Nat.lt_or_ge i (2 ^ table_log) with hi | hi
    · have hmono := Nat.count_monotone
        (fun k => Orbit.pos (2 ^ table_log) step k < free) (Nat.succ_le_of_lt hi)
      rw [Nat.succ_eq_add_one, Nat.count_succ, if_pos h.lt, h.count, htotal] at hmono
      omega
    · exact Nat.le_antisymm h.le hi
  exact ⟨hi, by rw [h.pos, hi, pos_self]⟩

theorem count_eq_nat_count (l : List Nat) (s : Nat) :
    l.count s = Nat.count (fun u => l.getD u 0 = s) l.length := by
  induction l with
  | nil => rfl
  | cons a l ih =>
    rw [List.length_cons, Nat.count_succ', List.count_cons, ih]
    simp

/-- The spread of valid counts: the walk returns to the start, and every symbol has as many
positions as its count says. -/
theorem table_symbol_spec {counts : List Int} {table_log : Nat} (h : ValidCounts counts table_log)
    (hlog : table_log = 0 ∨ 4 ≤ table_log) (h64 : table_log < 64) :
    (table_symbol counts table_log).2 = 0 ∧
    (table_symbol counts table_log).1.length = 2 ^ table_log ∧
    ∀ s, (table_symbol counts table_log).1.count s = (counts.getD s 0).natAbs := by
  have hc := coprime_step hlog
  have hsize : 2 ^ table_log < 2 ^ 64 := Nat.pow_lt_pow_right (by omega) h64
  have hlow256 : ∀ s ∈ lows counts 0, s < 256 := fun s hs => by
    have := mem_lows_lt hs; have := h.length; omega
  have hord256 : ∀ s ∈ order counts 0, s < 256 := fun s hs => by
    have := mem_order_lt hs; have := h.length; omega
  have hlen := length_lows_order h.ge 0
  rw [h.sum] at hlen
  have hlow := lowered_foldl hsize hlow256 (lowered_start _ (by positivity) hsize) (by simp; omega)
  rw [List.nil_append] at hlow
  rw [table_symbol, foldl_spread_symbol, foldl_spread_low]
  generalize (lows counts 0).foldl place_high (List.replicate (2 ^ table_log) 0, 2 ^ table_log - 1)
    = low at hlow
  have hcount : ∀ s, (counts.getD s 0).natAbs = (lows counts 0).count s + (order counts 0).count
    s :=
    fun s => by rw [count_lows_order h.ge, if_pos (Nat.zero_le s), Nat.sub_zero]
  by_cases h0 : order counts 0 = []
  · -- every position holds a symbol placed from the high end
    rw [h0, List.foldl_nil]
    refine ⟨rfl, hlow.length, fun s => ?_⟩
    rw [hcount, h0, List.count_nil, ← hlow.symbols s, count_eq_nat_count, hlow.length]
    rw [h0, List.length_nil] at hlen
    simp [← hlen]
  · have hpos : 0 < (order counts 0).length := List.length_pos_iff.mpr h0
    have hfree : 2 ^ table_log - (lows counts 0).length = (order counts 0).length := by omega
    have hhigh : low.2 = (order counts 0).length - 1 := by
      rw [hlow.high, hfree, show (order counts 0).length + (2 ^ 64 - 1)
        = (order counts 0).length - 1 + 2 ^ 64 by omega, Nat.add_mod_right,
        Nat.mod_eq_of_lt (by omega)]
    have hstep : 2 ^ table_log / 2 + 2 ^ table_log / 8 + 3 = spread_step (2 ^ table_log) := rfl
    obtain ⟨j, hj⟩ := walked_foldl hc (by omega) hord256 (walked_start hpos hlow.length) (by simp)
    rw [hhigh, hstep]
    generalize (order counts 0).foldl (place (spread_step (2 ^ table_log)) (2 ^ table_log - 1)
      ((order counts 0).length - 1)) (low.1, 0) = w at hj
    rw [List.nil_append] at hj
    obtain ⟨rfl, hzero⟩ := hj.pos_eq_zero hc (by omega) rfl
    refine ⟨hzero, hj.length, fun s => ?_⟩
    rw [hcount, ← hlow.symbols s, ← hj.symbols s, count_eq_nat_count, hj.length,
      count_pos hc (fun u => u < (order counts 0).length ∧ w.1.getD u 0 = s),
      count_split _ (fun u => u < (order counts 0).length)]
    congr 2
    funext u
    simp only [hfree, Nat.not_lt, eq_iff_iff, and_congr_right_iff]
    intro hu
    rw [hj.frame u hu]

end ZstdPure.Encode
