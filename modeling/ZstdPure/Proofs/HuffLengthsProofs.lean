import ZstdPure.Proofs.HuffMergeProofs

/-!
# Code lengths

The depths of the leaves satisfy Kraft's equation. The repair of the lengths above the limit keeps
the equation and the number of codes, so it finds a donor in every step and leaves nothing above the
limit: every symbol of the histogram is given a length. -/

namespace ZstdPure.Encode

open Tally

/-! ## The depths of the leaves -/

section Leaves

variable {weights : List Nat}

theorem initial_heap (hlen : weights.length ≤ 256) :
    Heap (weights.zipIdx.insertionSort heap_le)
      (List.replicate (2 * weights.length) usizeMax) weights.length := by
  have hperm := List.perm_insertionSort heap_le weights.zipIdx
  have hnodes : weights.zipIdx.map Prod.snd = List.range weights.length := by
    rw [List.zipIdx_map_snd, List.range_eq_range']
  have hempty : ∀ y, (List.replicate (2 * weights.length) usizeMax).getD y usizeMax = usizeMax := by
    intro y
    rw [List.getD_eq_getElem?_getD, List.getElem?_replicate]
    split_ifs <;> rfl
  refine ⟨List.pairwise_insertionSort heap_le _, ?_, ?_, fun p _ => hempty _, fun y _ => hempty y,
    ?_,
    ?_⟩
  · rw [(hperm.map Prod.snd).nodup_iff, hnodes]
    exact List.nodup_range
  · intro p hp
    have hmem := List.mem_map_of_mem (f := Prod.snd) (hperm.mem_iff.mp hp)
    rw [hnodes] at hmem
    exact List.mem_range.mp hmem
  · rw [hperm.length_eq, List.length_zipIdx, List.length_replicate]
    omega
  · rw [List.length_replicate]
    have : usizeMax = 2 ^ 64 - 1 := rfl
    omega

/-- The heap of the leaves. -/
def leaf_heap (weights : List Nat) : List (Nat × Nat) := weights.zipIdx.insertionSort heap_le

/-- The parents in the tree of some weights. -/
def tree_parents (weights : List Nat) : List Nat :=
  merge_nodes (leaf_heap weights) (List.replicate (2 * weights.length) usizeMax) weights.length

theorem leaf_heap_perm (weights : List Nat) :
    (leaf_heap weights).length = weights.length ∧ ((leaf_heap weights).map Prod.fst).Perm weights ∧
      ((leaf_heap weights).map Prod.snd).Perm (List.range weights.length) := by
  have hperm := List.perm_insertionSort heap_le weights.zipIdx
  refine ⟨by rw [leaf_heap, hperm.length_eq, List.length_zipIdx], ?_, ?_⟩
  · have h := hperm.map Prod.fst
    rwa [List.zipIdx_map_fst] at h
  · have h := hperm.map Prod.snd
    rwa [List.zipIdx_map_snd, ← List.range_eq_range'] at h

/-- The depths of the leaves are those of the tree. -/
theorem leaf_depths_eq (hne : weights ≠ []) (hlen : weights.length ≤ 256)
    (hpos : ∀ w ∈ weights, 1 ≤ w) :
    ∃ dep, leaf_depths weights = (List.range weights.length).map dep ∧
      Depths (tree_parents weights) (leaf_heap weights) 1 255 dep ∧
      ∀ i < weights.length, Depth (tree_parents weights) i (dep i) ∧ dep i < weights.length := by
  obtain ⟨hheap, hweights, hnodes⟩ := leaf_heap_perm weights
  have hw0 := List.length_pos_of_ne_nil hne
  obtain ⟨dep, hd⟩ := merge_nodes_depths _ _ _ 1 255 (initial_heap hlen)
    (List.ne_nil_of_length_pos (by show 0 < (leaf_heap weights).length; omega))
    (fun p hp => hpos _ (hweights.mem_iff.mp (List.mem_map_of_mem hp)))
    (by show (leaf_heap weights).length ≤ _; omega)
  have hall : ∀ i < weights.length, Depth (tree_parents weights) i (dep i) ∧
    dep i < weights.length := by
    intro i hi
    obtain ⟨p, hp, rfl⟩ := List.mem_map.mp (hnodes.mem_iff.mpr (List.mem_range.mpr hi))
    exact ⟨hd.depth p hp, by rw [← hheap]; exact hd.lt p hp⟩
  refine ⟨dep, List.map_congr_left fun i hi => ?_, hd, hall⟩
  obtain ⟨hdepth, hlt⟩ := hall i (List.mem_range.mp hi)
  exact hdepth.depth_of (by omega)

/-- The depths satisfy Kraft's equation, and they are short when there are few literals. -/
theorem leaf_depths_spec (hne : weights ≠ []) (hlen : weights.length ≤ 256)
    (hpos : ∀ w ∈ weights, 1 ≤ w) (hsum : weights.sum < 2 ^ 40) :
    (leaf_depths weights).length = weights.length ∧ (∀ d ∈ leaf_depths weights, d < 64) ∧
      ((leaf_depths weights).map fun d => 2 ^ (255 - d)).sum = 2 ^ 255 := by
  obtain ⟨-, hweights, hnodes⟩ := leaf_heap_perm weights
  obtain ⟨dep, heq, hd, -⟩ := leaf_depths_eq hne hlen hpos
  rw [heq]
  refine ⟨by rw [List.length_map, List.length_range], ?_, ?_⟩
  · intro d hdmem
    obtain ⟨i, hi, rfl⟩ := List.mem_map.mp hdmem
    obtain ⟨p, hp, rfl⟩ := List.mem_map.mp (hnodes.mem_iff.mpr hi)
    -- the depth is at most that of a tree whose weights are Fibonacci numbers
    have hfib := hd.fib p hp
    rw [hweights.sum_eq, Nat.mul_one] at hfib
    have hone := hpos _ (hweights.mem_iff.mp (List.mem_map_of_mem hp))
    have hle : Nat.fib (dep p.2 + 1) ≤ Nat.fib (dep p.2 + 1) * p.1 := Nat.le_mul_of_pos_right _ hone
    have htwo := Nat.fib_add_two (n := dep p.2)
    by_contra hc
    have hmono : Nat.fib 60 ≤ Nat.fib (dep p.2 + 2) := Nat.fib_mono (by omega)
    have h60 : Nat.fib 60 = 1548008755920 := by norm_num
    omega
  · have hkraft := hd.kraft
    rw [List.map_map, ← (hnodes.map _).sum_eq, List.map_map]
    exact hkraft

end Leaves

/-! ## The repair -/

/-- `m` codes that satisfy Kraft's equation, none of them empty or longer than `i`. -/
structure Kraft (m i : Nat) (counts : List Nat) : Prop where
  length : counts.length = 64
  zero : counts.getD 0 0 = 0
  above : ∀ l, i < l → counts.getD l 0 = 0
  sum : weigh (fun l => 2 ^ (255 - l)) counts = 2 ^ 255
  total : weigh (fun _ => 1) counts = m

section Repair

variable {m i : Nat} {counts : List Nat}

/-- The number of the longest codes is even. -/
theorem Kraft.two_dvd (h : Kraft m i counts) (h1 : 1 ≤ i) (h64 : i < 64) : 2 ∣ counts.getD i 0 := by
  have hlen := h.length
  have hpow : (2 : Nat) ^ (255 - i + 1) = 2 ^ (255 - i) * 2 := pow_succ _ _
  have hdvd : 2 ^ (255 - i + 1) ∣ counts.getD i 0 * 2 ^ (255 - i) := by
    refine dvd_of_dvd_weigh (f := fun l => 2 ^ (255 - l)) (by omega) ?_ fun j hj => ?_
    · rw [h.sum]
      exact pow_dvd_pow 2 (by omega)
    · rcases Nat.lt_or_gt_of_ne hj with hlt | hgt
      · exact (pow_dvd_pow 2 (by omega)).mul_left _
      · rw [h.above j hgt, Nat.zero_mul]
        exact dvd_zero _
  rw [hpow, Nat.mul_comm] at hdvd
  exact Nat.dvd_of_mul_dvd_mul_right (by positivity) hdvd

/-- The donor search stops at a length that has a code, or finds none. -/
theorem donor_spec (counts : List Nat) (n : Nat) :
    (1 ≤ donor counts n ∧ donor counts n ≤ n ∧ 0 < counts.getD (donor counts n) 0) ∨
      ∀ l, 1 ≤ l → l ≤ n → counts.getD l 0 = 0 := by
  induction n with
  | zero => exact Or.inr fun l h1 h0 => by omega
  | succ n ih =>
    rw [donor]
    split_ifs with h
    · rcases ih with ⟨h1, h2, h3⟩ | hnone
      · exact Or.inl ⟨h1, by omega, h3⟩
      · refine Or.inr fun l h1 hl => ?_
        rcases Nat.lt_or_eq_of_le hl with hlt | rfl
        · exact hnone l h1 (by omega)
        · exact h
    · exact Or.inl ⟨by omega, le_rfl, by omega⟩

/-- There are too few codes to have lengths near the limit only. -/
theorem Kraft.donor (h : Kraft m i counts) (hm : m ≤ 256) (h12 : 12 ≤ i) (h64 : i < 64) :
    1 ≤ donor counts (i - 2) ∧ donor counts (i - 2) ≤ i - 2 ∧
      0 < counts.getD (Encode.donor counts (i - 2)) 0 := by
  rcases donor_spec counts (i - 2) with hj | hnone
  · exact hj
  · exfalso
    have hle : weigh (fun l => 2 ^ (255 - l)) counts ≤ 2 ^ 244 * weigh (fun _ => 1) counts := by
      refine weigh_le_mul fun l hl => ?_
      have hl1 : i - 2 < l := by
        by_contra hc
        rcases Nat.eq_zero_or_pos l with rfl | hp
        · exact hl h.zero
        · exact hl (hnone l hp (by omega))
      rw [Nat.mul_one]
      exact Nat.pow_le_pow_right (by decide) (by omega)
    rw [h.sum, h.total] at hle
    have hbig : 2 ^ 244 * m ≤ 2 ^ 244 * 2 ^ 8 := Nat.mul_le_mul_left _ hm
    rw [← pow_add] at hbig
    exact absurd (hle.trans hbig) (by decide)

/-- The counts after a repair step. -/
theorem getD_repair_step (hlen : counts.length = 64) (h64 : i < 64) (hi : 2 ≤ i)
    (hj : donor counts (i - 2) ≤ i - 2) (l : Nat) :
    (repair_step i counts).length = 64 ∧
      (l ≠ i → l ≠ i - 1 → l ≠ donor counts (i - 2) + 1 → l ≠ donor counts (i - 2) →
        (repair_step i counts).getD l 0 = counts.getD l 0) ∧
      (repair_step i counts).getD i 0 = counts.getD i 0 - 2 := by
  rw [repair_step]
  generalize donor counts (i - 2) = j at *
  refine ⟨by simpa using hlen, fun h1 h2 h3 h4 => ?_, ?_⟩
  · rw [getD_modify _ _ _ _ (by simp; omega), if_neg (by omega),
      getD_modify _ _ _ _ (by simp; omega),
      if_neg (by omega), getD_modify _ _ _ _ (by simp; omega), if_neg (by omega),
      getD_modify _ _ _ _ (by omega), if_neg (by omega)]
  · rw [getD_modify _ _ _ _ (by simp; omega), if_neg (by omega),
      getD_modify _ _ _ _ (by simp; omega),
      if_neg (by omega), getD_modify _ _ _ _ (by simp; omega), if_neg (by omega),
      getD_modify _ _ _ _ (by omega), if_pos rfl]

/-- The values of the codes that a repair step takes away and adds. -/
theorem weigh_repair_step (f : Nat → Nat) (hlen : counts.length = 64) (h64 : i < 64) (hi : 2 ≤ i)
    (htwo : 2 ≤ counts.getD i 0) (hj : donor counts (i - 2) ≤ i - 2)
    (hone : 0 < counts.getD (donor counts (i - 2)) 0) :
    weigh f (repair_step i counts) + f (donor counts (i - 2)) + 2 * f i
      = weigh f counts + f (i - 1) + 2 * f (donor counts (i - 2) + 1) := by
  rw [repair_step]
  generalize donor counts (i - 2) = j at *
  have h1 := weigh_sub f counts i 2 (by omega) htwo
  have h2 := weigh_add f (counts.modify i (· - 2)) (i - 1) 1 (by simp; omega)
  have h3 := weigh_add f ((counts.modify i (· - 2)).modify (i - 1) (· + 1)) (j + 1) 2
    (by simp; omega)
  have h4 := weigh_sub f (((counts.modify i (· - 2)).modify (i - 1) (· + 1)).modify (j + 1) (· + 2))
    j 1
    (by simp; omega) (by
      rw [getD_modify _ _ _ _ (by simp; omega), if_neg (by omega),
        getD_modify _ _ _ _ (by simp; omega), if_neg (by omega), getD_modify _ _ _ _ (by omega),
        if_neg (by omega)]
      exact hone)
  omega

/-- A repair step keeps Kraft's equation and the number of codes. -/
theorem Kraft.repair_step (h : Kraft m i counts) (hm : m ≤ 256) (h12 : 12 ≤ i) (h64 : i < 64)
    (hpos : 0 < counts.getD i 0) :
    Kraft m i (repair_step i counts) ∧
      (Encode.repair_step i counts).getD i 0 = counts.getD i 0 - 2 := by
  obtain ⟨hj1, hj2, hj3⟩ := h.donor hm h12 h64
  have htwo : 2 ≤ counts.getD i 0 := Nat.le_of_dvd hpos (h.two_dvd (by omega) h64)
  have hget := getD_repair_step h.length h64 (by omega) hj2
  have hweigh := fun f => weigh_repair_step f h.length h64 (by omega) htwo hj2 hj3
  refine ⟨⟨(hget 0).1, ?_, fun l hl => ?_, ?_, ?_⟩, (hget 0).2.2⟩
  · rw [(hget 0).2.1 (by omega) (by omega) (by omega) (by omega), h.zero]
  · rw [(hget l).2.1 (by omega) (by omega) (by omega) (by omega), h.above l hl]
  · have hkraft := hweigh fun l => 2 ^ (255 - l)
    have hi : 2 ^ (255 - (i - 1)) = 2 * 2 ^ (255 - i) := by
      rw [← pow_succ']
      congr 1
      omega
    have hj : 2 ^ (255 - Encode.donor counts (i - 2))
        = 2 * 2 ^ (255 - (Encode.donor counts (i - 2) + 1)) := by
      rw [← pow_succ']
      congr 1
      omega
    rw [h.sum] at hkraft
    omega
  · have htotal := hweigh fun _ => 1
    rw [h.total] at htotal
    omega

/-- Repairing a length leaves no code of it. -/
theorem Kraft.repair_length (hm : m ≤ 256) (h12 : 12 ≤ i) (h64 : i < 64) :
    ∀ (n : Nat) (counts : List Nat), counts.getD i 0 ≤ n → Kraft m i counts →
      Kraft m (i - 1) (repair_length i n counts) := by
  have hdone : ∀ {counts}, Kraft m i counts → counts.getD i 0 = 0 → Kraft m (i - 1) counts := by
    intro counts h h0
    refine ⟨h.length, h.zero, fun l hl => ?_, h.sum, h.total⟩
    rcases Nat.lt_or_eq_of_le (by omega : i ≤ l) with hlt | rfl
    · exact h.above l hlt
    · exact h0
  intro n
  induction n with
  | zero =>
    intro counts hn h
    have h0 : counts.getD i 0 = 0 := Nat.le_zero.mp hn
    exact hdone h h0
  | succ n ih =>
    intro counts hn h
    rw [Encode.repair_length]
    split_ifs with hpos
    · obtain ⟨hstep, hget⟩ := h.repair_step hm h12 h64 hpos
      exact ih _ (by omega) hstep
    · exact hdone h (by omega)

/-- All lengths above the limit are repaired. -/
theorem Kraft.limit_lengths (hm : m ≤ 256) :
    ∀ (n : Nat) (counts : List Nat), MAX_CODE_LEN + n < 64 → Kraft m (MAX_CODE_LEN + n) counts →
      Kraft m MAX_CODE_LEN (((List.range' (MAX_CODE_LEN + 1) n).reverse).foldl
        (fun counts i => Encode.repair_length i (counts.getD i 0) counts) counts) := by
  intro n
  induction n with
  | zero => intro counts _ h; exact h
  | succ n ih =>
    intro counts h64 h
    have h11 : MAX_CODE_LEN = 11 := rfl
    rw [List.range'_concat, List.reverse_append, List.reverse_singleton, List.singleton_append,
      List.foldl_cons, Nat.one_mul]
    refine ih _ (by omega) ?_
    have hstep := Kraft.repair_length hm (i := MAX_CODE_LEN + 1 + n) (by omega) (by omega)
      (counts.getD (MAX_CODE_LEN + 1 + n) 0) counts le_rfl (by
        rw [show MAX_CODE_LEN + 1 + n = MAX_CODE_LEN + (n + 1) by omega]
        exact h)
    rw [show MAX_CODE_LEN + 1 + n - 1 = MAX_CODE_LEN + n by omega] at hstep
    exact hstep

end Repair

/-! ## The lengths of the symbols -/

/-- The lengths that the counts stand for, in order. -/
def code_lens (counts : List Nat) : List Nat :=
  ((counts.take (MAX_CODE_LEN + 1)).zipIdx.drop 1).flatMap fun c => List.replicate c.1 c.2

theorem code_lens_spec {m : Nat} {counts : List Nat} (h : Kraft m MAX_CODE_LEN counts) :
    (code_lens counts).length = m ∧ (∀ l ∈ code_lens counts, 1 ≤ l ∧ l ≤ MAX_CODE_LEN) ∧
      (code_lens counts).Pairwise (· ≤ ·) ∧
      ((code_lens counts).map fun l => 2 ^ (255 - l)).sum = 2 ^ 255 := by
  have h0 := h.zero
  have hlen := h.length
  have hweigh := fun f => @weigh_take f counts (MAX_CODE_LEN + 1) fun i hi => h.above i (by omega)
  have hsum := h.sum
  have htotal := h.total
  cases counts with
  | nil => exact absurd hlen (by decide)
  | cons c counts =>
    obtain rfl : c = 0 := h0
    have hlens : code_lens (0 :: counts) = indices (counts.take MAX_CODE_LEN) 1 := by
      rw [code_lens, List.take_succ_cons, List.zipIdx_cons, List.drop_one, List.tail_cons]
      rfl
    have hmap : ∀ f : Nat → Nat, ((code_lens (0 :: counts)).map f).sum = weigh f (0 :: counts) := by
      intro f
      rw [hlens, sum_map_indices, ← hweigh f, List.take_succ_cons, weigh, Nat.zero_mul,
        Nat.zero_add]
      simp only [Nat.add_comm 1]
    refine ⟨?_, fun l hl => ?_, ?_, ?_⟩
    · rw [← htotal, ← hmap, List.map_const', List.sum_replicate, smul_eq_mul, Nat.mul_one]
    · rw [hlens] at hl
      have hmem := mem_indices hl
      rw [List.length_take] at hmem
      omega
    · rw [hlens]
      exact indices_sorted _ _
    · rw [hmap, hsum]

/-- Storing values under different keys. -/
theorem foldl_set_spec : ∀ (ps : List (Nat × Nat)) (l : List Nat), (ps.map Prod.fst).Nodup →
    (∀ p ∈ ps, p.1 < l.length) →
    (ps.foldl (fun l p => l.set p.1 p.2) l).length = l.length ∧
      (∀ p ∈ ps, (ps.foldl (fun l p => l.set p.1 p.2) l).getD p.1 0 = p.2) ∧
      ∀ k, k ∉ ps.map Prod.fst → (ps.foldl (fun l p => l.set p.1 p.2) l).getD k 0 = l.getD k 0 := by
  intro ps
  induction ps with
  | nil => intro l _ _; exact ⟨rfl, by simp, fun _ _ => rfl⟩
  | cons q ps ih =>
    intro l hnodup hlt
    obtain ⟨hq, hps⟩ := List.forall_mem_cons.mp hlt
    obtain ⟨hnot, hrest⟩ := List.nodup_cons.mp hnodup
    obtain ⟨hlen, hget, hkeep⟩ := ih (l.set q.1 q.2) hrest (by simpa using hps)
    rw [List.length_set] at hlen
    refine ⟨hlen, fun p hp => ?_, fun k hk => ?_⟩
    · rcases List.mem_cons.mp hp with rfl | hp
      · exact (hkeep p.1 hnot).trans (by rw [getD_set _ _ _ _ _ hq, if_pos rfl])
      · exact hget p hp
    · rw [List.map_cons, List.mem_cons, not_or] at hk
      exact (hkeep k hk.2).trans (by rw [getD_set _ _ _ _ _ hq, if_neg fun e => hk.1 e.symm])

section Lengths

variable {freq : List Nat}

/-- The symbols of a histogram. -/
def present_symbols (freq : List Nat) : List Nat := (List.range 256).filter fun s => 0 <
    freq.getD s 0

theorem mem_present_symbols {s : Nat} : s ∈ present_symbols freq ↔ s < 256 ∧ 0 < freq.getD s 0 := by
  rw [present_symbols, List.mem_filter, List.mem_range, decide_eq_true_iff]

theorem length_present_symbols (h : freq.length = 256) :
    (present_symbols freq).length = freq.countP (0 < ·) := by
  conv_rhs => rw [← Tally.map_getD_range_length h, List.countP_map]
  rw [present_symbols, List.countP_eq_length_filter]
  rfl

theorem sum_present_symbols (h : freq.length = 256) :
    ((present_symbols freq).map fun s => freq.getD s 0).sum ≤ freq.sum := by
  conv_rhs => rw [← Tally.map_getD_range_length h]
  exact (List.filter_sublist.map _).sum_le_sum fun _ _ => Nat.zero_le _

/-- The counts of the lengths of some depths, repaired where one is above the limit. -/
def length_counts (depth : List Nat) : List Nat :=
  if MAX_CODE_LEN < depth.foldl max 0 then
    limit_lengths (depth.foldl max 0) (tally depth (List.replicate 64 0))
  else tally depth (List.replicate 64 0)

/-- The depths of the symbols of a histogram. -/
def symbol_depths (freq : List Nat) : List Nat :=
  leaf_depths ((present_symbols freq).map fun s => freq.getD s 0)

theorem code_lengths_eq (freq : List Nat) :
    code_lengths freq = ((by_frequency freq (present_symbols freq)).zip
      (code_lens (length_counts (symbol_depths freq)))).foldl (fun lengths c => lengths.set c.1 c.2)
        (List.replicate 256 0) := rfl

/-- The depths as counts, none of them longer than the longest. -/
theorem tally_kraft {depth : List Nat} (h2 : 2 ≤ depth.length) (h64 : ∀ d ∈ depth, d < 64)
    (hsum : (depth.map fun d => 2 ^ (255 - d)).sum = 2 ^ 255) {i : Nat} (hi : depth.foldl max 0 ≤
      i) :
    Kraft depth.length i (tally depth (List.replicate 64 0)) := by
  have hmax : ∀ d ∈ depth, d ≤ depth.foldl max 0 := fun d hd => le_foldl_max hd
  -- a code of no bits would be the only one
  have hzero : 0 ∉ depth := fun hin => by
    have hperm := (List.perm_cons_erase hin).map fun d => 2 ^ (255 - d)
    rw [hperm.sum_eq, List.map_cons, List.sum_cons] at hsum
    obtain ⟨d, hd⟩ := List.exists_mem_of_ne_nil (depth.erase 0)
      (List.ne_nil_of_length_pos (by rw [List.length_erase_of_mem hin]; omega))
    have hle := List.le_sum_of_mem (List.mem_map_of_mem (f := fun d => 2 ^ (255 - d)) hd)
    have hpos : 0 < 2 ^ (255 - d) := by positivity
    omega
  refine ⟨length_tally_zero h64, ?_, fun l hl => ?_, ?_, ?_⟩
  · rw [getD_tally_zero h64, List.count_eq_zero_of_not_mem hzero]
  · rw [getD_tally_zero h64, List.count_eq_zero_of_not_mem fun hin => ?_]
    have := hmax l hin
    omega
  · rw [weigh_tally_zero h64, hsum]
  · rw [weigh_tally_zero h64, List.map_const', List.sum_replicate, smul_eq_mul, Nat.mul_one]

theorem longest_lt {depth : List Nat} (h2 : 2 ≤ depth.length) (h64 : ∀ d ∈ depth, d < 64) :
    depth.foldl max 0 < 64 :=
  h64 _ (foldl_max_mem (List.ne_nil_of_length_pos (by omega)))

/-- The counts of the lengths, none above the limit. -/
theorem kraft_counts {depth : List Nat} (h2 : 2 ≤ depth.length) (h256 : depth.length ≤ 256)
    (h64 : ∀ d ∈ depth, d < 64) (hsum : (depth.map fun d => 2 ^ (255 - d)).sum = 2 ^ 255) :
    Kraft depth.length MAX_CODE_LEN (length_counts depth) := by
  have hmax64 := longest_lt h2 h64
  rw [length_counts]
  split_ifs with hlong
  · exact Kraft.limit_lengths h256 (depth.foldl max 0 - MAX_CODE_LEN) _ (by omega)
      (tally_kraft h2 h64 hsum (by omega))
  · exact tally_kraft h2 h64 hsum (by omega)

/-- A histogram of 32-bit counts, at least two of them nonzero. -/
structure Histogram (freq : List Nat) : Prop where
  length : freq.length = 256
  sum : freq.sum < 2 ^ 40
  two : 2 ≤ freq.countP (0 < ·)

theorem Histogram.present (h : Histogram freq) :
    2 ≤ (present_symbols freq).length ∧ (present_symbols freq).length ≤ 256 := by
  refine ⟨by rw [length_present_symbols h.length]; exact h.two, ?_⟩
  have := List.length_filter_le (fun s => decide (0 < freq.getD s 0)) (List.range 256)
  rwa [List.length_range] at this

theorem Histogram.weights (h : Histogram freq) :
    ((present_symbols freq).map fun s => freq.getD s 0).sum < 2 ^ 40 ∧
      ∀ w ∈ (present_symbols freq).map fun s => freq.getD s 0, 1 ≤ w := by
  refine ⟨lt_of_le_of_lt (sum_present_symbols h.length) h.sum, fun w hw => ?_⟩
  obtain ⟨s, hs, rfl⟩ := List.mem_map.mp hw
  exact (mem_present_symbols.mp hs).2

/-- The depths of the symbols satisfy Kraft's equation, and there is a count for each. -/
theorem Histogram.depths (h : Histogram freq) :
    (symbol_depths freq).length = (present_symbols freq).length ∧
      (∀ d ∈ symbol_depths freq, d < 64) ∧
      ((symbol_depths freq).map fun d => 2 ^ (255 - d)).sum = 2 ^ 255 := by
  obtain ⟨h2, h256⟩ := h.present
  obtain ⟨hsum, hpos⟩ := h.weights
  have hspec := leaf_depths_spec (List.ne_nil_of_length_pos (by rw [List.length_map]; omega))
    (by rw [List.length_map]; exact h256) hpos hsum
  rwa [List.length_map] at hspec

theorem Histogram.counts (h : Histogram freq) :
    Kraft (present_symbols freq).length MAX_CODE_LEN (length_counts (symbol_depths freq)) := by
  obtain ⟨h2, h256⟩ := h.present
  obtain ⟨hlen, h64, hsum⟩ := h.depths
  rw [← hlen] at h2 h256 ⊢
  exact kraft_counts h2 h256 h64 hsum

/-! ## The lengths as an assignment -/

theorem length_foldl_set (ps : List (Nat × Nat)) (l : List Nat) :
    (ps.foldl (fun l p => l.set p.1 p.2) l).length = l.length := by
  induction ps generalizing l with
  | nil => rfl
  | cons p ps ih => rw [List.foldl_cons, ih, List.length_set]

theorem length_code_lengths (freq : List Nat) : (code_lengths freq).length = 256 := by
  rw [code_lengths_eq, length_foldl_set, List.length_replicate]

/-- The values stored in places that were zero. -/
theorem sum_foldl_set (g : Nat → Nat) (hg : g 0 = 0) : ∀ (ps : List (Nat × Nat)) (l : List Nat),
    (ps.map Prod.fst).Nodup → (∀ p ∈ ps, p.1 < l.length ∧ l.getD p.1 0 = 0) →
    ((ps.foldl (fun l p => l.set p.1 p.2) l).map g).sum
      = (l.map g).sum + (ps.map fun p => g p.2).sum := by
  intro ps
  induction ps with
  | nil => intro l _ _; rfl
  | cons q ps ih =>
    intro l hnodup hzero
    obtain ⟨⟨hq, hq0⟩, hps⟩ := List.forall_mem_cons.mp hzero
    obtain ⟨hnot, hrest⟩ := List.nodup_cons.mp hnodup
    have hset : ((l.set q.1 q.2).map g).sum = (l.map g).sum + g q.2 := by
      have hsplit := congrArg (fun l => (l.map g).sum) (List.take_append_drop q.1 l)
      rw [List.drop_eq_getElem_cons hq, ← List.getD_eq_getElem _ 0 hq, hq0] at hsplit
      rw [List.set_eq_take_append_cons_drop, if_pos hq]
      simp only [List.map_append, List.sum_append, List.map_cons, List.sum_cons, hg] at hsplit ⊢
      omega
    rw [List.foldl_cons, ih _ hrest, hset, List.map_cons, List.sum_cons]
    · omega
    · intro p hp
      obtain ⟨hlt, h0⟩ := hps p hp
      refine ⟨by rwa [List.length_set], ?_⟩
      rw [getD_set _ _ _ _ _ hq, if_neg, h0]
      rintro he
      exact hnot (he ▸ List.mem_map_of_mem hp)

theorem by_frequency_perm (freq present : List Nat) : (by_frequency freq present).Perm present :=
  List.mergeSort_perm _ _

/-- The most frequent come first. -/
theorem by_frequency_sorted (freq present : List Nat) :
    (by_frequency freq present).Pairwise fun x y => freq.getD y 0 ≤ freq.getD x 0 := by
  have hsorted := @List.pairwise_mergeSort _ (fun x y => decide (freq.getD y 0 < freq.getD x 0 ∨
      freq.getD x 0 = freq.getD y 0 ∧ x ≤ y)) (fun x y z hxy hyz => by
    rw [decide_eq_true_iff] at *
    omega) (fun x y => by
    rw [Bool.or_eq_true, decide_eq_true_iff, decide_eq_true_iff]
    omega) present
  refine hsorted.imp fun {x y} h => ?_
  have := of_decide_eq_true h
  omega

/-- Length-limited lengths of a complete code for the symbols of a histogram. -/
structure CodeLengths (freq lengths : List Nat) : Prop where
  length : lengths.length = 256
  present : ∀ s, 0 < lengths.getD s 0 ↔ 0 < freq.getD s 0
  le : ∀ s, lengths.getD s 0 ≤ MAX_CODE_LEN
  kraft : (lengths.map fun l => if l = 0 then 0 else 2 ^ (MAX_CODE_LEN - l)).sum = 2 ^ MAX_CODE_LEN
  frequent : ∀ s s', 0 < freq.getD s' 0 → freq.getD s' 0 < freq.getD s 0 →
    lengths.getD s 0 ≤ lengths.getD s' 0

/-- The symbols of `order` have the lengths `lens`, place by place. -/
structure Placed (order lens lengths : List Nat) : Prop where
  same : order.length = lens.length
  place : ∀ (i : Nat) (hi : i < order.length), lengths.getD order[i] 0 = lens.getD i 0
  absent : ∀ s, s ∉ order → lengths.getD s 0 = 0
  sum : ∀ g : Nat → Nat, g 0 = 0 → (lengths.map g).sum = (lens.map g).sum

theorem placed {order lens : List Nat} (hnodup : order.Nodup) (h256 : ∀ s ∈ order, s < 256)
    (hsame : order.length = lens.length) :
    Placed order lens ((order.zip lens).foldl (fun lengths c => lengths.set c.1 c.2)
      (List.replicate 256 0)) := by
  have hkeys : (order.zip lens).map Prod.fst = order := List.map_fst_zip hsame.le
  have hvals : (order.zip lens).map Prod.snd = lens := List.map_snd_zip hsame.ge
  have hlt : ∀ p ∈ order.zip lens, p.1 < (List.replicate 256 0).length := fun p hp => by
    rw [List.length_replicate]
    exact h256 _ (List.of_mem_zip hp).1
  have hknodup : ((order.zip lens).map Prod.fst).Nodup := by rwa [hkeys]
  obtain ⟨-, hget, hother⟩ := foldl_set_spec (order.zip lens) (List.replicate 256 0) hknodup hlt
  refine ⟨hsame, fun i hi => ?_, fun s hs => ?_, fun g hg => ?_⟩
  · have hi' : i < lens.length := by omega
    have hp : (order[i], lens[i]) ∈ order.zip lens :=
      List.mem_iff_getElem.mpr ⟨i, by rw [List.length_zip]; omega, List.getElem_zip⟩
    rw [hget _ hp, List.getD_eq_getElem _ _ hi']
  · rw [hother s (by rwa [hkeys]), getD_replicate_zero]
  · rw [sum_foldl_set g hg _ _ hknodup fun p hp => ⟨hlt p hp, getD_replicate_zero _ _⟩,
      List.map_replicate, List.sum_replicate, hg, smul_zero, Nat.zero_add]
    conv_rhs => rw [← hvals]
    rw [List.map_map]
    rfl

/-- The lengths of the symbols, the most frequent first. -/
theorem Histogram.placed (h : Histogram freq) :
    Placed (by_frequency freq (present_symbols freq))
      (code_lens (length_counts (symbol_depths freq)))
      (code_lengths freq) := by
  have hperm := by_frequency_perm freq (present_symbols freq)
  rw [code_lengths_eq]
  refine Encode.placed (hperm.nodup_iff.mpr (List.nodup_range.filter _)) (fun s hs => ?_) ?_
  · exact (mem_present_symbols.mp (hperm.mem_iff.mp hs)).1
  · rw [hperm.length_eq, (code_lens_spec h.counts).1]

/-- Kraft's equation at the limit. -/
theorem kraft_at_limit {lens : List Nat} (hle : ∀ l ∈ lens, 1 ≤ l ∧ l ≤ MAX_CODE_LEN)
    (hsum : (lens.map fun l => 2 ^ (255 - l)).sum = 2 ^ 255) :
    (lens.map fun l => if l = 0 then 0 else 2 ^ (MAX_CODE_LEN - l)).sum = 2 ^ MAX_CODE_LEN := by
  have hscale : (lens.map fun l => 2 ^ (255 - l)).sum
      = 2 ^ 244 * (lens.map fun l => if l = 0 then 0 else 2 ^ (MAX_CODE_LEN - l)).sum := by
    rw [← List.sum_map_mul_left]
    refine congrArg _ (List.map_congr_left fun l hl => ?_)
    have h11 : MAX_CODE_LEN = 11 := rfl
    have := hle l hl
    rw [if_neg (by omega), ← pow_add]
    congr 1
    omega
  rw [hscale, show 2 ^ 255 = 2 ^ 244 * 2 ^ MAX_CODE_LEN from rfl] at hsum
  exact Nat.eq_of_mul_eq_mul_left (by positivity) hsum

theorem Histogram.lt_256 (h : Histogram freq) {s : Nat} (hs : 0 < freq.getD s 0) : s < 256 := by
  by_contra hc
  rw [List.getD_eq_default _ _ (by rw [h.length]; omega)] at hs
  exact absurd hs (Nat.lt_irrefl 0)

theorem code_lengths_spec (h : Histogram freq) : CodeLengths freq (code_lengths freq) := by
  obtain ⟨-, hlmem, hlsorted, hlsum⟩ := code_lens_spec h.counts
  have hplaced := h.placed
  have hperm := by_frequency_perm freq (present_symbols freq)
  have hsorted := by_frequency_sorted freq (present_symbols freq)
  generalize code_lens (length_counts (symbol_depths freq)) = lens at *
  generalize by_frequency freq (present_symbols freq) = order at *
  have hsame := hplaced.same
  have hplace : ∀ s, 0 < freq.getD s 0 → ∃ i, ∃ hi : i < order.length, order[i] = s := fun s hs =>
    List.mem_iff_getElem.mp (hperm.mem_iff.mpr (mem_present_symbols.mpr ⟨h.lt_256 hs, hs⟩))
  have habsent : ∀ s, ¬ 0 < freq.getD s 0 → (code_lengths freq).getD s 0 = 0 := fun s hs =>
    hplaced.absent s fun hin => hs (mem_present_symbols.mp (hperm.mem_iff.mp hin)).2
  have hlens : ∀ i, i < order.length → 1 ≤ lens.getD i 0 ∧ lens.getD i 0 ≤ MAX_CODE_LEN :=
    fun i hi => by
    rw [List.getD_eq_getElem _ _ (by omega)]
    exact hlmem _ (List.getElem_mem _)
  refine ⟨length_code_lengths freq, fun s => ⟨fun hs => ?_, fun hs => ?_⟩, fun s => ?_, ?_,
    fun s s' hs' hlt => ?_⟩
  · by_contra hc
    rw [habsent s hc] at hs
    exact absurd hs (Nat.lt_irrefl 0)
  · obtain ⟨i, hi, rfl⟩ := hplace s hs
    rw [hplaced.place i hi]
    exact (hlens i hi).1
  · by_cases hs : 0 < freq.getD s 0
    · obtain ⟨i, hi, rfl⟩ := hplace s hs
      rw [hplaced.place i hi]
      exact (hlens i hi).2
    · rw [habsent s hs]
      exact Nat.zero_le _
  · rw [hplaced.sum _ (by exact if_pos rfl)]
    exact kraft_at_limit hlmem hlsum
  · -- the less frequent symbol comes later, and the lengths only grow
    have hs : 0 < freq.getD s 0 := by omega
    obtain ⟨i, hi, rfl⟩ := hplace s hs
    obtain ⟨j, hj, rfl⟩ := hplace s' hs'
    rw [hplaced.place i hi, hplaced.place j hj, List.getD_eq_getElem _ _ (by omega),
      List.getD_eq_getElem _ _ (by omega)]
    rcases Nat.lt_trichotomy i j with hij | rfl | hij
    · exact List.pairwise_iff_getElem.mp hlsorted i j (by omega) (by omega) hij
    · exact le_rfl
    · have := List.pairwise_iff_getElem.mp hsorted j i hj hi hij
      omega

/-- Every symbol of the histogram has a length. -/
theorem code_lengths_pos (hlen : freq.length = 256) (h2 : 2 ≤ freq.countP (0 < ·))
    (hsum : freq.sum < 2 ^ 40) :
    (code_lengths freq).length = 256 ∧ ∀ s, 0 < freq.getD s 0 →
      0 < (code_lengths freq).getD s 0 := by
  have hspec := code_lengths_spec ⟨hlen, hsum, h2⟩
  exact ⟨hspec.length, fun s => (hspec.present s).mpr⟩

end Lengths

end ZstdPure.Encode
