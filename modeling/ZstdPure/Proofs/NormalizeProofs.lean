import ZstdPure.Encode.Huff
import ZstdPure.Encode.Sequences
import ZstdPure.Lib.Tally
import ZstdPure.Proofs.SpreadProofs

/-!
# Normalized counts

`normalize_counts` gives every symbol of a histogram its share of the table, at least one position,
and then takes back what is too much or adds what is missing.
-/

namespace ZstdPure.Encode

open Tally

/-! ## Accuracy logs -/

/-- There is a position for every symbol. -/
theorem le_two_pow_min_table_log (n : Nat) : n ≤ 2 ^ min_table_log n := by
  have hbits : n - 1 < 2 ^ bit_length (n - 1) := by
    unfold bit_length
    split_ifs with h0
    · omega
    · exact Nat.lt_log2_self
  have hle : 2 ^ bit_length (n - 1) ≤ 2 ^ min_table_log n :=
    Nat.pow_le_pow_right (by decide) (le_max_left _ _)
  omega

theorem five_le_min_table_log (n : Nat) : 5 ≤ min_table_log n := le_max_right _ _

/-- The accuracy log of a table of its own: there is a position for every symbol. -/
theorem table_log_spec {max_log : Nat} (h5 : 5 ≤ max_log) (n max_sym : Nat) {num_present : Nat}
    (hpresent : num_present ≤ 2 ^ max_log) :
    let log := min (max (optimal_table_log max_log n max_sym) (min_table_log num_present)) max_log
    5 ≤ log ∧ log ≤ max_log ∧ num_present ≤ 2 ^ log := by
  dsimp only
  have hmin := five_le_min_table_log num_present
  generalize optimal_table_log max_log n max_sym = opt
  refine ⟨by omega, by omega, ?_⟩
  rcases Nat.le_total max_log (max opt (min_table_log num_present)) with hle | hle
  · rwa [Nat.min_eq_right hle]
  · rw [Nat.min_eq_left hle]
    exact (le_two_pow_min_table_log _).trans (Nat.pow_le_pow_right (by decide) (le_max_right _ _))

/-! ## Lists of counts -/

section Counts

variable {l : List Nat} {i : Nat}

/-- The number of nonzero counts. -/
def present (l : List Nat) : Nat := (l.map (min · 1)).sum

theorem present_eq_countP (l : List Nat) : present l = l.countP (0 < ·) := by
  induction l with
  | nil => rfl
  | cons a l ih =>
    rw [present] at ih ⊢
    rw [List.map_cons, List.sum_cons, ih, List.countP_cons]
    by_cases ha : 0 < a
    · rw [if_pos (by simpa using ha)]
      omega
    · rw [if_neg (by simpa using ha)]
      omega

theorem sum_modify (f : Nat → Nat) (h : i < l.length) :
    (l.modify i f).sum + l.getD i 0 = l.sum + f (l.getD i 0) := by
  have hsum := weigh_modify (fun _ => 1) l i f h
  rwa [weigh_one, weigh_one, Nat.mul_one, Nat.mul_one] at hsum

/-- A unit taken from a count above one. -/
theorem take_unit (h : 1 < l.getD i 0) :
    (l.modify i (· - 1)).length = l.length ∧ (l.modify i (· - 1)).sum + 1 = l.sum ∧
      present (l.modify i (· - 1)) = present l ∧
      ∀ j, 0 < (l.modify i (· - 1)).getD j 0 ↔ 0 < l.getD j 0 := by
  have hi : i < l.length := by
    by_contra hc
    rw [List.getD_eq_default _ _ (by omega)] at h
    omega
  have hsum := @sum_modify l i (· - 1) hi
  refine ⟨List.length_modify .., by omega, ?_, ?_⟩
  · rw [present, present]
    congr 1
    refine List.ext_getElem? fun j => ?_
    rw [List.getElem?_map, List.getElem?_map, List.getElem?_modify]
    by_cases hij : i = j
    · subst hij
      rw [List.getD_eq_getElem _ _ hi] at h
      rw [List.getElem?_eq_getElem hi]
      simp only [if_true, Option.map_eq_map, Option.map_some]
      congr 1
      omega
    · simp [hij]
  · intro j
    rw [getD_modify _ _ _ _ hi]
    split_ifs with hij
    · subst hij
      omega
    · exact Iff.rfl

theorem present_le_sum (l : List Nat) : present l ≤ l.sum := by
  induction l with
  | nil => exact le_rfl
  | cons a l ih =>
    rw [present] at ih ⊢
    rw [List.map_cons, List.sum_cons, List.sum_cons]
    omega

/-- Counts of at most one are no more than the nonzero ones. -/
theorem sum_le_present (h : ∀ c ∈ l, c ≤ 1) : l.sum = present l := by
  rw [present]
  congr 1
  refine (List.map_id l).symm.trans (List.map_congr_left fun c hc => ?_)
  exact (Nat.min_eq_left (h c hc)).symm

end Counts

/-! ## The loops -/

/-- The share of one symbol. -/
def share_of (total size f : Nat) : Nat :=
  if f = 0 then 0 else if f * size / total = 0 then 1 else f * size / total

theorem share_of_pos {total size f : Nat} : 0 < share_of total size f ↔ 0 < f := by
  rw [share_of]
  generalize f * size / total = q
  split_ifs <;> omega

theorem present_map_share (total size : Nat) (freq : List Nat) :
    present (freq.map (share_of total size)) = freq.countP (0 < ·) := by
  rw [present_eq_countP, List.countP_map]
  refine List.countP_congr fun f _ => ?_
  simp only [Function.comp_apply, decide_eq_true_eq]
  exact share_of_pos

theorem norm_shares (total size : Nat) : ∀ (freq : List Nat) (st : NormState),
    st.assigned = st.norm.sum → (st.largest < st.norm.length ∨ st.largest = 0) →
    ((freq.zipIdx st.norm.length).foldl (norm_share total size) st).norm
        = st.norm ++ freq.map (share_of total size) ∧
      ((freq.zipIdx st.norm.length).foldl (norm_share total size) st).assigned
        = (st.norm ++ freq.map (share_of total size)).sum ∧
      (((freq.zipIdx st.norm.length).foldl (norm_share total size) st).largest
          < (st.norm ++ freq.map (share_of total size)).length ∨
        ((freq.zipIdx st.norm.length).foldl (norm_share total size) st).largest = 0) := by
  intro freq
  induction freq with
  | nil => intro st hsum hlarge; simpa using ⟨hsum, hlarge⟩
  | cons f freq ih =>
    intro st hsum hlarge
    have hstep : (norm_share total size st (f, st.norm.length)).norm
          = st.norm ++ [share_of total size f] ∧
        (norm_share total size st (f, st.norm.length)).assigned
          = (st.norm ++ [share_of total size f]).sum ∧
        ((norm_share total size st (f, st.norm.length)).largest < st.norm.length + 1 ∨
          (norm_share total size st (f, st.norm.length)).largest = 0) := by
      rw [norm_share, share_of]
      dsimp only
      rw [List.sum_append, List.sum_singleton]
      split_ifs <;> refine ⟨rfl, ?_, ?_⟩ <;> simp only <;> omega
    obtain ⟨hnorm, hassigned, hlargest⟩ := hstep
    have hlen : (norm_share total size st (f, st.norm.length)).norm.length = st.norm.length +
      1 := by
      rw [hnorm, List.length_append, List.length_singleton]
    have htail := ih (norm_share total size st (f, st.norm.length)) (by rw [hassigned, hnorm])
      (by rw [hlen]; exact hlargest)
    rw [hlen, hnorm, List.append_assoc, List.singleton_append, ← List.map_cons] at htail
    rw [List.zipIdx_cons, List.foldl_cons]
    exact htail

/-- The symbol that was seen most often is there, unless nothing is. -/
theorem norm_largest (total size : Nat) : ∀ (freq : List Nat) (st : NormState),
    (st.largest_freq = 0 → st.norm.sum = 0) ∧
      (0 < st.largest_freq → 0 < st.norm.getD st.largest 0) →
    let st' := (freq.zipIdx st.norm.length).foldl (norm_share total size) st
    (st'.largest_freq = 0 → st'.norm.sum = 0) ∧
      (0 < st'.largest_freq → 0 < st'.norm.getD st'.largest 0) := by
  intro freq
  induction freq with
  | nil => intro st h; exact h
  | cons f freq ih =>
    intro st h
    have hkeep : ∀ p, 0 < st.norm.getD st.largest 0 → 0 < (st.norm ++ [p]).getD st.largest 0 := by
      intro p hpos
      have hlt : st.largest < st.norm.length := by
        by_contra hc
        rw [List.getD_eq_default _ _ (by omega)] at hpos
        omega
      rwa [List.getD_append _ _ _ _ hlt]
    have hlast : ∀ p, (st.norm ++ [p]).getD st.norm.length 0 = p := fun p => by
      rw [List.getD_append_right _ _ _ _ le_rfl, Nat.sub_self]
      rfl
    have hlen : (norm_share total size st (f, st.norm.length)).norm.length = st.norm.length +
      1 := by
      rw [norm_share]
      dsimp only
      split_ifs <;> simp only [List.length_append, List.length_singleton]
    have htail := ih (norm_share total size st (f, st.norm.length)) ?_
    · rw [hlen] at htail
      rw [List.zipIdx_cons, List.foldl_cons]
      exact htail
    · rw [norm_share]
      dsimp only
      by_cases hf : f = 0
      · rw [if_pos hf]
        exact ⟨fun h0 => by rw [List.sum_append, h.1 h0]; rfl, fun h0 => hkeep 0 (h.2 h0)⟩
      · rw [if_neg hf]
        by_cases hlt : st.largest_freq < f
        · rw [if_pos hlt]
          refine ⟨fun h0 => absurd h0 hf, fun _ => ?_⟩
          simp only [hlast]
          have hshare := (@share_of_pos total size f).mpr (Nat.pos_of_ne_zero hf)
          rwa [share_of, if_neg hf] at hshare
        · rw [if_neg hlt]
          simp only
          exact ⟨fun h0 => absurd h0 (by omega), fun h0 => hkeep _ (h.2 h0)⟩

/-- The loop that takes units back stops with the sum wanted. -/
theorem norm_shrink_spec (largest : Nat) : ∀ (n : Nat) (norm : List Nat),
    n + present norm ≤ norm.sum →
    (norm_shrink largest n norm).length = norm.length ∧
      (norm_shrink largest n norm).sum + n = norm.sum ∧
      ∀ j, 0 < (norm_shrink largest n norm).getD j 0 ↔ 0 < norm.getD j 0 := by
  intro n
  induction n with
  | zero => intro norm _; exact ⟨rfl, rfl, fun _ => Iff.rfl⟩
  | succ n ih =>
    intro norm hsum
    have hunit : ∀ i, 1 < norm.getD i 0 →
        (norm_shrink largest n (norm.modify i (· - 1))).length = norm.length ∧
        (norm_shrink largest n (norm.modify i (· - 1))).sum + (n + 1) = norm.sum ∧
        ∀ j, 0 < (norm_shrink largest n (norm.modify i (· - 1))).getD j 0 ↔ 0 < norm.getD j 0 := by
      intro i hi
      obtain ⟨hlen, hs, hp, hpos⟩ := take_unit hi
      obtain ⟨hlen', hs', hpos'⟩ := ih (norm.modify i (· - 1)) (by omega)
      exact ⟨hlen'.trans hlen, by omega, fun j => (hpos' j).trans (hpos j)⟩
    rw [norm_shrink]
    by_cases hlargest : 1 < norm.getD largest 0
    · rw [if_pos hlargest]
      exact hunit largest hlargest
    rw [if_neg hlargest]
    cases hfind : norm.findIdx? fun c => decide (1 < c) with
    | some d =>
      obtain ⟨hd, hgt, -⟩ := List.findIdx?_eq_some_iff_getElem.mp hfind
      exact hunit d (by rw [List.getD_eq_getElem _ _ hd]; simpa using hgt)
    | none =>
      -- without a count above one there is nothing to take back
      have hle := sum_le_present (l := norm) fun c hc => by
        simpa using List.findIdx?_eq_none_iff.mp hfind c hc
      omega

/-! ## `normalize_counts` -/

/-- The counts sum to the size of the table, and the symbols of the histogram are those with one. -/
theorem normalize_counts_spec {freq : List Nat} (total : Nat) {max_symbol table_log : Nat}
    (hlen : freq.length = max_symbol + 1) (hpresent : freq.countP (0 < ·) ≤ 2 ^ table_log) :
    ∃ counts : List Nat, normalize_counts freq total max_symbol table_log = counts.map Int.ofNat ∧
      counts.length = max_symbol + 1 ∧ counts.sum = 2 ^ table_log ∧
      (∀ i, 0 < freq.getD i 0 → 0 < counts.getD i 0) ∧
      (0 < freq.sum → ∀ i, 0 < counts.getD i 0 → 0 < freq.getD i 0) := by
  obtain ⟨hnorm, hassigned, hlargest⟩ :=
    norm_shares total (2 ^ table_log) freq ⟨[], 0, 0, 0⟩ rfl (Or.inr rfl)
  have hmost := norm_largest total (2 ^ table_log) freq ⟨[], 0, 0, 0⟩ ⟨fun _ => rfl,
    fun h => absurd h (by decide)⟩
  have hshares := present_map_share total (2 ^ table_log) freq
  rw [normalize_counts, ← hlen, List.take_length]
  rw [List.nil_append] at hnorm hassigned hlargest
  dsimp only [List.length_nil] at hnorm hassigned hlargest hmost ⊢
  obtain ⟨size, hsize⟩ : ∃ size, 2 ^ table_log = size := ⟨_, rfl⟩
  rw [hsize] at hpresent hshares hnorm hassigned hlargest hmost ⊢
  generalize (freq.zipIdx 0).foldl (norm_share total size) ⟨[], 0, 0, 0⟩ = st at *
  rw [← hnorm] at hshares hassigned hlargest
  have hlen' : st.norm.length = freq.length := by rw [hnorm, List.length_map]
  have hle := present_le_sum st.norm
  obtain ⟨hslen, hssum, hspos⟩ := norm_shrink_spec st.largest (st.assigned - size) st.norm
    (by omega)
  generalize norm_shrink st.largest (st.assigned - size) st.norm = shrunk at *
  have hlt : st.largest < shrunk.length := by omega
  have hsum := sum_modify (· + (size - st.assigned)) hlt
  have hshare : ∀ i, 0 < st.norm.getD i 0 ↔ 0 < freq.getD i 0 := by
    intro i
    rw [hnorm, show (0 : Nat) = share_of total size 0 from rfl, List.getD_map]
    exact share_of_pos
  refine ⟨_, rfl, by rw [List.length_modify]; omega, by omega, fun i hi => ?_, fun hpos i hi => ?_⟩
  · have hs := (hspos i).mpr ((hshare i).mpr hi)
    rw [getD_modify _ _ _ _ hlt]
    split_ifs <;> omega
  · rw [getD_modify _ _ _ _ hlt] at hi
    split_ifs at hi with hij
    · subst hij
      rcases Nat.eq_zero_or_pos st.largest_freq with h0 | h0
      · -- then the histogram is empty
        have hzero := List.sum_eq_zero_iff.mp (hmost.1 h0)
        obtain ⟨x, hx, hx0⟩ : ∃ x ∈ freq, x ≠ 0 := by
          by_contra hc
          exact absurd (List.sum_eq_zero_iff.mpr fun x hx => by_contra fun h => hc ⟨x, hx, h⟩)
            (by omega)
        have hxs := hzero (share_of total size x) (by rw [hnorm]; exact List.mem_map_of_mem hx)
        have := (@share_of_pos total size x).mpr (by omega)
        omega
      · exact (hshare _).mp (hmost.2 h0)
    · exact (hshare i).mp ((hspos i).mp hi)

/-- The counts are those of a table, and every symbol of the histogram has one. -/
theorem normalize_counts_valid {freq : List Nat} (total : Nat) {max_symbol table_log : Nat}
    (hlen : freq.length = max_symbol + 1) (h256 : max_symbol < 256)
    (hpresent : freq.countP (0 < ·) ≤ 2 ^ table_log) :
    ValidCounts (normalize_counts freq total max_symbol table_log) table_log ∧
      (normalize_counts freq total max_symbol table_log).length = max_symbol + 1 ∧
      ∀ i, 0 < freq.getD i 0 → (normalize_counts freq total max_symbol table_log).getD i 0 ≠ 0 := by
  obtain ⟨counts, heq, hclen, hsum, hpos, -⟩ := normalize_counts_spec total hlen hpresent
  rw [heq]
  refine ⟨⟨by rw [List.length_map]; omega, fun c hc => ?_, ?_⟩, by rw [List.length_map, hclen],
    fun i hi => ?_⟩
  · obtain ⟨n, -, rfl⟩ := List.mem_map.mp hc
    exact le_trans (by decide) (Int.natCast_nonneg n)
  · rw [List.map_map, show Int.natAbs ∘ Int.ofNat = id from rfl, List.map_id, hsum]
  · have hposi := hpos i hi
    rw [show (0 : Int) = Int.ofNat 0 from rfl, List.getD_map]
    simp only [Int.ofNat_eq_natCast]
    omega

/-- Normalized counts are legal: no symbol is lost or made up, the counts fill the table exactly,
and with two symbols none fills it alone. The accuracy logs that the encoder chooses have a position
for every weight and for every code of a channel. -/
theorem normalize_counts_legal :
    (∀ (freq : List Nat) (max_symbol table_log : Nat), max_symbol + 1 ≤ freq.length →
      let hist := freq.take (max_symbol + 1)
      0 < hist.sum → hist.sum < 2 ^ 32 → 5 ≤ table_log → table_log ≤ 9 →
      hist.countP (0 < ·) ≤ 2 ^ table_log →
      ∃ counts : List Nat,
        normalize_counts freq hist.sum max_symbol table_log = counts.map Int.ofNat ∧
        counts.length = max_symbol + 1 ∧
        (∀ s ≤ max_symbol, hist.getD s 0 = 0 → counts.getD s 0 = 0) ∧
        (∀ s ≤ max_symbol, 0 < hist.getD s 0 → 1 ≤ counts.getD s 0) ∧
        counts.sum = 2 ^ table_log ∧
        (2 ≤ hist.countP (0 < ·) → ∀ s ≤ max_symbol, counts.getD s 0 < 2 ^ table_log) ∧
        (max_symbol < 256 → ValidCounts (counts.map Int.ofNat) table_log)) ∧
    (∀ freq : List Nat, (∀ w, 0 < freq.getD w 0 → w ≤ 12) →
      let num_present := freq.countP (0 < ·)
      let table_log := choose_table_log HUF_WEIGHT_MAX_LOG num_present
      5 ≤ table_log ∧ table_log ≤ 9 ∧ num_present ≤ 2 ^ table_log) ∧
    (∀ max_log alphabet, (max_log, alphabet) ∈ [(LL_MAX_LOG, 36), (OF_MAX_LOG, 32),
      (ML_MAX_LOG, 53)] →
      ∀ freq : List Nat, (∀ c, 0 < freq.getD c 0 → c < alphabet) → ∀ n max_sym : Nat,
      let num_present := freq.countP (0 < ·)
      let table_log := min (max (optimal_table_log max_log n max_sym) (min_table_log num_present))
        max_log
      5 ≤ table_log ∧ table_log ≤ 9 ∧ num_present ≤ 2 ^ table_log) := by
  refine ⟨?_, ?_, ?_⟩
  · intro freq max_symbol table_log hlen hist hpos _ _ _ hpresent
    have htake : hist.length = max_symbol + 1 := by
      rw [List.length_take]
      omega
    have hself : normalize_counts hist hist.sum max_symbol table_log
        = normalize_counts freq hist.sum max_symbol table_log := by
      rw [normalize_counts, normalize_counts, List.take_take, Nat.min_self]
    obtain ⟨counts, heq, hclen, hsum, hkeep, honly⟩ := normalize_counts_spec hist.sum htake hpresent
    refine ⟨counts, hself ▸ heq, hclen, fun s _ h0 => ?_, fun s _ => hkeep s, hsum,
      fun h2 s _ => ?_, fun h256 => ?_⟩
    · by_contra hc
      have := honly hpos s (Nat.pos_of_ne_zero hc)
      omega
    · obtain ⟨b, hb, hbpos⟩ := exists_other h2 s
      have := hkeep b hbpos
      have := @getD_add_getD_le_sum counts _ _ hb
      omega
    · rw [← heq]
      exact (normalize_counts_valid hist.sum htake h256 hpresent).1
  · intro freq hfreq
    have hle := @countP_le_of_lt freq 13 fun w hw => Nat.lt_succ_of_le (hfreq w hw)
    have hlog : choose_table_log HUF_WEIGHT_MAX_LOG (freq.countP (0 < ·)) = 6 := rfl
    dsimp only
    rw [hlog]
    omega
  · intro max_log alphabet hch freq hfreq n max_sym
    have hsize : 5 ≤ max_log ∧ max_log ≤ 9 ∧ alphabet ≤ 2 ^ max_log := by
      simp only [List.mem_cons, Prod.mk.injEq, List.not_mem_nil, or_false] at hch
      rcases hch with ⟨rfl, rfl⟩ | ⟨rfl, rfl⟩ | ⟨rfl, rfl⟩ <;> decide
    obtain ⟨h5, hmax, hhost⟩ := table_log_spec hsize.1 n max_sym
      ((countP_le_of_lt hfreq).trans hsize.2.2)
    exact ⟨h5, hmax.trans hsize.2.1, hhost⟩

/-- The theorem at a histogram whose twenty rare symbols take more than is left for them, and at the
alphabets themselves. -/
theorem normalize_counts_legal_rare :
    (∃ counts : List Nat,
      normalize_counts (1000 :: 0 :: List.replicate 20 1) 1020 21 5 = counts.map Int.ofNat ∧
      counts.length = 22 ∧ counts.sum = 32 ∧ counts.getD 0 0 < 32 ∧ 1 ≤ counts.getD 21 0) ∧
    choose_table_log HUF_WEIGHT_MAX_LOG 1 ≤ 9 ∧
    5 ≤ min (max (optimal_table_log OF_MAX_LOG 1 0) (min_table_log 1)) OF_MAX_LOG := by
  obtain ⟨hcounts, hweights, hchannels⟩ := normalize_counts_legal
  have hone : ∀ c, 0 < [1].getD c 0 → c ≤ 0 := by
    intro c hc
    cases c with
    | zero => exact le_rfl
    | succ c => exact absurd hc (by simp)
  refine ⟨?_, ?_, ?_⟩
  · obtain ⟨counts, heq, hlen, -, hkeep, hsum, hlt, -⟩ :=
      hcounts (1000 :: 0 :: List.replicate 20 1) 21 5 (by decide) (by decide) (by decide)
        (by decide)
        (by decide) (by decide)
    exact ⟨counts, heq, hlen, hsum, hlt (by decide) 0 (by decide), hkeep 21 le_rfl (by decide)⟩
  · exact (hweights [1] fun w hw => (hone w hw).trans (by decide)).2.1
  · exact (hchannels OF_MAX_LOG 32 (by decide) [1] (fun c hc => (hone c hc).trans_lt (by decide)) 1
      0).1

end ZstdPure.Encode
