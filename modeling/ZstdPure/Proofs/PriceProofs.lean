import ZstdPure.Proofs.ParseProofs

/-!
# Proofs: prices

The statistics of a block are bounded by its length, and those carried over are halved before they
grow; so every price the optimal parse adds up is small.
-/

namespace ZstdPure.Encode

open Sequences

/-! ## Statistics -/

theorem sum_modify_le (l : List Nat) (i : Nat) : (l.modify i (· + 1)).sum ≤ l.sum + 1 := by
  induction l generalizing i with
  | nil => rw [List.modify_nil]; exact Nat.zero_le _
  | cons a l ih =>
    cases i with
    | zero =>
      rw [List.modify_zero_cons, List.sum_cons, List.sum_cons]
      omega
    | succ i =>
      rw [List.modify_succ_cons, List.sum_cons, List.sum_cons]
      have := ih i
      omega

theorem sum_halves_le (l : List Nat) : (l.map (· / 2)).sum ≤ l.sum / 2 := by
  induction l with
  | nil => exact le_refl _
  | cons a l ih =>
    rw [List.map_cons, List.sum_cons, List.sum_cons]
    omega

theorem sum_map_succ (l : List Nat) : (l.map (· + 1)).sum = l.sum + l.length := by
  induction l with
  | nil => rfl
  | cons a l ih =>
    rw [List.map_cons, List.sum_cons, List.sum_cons, List.length_cons, ih]
    omega

/-- The statistics have a counter for every code, and no channel counts more than `b`. -/
structure Freqs.Bounded (f : Freqs) (b : Nat) : Prop where
  lengths : f.lit.length = 256 ∧ f.ll.length = 36 ∧ f.ml.length = 53 ∧ f.of.length = 32
  lit : f.lit.sum ≤ b
  ll : f.ll.sum ≤ b
  ml : f.ml.sum ≤ b
  of : f.of.sum ≤ b

section Freqs

variable {f : Freqs} {b : Nat}

theorem Freqs.zero_bounded : Freqs.zero.Bounded 0 := by
  have hsum : ∀ n, (List.replicate n 0).sum ≤ 0 := fun n => by rw [List.sum_replicate_nat,
    Nat.mul_zero]
  exact ⟨⟨List.length_replicate, List.length_replicate, List.length_replicate,
    List.length_replicate⟩,
    hsum _, hsum _, hsum _, hsum _⟩

theorem Freqs.Bounded.mono {c : Nat} (h : f.Bounded b) (hbc : b ≤ c) : f.Bounded c :=
  ⟨h.lengths, h.lit.trans hbc, h.ll.trans hbc, h.ml.trans hbc, h.of.trans hbc⟩

/-- Every literal is counted once. -/
theorem literals_counted (lit : List Nat) (lits : Bytes) :
    (lits.foldl (fun freq b => freq.modify b.toNat (· + 1)) lit).length = lit.length ∧
    (lits.foldl (fun freq b => freq.modify b.toNat (· + 1)) lit).sum ≤ lit.sum + lits.length := by
  induction lits generalizing lit with
  | nil => exact ⟨rfl, le_refl _⟩
  | cons x lits ih =>
    obtain ⟨h1, h2⟩ := ih (lit.modify x.toNat (· + 1))
    have h3 := sum_modify_le lit x.toNat
    rw [List.length_modify] at h1
    rw [List.foldl_cons, List.length_cons]
    exact ⟨h1, by omega⟩

theorem Freqs.Bounded.literals (h : f.Bounded b) (lits : Bytes) :
    (f.literals lits).Bounded (b + lits.length) := by
  obtain ⟨hlen, hsum⟩ := literals_counted f.lit lits
  have hlit := h.lit
  refine ⟨⟨hlen.trans h.lengths.1, h.lengths.2⟩, ?_, h.ll.trans (Nat.le_add_right _ _),
    h.ml.trans (Nat.le_add_right _ _), h.of.trans (Nat.le_add_right _ _)⟩
  exact hsum.trans (Nat.add_le_add_right h.lit _)

theorem length_range_le (data : Bytes) (p q : Nat) : (range_of data p q).length ≤ q - p := by
  unfold range_of
  rw [List.length_drop, List.length_take]
  omega

/-- The sequences of a parse: a counter for each code, the literals once. -/
theorem Freqs.Bounded.sequence (h : f.Bounded b) (data : Bytes) (p : Nat) (q : Seq) :
    (Freqs.sequence data (f, p) q).1.Bounded (b + q.lit_len + 1) := by
  obtain ⟨hlengths, hlit, hll, hml, hof⟩ := h.literals (range_of data p (p + q.lit_len))
  have hrange := length_range_le data p (p + q.lit_len)
  obtain ⟨h256, h36, h53, h32⟩ := h.lengths
  have hb := h.ll
  have hb' := h.ml
  have hb'' := h.of
  refine ⟨⟨hlengths.1, ?_, ?_, ?_⟩, ?_, ?_, ?_, ?_⟩
  · exact (List.length_modify ..).trans h36
  · exact (List.length_modify ..).trans h53
  · exact (List.length_modify ..).trans h32
  · exact hlit.trans (by omega)
  · exact (sum_modify_le _ _).trans (by show f.ll.sum + 1 ≤ _; omega)
  · exact (sum_modify_le _ _).trans (by show f.ml.sum + 1 ≤ _; omega)
  · exact (sum_modify_le _ _).trans (by show f.of.sum + 1 ≤ _; omega)

/-- Over a parse of some bytes, no channel counts more than there are. -/
theorem Freqs.Bounded.count (h : f.Bounded b) {data : Bytes} {start last stop : Nat}
    {rep rep' : Reps}
    {seqs : List Seq} (hparse : Replays data start rep seqs last rep') (block : Bytes) (p n : Nat)
    (hlast : last ≤ stop) (hstop : p + (stop - start) = n) :
    (f.count block p n seqs).Bounded (b + (stop - start)) := by
  have hmin : MIN_MATCH = 4 := rfl
  unfold Freqs.count
  induction hparse generalizing f b p with
  | nil q rep =>
    have hrange := length_range_le block p n
    exact (h.literals (range_of block p n)).mono (by omega)
  | @cons q q' off rep rep' rep_out s seqs _ _ long _ rest ih =>
    have hle := rest.le
    have hnext := ih (h.sequence block p s) (p + s.span) hlast (by unfold Seq.span; omega)
    exact hnext.mono (by omega)

theorem downscale_bounded {a : List Nat} (h : a.sum ≤ 2 * 2 ^ 31) :
    (downscale a).length = a.length ∧ (downscale a).sum ≤ 2 ^ 31 := by
  unfold downscale
  split_ifs with hlarge
  · have := sum_halves_le a
    exact ⟨List.length_map .., by omega⟩
  · exact ⟨rfl, by omega⟩

/-- What a finder carries over from block to block stays bounded. -/
theorem OptStats.record_bounded {st : OptStats} (h : st.freqs.Bounded (2 ^ 31)) {data : Bytes}
    {start last stop : Nat} {rep rep' : Reps} {seqs : List Seq}
    (hparse : Replays data start rep seqs last rep') (hlast : last ≤ stop) (hle : start ≤ stop)
    (hblock : stop - start ≤ 2 ^ 31) :
    (st.record data start stop seqs).freqs.Bounded (2 ^ 31) := by
  obtain ⟨⟨h256, h36, h53, h32⟩, hlit, hll, hml, hof⟩ :=
    h.count hparse data start stop hlast (Nat.add_sub_cancel' hle)
  obtain ⟨hlen, hlit'⟩ := downscale_bounded (hlit.trans (by omega))
  obtain ⟨hlen₁, hll'⟩ := downscale_bounded (hll.trans (by omega))
  obtain ⟨hlen₂, hml'⟩ := downscale_bounded (hml.trans (by omega))
  obtain ⟨hlen₃, hof'⟩ := downscale_bounded (hof.trans (by omega))
  exact ⟨⟨hlen.trans h256, hlen₁.trans h36, hlen₂.trans h53, hlen₃.trans h32⟩, hlit', hll', hml',
    hof'⟩

end Freqs

/-! ## Prices -/

theorem log2_fp_lt {x : Nat} (h : x < 2 ^ 64) : log2_fp x < 2 ^ 14 := by
  have hbits : Nat.log2 x < 64 := by
    rcases Nat.eq_zero_or_pos x with rfl | hpos
    · decide
    · exact (Nat.log2_lt (by omega)).mpr h
  have hlow : (x <<< 8 >>> highbit x) % 2 ^ 32 &&& 0xFF < 2 ^ 14 :=
    lt_of_le_of_lt Nat.and_le_right (by decide)
  unfold log2_fp
  refine Nat.or_lt_two_pow ?_ hlow
  rw [Nat.shiftLeft_eq]
  unfold highbit
  omega

theorem getD_le {l : List Nat} {b : Nat} (h : ∀ x ∈ l, x ≤ b) (k : Nat) : l.getD k 0 ≤ b := by
  rcases Nat.lt_or_ge k l.length with hk | hk
  · rw [List.getD_eq_getElem _ _ hk]
    exact h _ (List.getElem_mem hk)
  · rw [List.getD_eq_default _ _ hk]
    exact Nat.zero_le b

theorem ll_bits_le (c : Nat) : LL_BITS.getD c 0 ≤ 16 := getD_le (by decide) c

theorem ml_bits_le (c : Nat) : ML_BITS.getD c 0 ≤ 16 := getD_le (by decide) c

theorem code_price_le (count : Int) (log : Nat) : code_price count log ≤ log * 256 := Nat.sub_le _ _

theorem Prices.predef_below (block : Bytes) : (Prices.predef block).Below (2 ^ 15) := by
  have htotal : log2_fp (block.length % 2 ^ 32) < 2 ^ 14 :=
    log2_fp_lt ((Nat.mod_lt _ (by decide)).trans (by decide))
  constructor
  · intro x hx
    obtain ⟨n, _, rfl⟩ := List.mem_map.mp hx
    omega
  · intro x hx
    obtain ⟨c, _, rfl⟩ := List.mem_map.mp hx
    have h1 := code_price_le (LL_DEFAULT.getD c 0) 6
    have h2 := ll_bits_le c
    omega
  · intro x hx
    obtain ⟨c, _, rfl⟩ := List.mem_map.mp hx
    have h1 := code_price_le (ML_DEFAULT.getD c 0) 6
    have h2 := ml_bits_le c
    omega
  · intro x hx
    obtain ⟨c, hc, rfl⟩ := List.mem_map.mp hx
    have h1 := code_price_le (OF_DEFAULT.getD c (-1)) 5
    have h2 := List.mem_range.mp hc
    omega

theorem entropy_prices_lt {freq : List Nat} {extra : Nat → Nat}
    (hsum : freq.sum + freq.length < 2 ^ 64) (hextra : ∀ c, c < freq.length → extra c ≤ 32) :
    ∀ x ∈ entropy_prices freq extra,
      x < 2 ^ 15 := by
  intro x hx
  unfold entropy_prices at hx
  dsimp only at hx
  obtain ⟨c, hc, rfl⟩ := List.mem_map.mp hx
  have hlog : log2_fp (freq.map (· + 1)).sum < 2 ^ 14 := by
    apply log2_fp_lt
    rw [sum_map_succ]
    exact hsum
  have h2 := hextra c.2 (List.snd_lt_of_mem_zipIdx hc)
  omega

theorem Prices.from_freqs_below {f : Freqs} {b : Nat} (h : f.Bounded b) (hb : b ≤ 2 ^ 32) :
    (Prices.from_freqs f).Below (2 ^ 15) := by
  obtain ⟨⟨h256, h36, h53, h32⟩, hlit, hll, hml, hof⟩ := h
  have hfit : ∀ {l : List Nat} {n : Nat}, l.sum ≤ b → l.length = n → n ≤ 256 →
      l.sum + l.length < 2 ^ 64 := by
    intro l n hs hl hn
    omega
  constructor
  · intro x hx
    obtain ⟨n, _, rfl⟩ := List.mem_map.mp hx
    have hlog : log2_fp (f.lit.map (· + 1)).sum < 2 ^ 14 := by
      apply log2_fp_lt
      rw [sum_map_succ]
      exact hfit hlit h256 (le_refl _)
    omega
  · show ∀ x ∈ entropy_prices f.ll fun c => LL_BITS.getD c 0, x < 2 ^ 15
    exact entropy_prices_lt (hfit hll h36 (by decide)) fun c _ => (ll_bits_le c).trans (by decide)
  · show ∀ x ∈ entropy_prices f.ml fun c => ML_BITS.getD c 0, x < 2 ^ 15
    exact entropy_prices_lt (hfit hml h53 (by decide)) fun c _ => (ml_bits_le c).trans (by decide)
  · show ∀ x ∈ entropy_prices f.of fun c => c, x < 2 ^ 15
    exact entropy_prices_lt (hfit hof h32 (by decide)) fun c hc => by omega

theorem Prices.from_stats_below {data : Bytes} {start last stop : Nat} {rep rep' : Reps}
    {seqs : List Seq} (hparse : Replays data start rep seqs last rep') (hlast : last ≤ stop)
    {block : Bytes} (hblock : block.length = stop - start) (hlen : block.length ≤ 2 ^ 32) :
    (Prices.from_stats block seqs).Below (2 ^ 15) := by
  have hcount := Freqs.zero_bounded.count hparse block 0 block.length hlast (by omega)
  exact Prices.from_freqs_below hcount (by omega)

end ZstdPure.Encode
